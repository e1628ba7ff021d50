import VectorScript.Proofs.Store.Table

/-!
# What becomes of a table

Several generations of one name can be alive at once, and they die in any order. Whatever has been
declared, referred to, given up and swept since the table was empty, a name stands for the newest
entry that is left of it (`after_names_newest`). Each step keeps the table `Sorted`; ids only grow.

    t.Sorted → (t.perform step).Sorted                                         (Sorted.perform)
    earlier <+: steps → (after earlier).next ≤ (after steps).next              (next_le_after)
    t.Sorted → t.sweepReporting = (t.dead.map fun e => (e.owner, e.name), t.sweep)
                                                                   (Sorted.sweepReporting_eq)
-/

namespace VectorScript

/-- What is done to a table. -/
inductive TableStep
  | declare (owner name : String) (ty : Ty)
  | acquire (ids : List SharedId)
  | release (ids : List SharedId)
  | sweep

namespace SharedTable

def perform (t : SharedTable) : TableStep → SharedTable
  | .declare owner name ty => (t.declare owner name ty).2
  | .acquire ids => t.acquire ids
  | .release ids => t.release ids
  | .sweep => t.sweep

/-- The table after these steps on an empty one. -/
def after (steps : List TableStep) : SharedTable := steps.foldl perform empty

/-! ## Steps and runs -/

theorem Sorted.perform {t : SharedTable} (ht : t.Sorted) (step : TableStep) :
    (t.perform step).Sorted := by
  cases step with
  | declare owner name ty => exact (declare_spec ht owner name ty).1.sorted
  | acquire ids =>
    show (t.acquire ids).Sorted
    rw [acquire_eq]
    exact ht.mapEntries (fun _ => rfl) (fun _ => rfl) (fun _ => rfl)
  | release ids =>
    show (t.release ids).Sorted
    rw [release_eq]
    exact ht.mapEntries (fun _ => rfl) (fun _ => rfl) (fun _ => rfl)
  | sweep => exact ht.sweep

theorem Sorted.next_le_perform {t : SharedTable} (ht : t.Sorted) (step : TableStep) :
    t.next ≤ (t.perform step).next := by
  cases step with
  | declare owner name ty => exact (declare_spec ht owner name ty).1.next_le
  | acquire ids =>
    show t.next ≤ (t.acquire ids).next
    rw [acquire_eq]
    exact Nat.le_refl _
  | release ids =>
    show t.next ≤ (t.release ids).next
    rw [release_eq]
    exact Nat.le_refl _
  | sweep => exact Nat.le_of_eq ht.sweep_spec.2.2.symm

theorem Sorted.performAll {t : SharedTable} (ht : t.Sorted) (steps : List TableStep) :
    (steps.foldl SharedTable.perform t).Sorted ∧
      t.next ≤ (steps.foldl SharedTable.perform t).next := by
  induction steps generalizing t with
  | nil => exact ⟨ht, Nat.le_refl _⟩
  | cons step steps ih =>
    obtain ⟨hs, hle⟩ := ih (ht.perform step)
    exact ⟨hs, Nat.le_trans (ht.next_le_perform step) hle⟩

theorem sorted_after (steps : List TableStep) : (after steps).Sorted :=
  (sorted_empty.performAll steps).1

/-- Ids that have been given out stay below the next one. -/
theorem next_le_after {earlier steps : List TableStep} (h : earlier <+: steps) :
    (after earlier).next ≤ (after steps).next := by
  obtain ⟨later, rfl⟩ := h
  unfold after
  rw [List.foldl_append]
  exact ((sorted_after earlier).performAll later).2

/-! ## Names -/

theorem Sorted.lookup_eq_some {t : SharedTable} (ht : t.Sorted) {owner name : String}
    {id : SharedId} :
    t.lookup owner name = some id ↔ ∃ e, t.IsNewest owner name e ∧ e.id = id := by
  rw [ht.keyed, Option.map_eq_some_iff]
  exact exists_congr fun e => and_congr ht.newest?_eq_some Iff.rfl

theorem Sorted.lookup_eq_none {t : SharedTable} (ht : t.Sorted) {owner name : String} :
    t.lookup owner name = none ↔ ∀ e ∈ t.entries, ¬(e.owner = owner ∧ e.name = name) := by
  rw [ht.keyed, Option.map_eq_none_iff]
  refine ⟨newest?_eq_none, fun h => ?_⟩
  cases hn : t.newest? owner name with
  | none => rfl
  | some e =>
    obtain ⟨hm, ho, hname, -⟩ := ht.newest?_eq_some.1 hn
    exact absurd ⟨ho, hname⟩ (h e hm)

/-- A declaration gives the newest entry if that has the declared type, and adds one otherwise. -/
theorem Sorted.declare_eq {t : SharedTable} (ht : t.Sorted) (owner name : String) (ty : Ty) :
    (∃ e, t.IsNewest owner name e ∧ e.ty = ty ∧ t.declare owner name ty = (e.id, t)) ∨
      (∀ e, t.IsNewest owner name e → e.ty ≠ ty) ∧
        t.declare owner name ty = t.append owner name ty := by
  have hcases := t.declare_cases owner name ty
  simp only [ht.current?_eq, ht.newest?_eq_some] at hcases
  exact hcases

/-! ## Reports -/

theorem Sorted.removeReporting_eq {t : SharedTable} (ht : t.Sorted) {es : List SharedEntry}
    (hes : ∀ e ∈ es, e ∈ t.entries) (hd : es.Pairwise fun a b => a.id ≠ b.id) :
    t.removeReporting (es.map (·.id)) =
      (es.map fun e => (e.owner, e.name), es.foldl SharedTable.remove t) := by
  induction es generalizing t with
  | nil => rfl
  | cons e es ih =>
    obtain ⟨he, hes⟩ := List.forall_mem_cons.1 hes
    obtain ⟨hne, hd⟩ := List.pairwise_cons.1 hd
    have hleft : ∀ a ∈ es, a ∈ (t.remove e).entries := by
      intro a ha
      rw [remove_entries]
      exact List.mem_filter.2 ⟨hes a ha, decide_eq_true (hne a ha).symm⟩
    rw [List.map_cons, SharedTable.removeReporting, ht.get?_id he]
    simp only [ih (ht.remove he) hleft hd]
    rfl

/-- The dead entries in the order of their ids. -/
theorem Ordered.increasing_dead {t : SharedTable} (ht : t.Ordered) :
    t.dead.Pairwise fun a b => a.id.index < b.id.index := ht.increasing.filter _

theorem Sorted.sweepReporting_eq {t : SharedTable} (ht : t.Sorted) :
    t.sweepReporting = (t.dead.map fun e => (e.owner, e.name), t.sweep) := by
  refine ht.removeReporting_eq (fun e he => (List.mem_filter.1 he).1) ?_
  refine ht.increasing_dead.imp fun {a b} h hid => ?_
  rw [hid] at h
  exact Nat.lt_irrefl _ h

/-! ## Histories -/

/-- After any history of a table: a name stands for the entry of its owner and name with the
greatest id; a declaration gives that entry if its type is the declared one, and otherwise adds an
entry with an id greater than any before; a sweep removes just the entries without references, and
reports them in the order of their ids. -/
theorem after_names_newest (steps : List TableStep) :
    let t := after steps
    (∀ owner name,
      (∀ id, t.lookup owner name = some id ↔ ∃ e, t.IsNewest owner name e ∧ e.id = id) ∧
      (t.lookup owner name = none ↔ ∀ e ∈ t.entries, ¬(e.owner = owner ∧ e.name = name))) ∧
    (∀ owner name ty,
      (∃ e, t.IsNewest owner name e ∧ e.ty = ty ∧ t.declare owner name ty = (e.id, t)) ∨
      (∀ e, t.IsNewest owner name e → e.ty ≠ ty) ∧
        ∃ id t', t.declare owner name ty = (id, t') ∧
          t'.entries = t.entries ++ [⟨id, owner, name, ty, .create ty, 0⟩] ∧
          ∀ earlier, earlier <+: steps → ∀ e ∈ (after earlier).entries, e.id.index < id.index) ∧
    ∃ removed report t', t.sweepReporting = (report, t') ∧ t' = t.sweep ∧
      t'.entries = t.entries.filter (fun e => e.refs ≠ 0) ∧
      removed = t.entries.filter (fun e => e.refs = 0) ∧
      removed.Pairwise (fun a b => a.id.index < b.id.index) ∧
      report = removed.map fun e => (e.owner, e.name) := by
  intro t
  have ht : t.Sorted := sorted_after steps
  refine ⟨fun owner name => ⟨fun id => ht.lookup_eq_some, ht.lookup_eq_none⟩,
    fun owner name ty => ?_, ?_⟩
  · refine (ht.declare_eq owner name ty).imp id fun ⟨hty, h⟩ => ⟨hty, ⟨t.next⟩, _, h, rfl, ?_⟩
    intro earlier hearlier e he
    calc e.id.index < (after earlier).next := (sorted_after earlier).below e he
      _ ≤ t.next := next_le_after hearlier
  · exact ⟨t.dead, _, _, ht.sweepReporting_eq, rfl, ht.sweep_spec.2.1, rfl, ht.increasing_dead,
      rfl⟩

end SharedTable

end VectorScript
