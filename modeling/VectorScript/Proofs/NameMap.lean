import VectorScript.NameMap

/-!
# Maps from names, further laws

What an insertion keeps and adds, the entries of a map as its look-ups, and how many entries have a
property.
-/

namespace VectorScript

namespace NameMap

variable {α β : Type} {m : NameMap α} {name x : String} {a b : α}

theorem get?_insert_self : (m.insert name a).get? name = some a := by
  rw [get?_insert, if_pos rfl]

/-- A new name hides nothing. -/
theorem get?_insert_of_new (hn : m.get? name = none) (h : m.get? x = some b) :
    (m.insert name a).get? x = some b := by
  rw [get?_insert, if_neg]
  · exact h
  · rintro rfl
    rw [hn] at h
    cases h

theorem eq_or_get?_of_insert (h : (m.insert name a).get? x = some b) :
    x = name ∧ b = a ∨ m.get? x = some b := by
  rw [get?_insert] at h
  split at h
  · next hx => exact .inl ⟨hx, (Option.some.inj h).symm⟩
  · exact .inr h

theorem contains_iff : m.contains x = true ↔ ∃ a, m.get? x = some a := by
  unfold contains
  rw [Option.isSome_iff_exists]

theorem contains_insert : (m.insert name a).contains x = true ↔ x = name ∨ m.contains x = true := by
  unfold contains
  rw [get?_insert]
  split
  · next h => simp [h]
  · next h => simp [h]

end NameMap

/-! ## Entries -/

namespace Entries

theorem toNat_eq_ite (b : Bool) : b.toNat = if b then 1 else 0 := by
  cases b <;> rfl

variable {α : Type} {l : List (String × α)} {name : String} {a : α}

theorem mem_of_find? (h : find? name l = some a) : (name, a) ∈ l := by
  induction l with
  | nil => cases h
  | cons e rest ih =>
    obtain ⟨k, b⟩ := e
    unfold find? at h
    split at h
    · next hk =>
      cases h
      rw [hk]
      exact List.mem_cons_self
    · exact List.mem_cons_of_mem _ (ih h)

theorem find?_of_mem (hl : l.Pairwise (·.1 < ·.1)) (h : (name, a) ∈ l) :
    find? name l = some a := by
  induction l with
  | nil => cases h
  | cons e rest ih =>
    obtain ⟨k, b⟩ := e
    obtain ⟨hlt, hrest⟩ := List.pairwise_cons.1 hl
    unfold find?
    rcases List.mem_cons.1 h with h' | h'
    · cases h'
      rw [if_pos rfl]
    · rw [if_neg]
      · exact ih hrest h'
      · rintro rfl
        exact String.lt_irrefl _ (hlt (name, a) h')

variable (p : String × α → Bool)

theorem countP_insert (hl : l.Pairwise (·.1 < ·.1)) :
    (insert name a l).countP p + ((find? name l).map fun b => (p (name, b)).toNat).getD 0 =
      l.countP p + (p (name, a)).toNat := by
  induction l with
  | nil => simp [insert, find?, List.countP_cons, toNat_eq_ite]
  | cons e rest ih =>
    obtain ⟨k, b⟩ := e
    obtain ⟨hlt, hrest⟩ := List.pairwise_cons.1 hl
    unfold insert find?
    split
    · next h =>
      have hne : name ≠ k := by
        rintro rfl
        exact String.lt_irrefl _ h
      have hnone : find? name rest = none := by
        cases hf : find? name rest with
        | none => rfl
        | some c =>
          have := String.lt_trans h (hlt _ (mem_of_find? hf))
          exact absurd this (String.lt_irrefl _)
      rw [if_neg hne, hnone]
      simp [List.countP_cons, toNat_eq_ite]
    · split
      · next h =>
        rw [h]
        simp only [List.countP_cons, toNat_eq_ite, Option.map_some,
          Option.getD_some]
        omega
      · next h =>
        have := ih hrest
        simp only [List.countP_cons]
        omega

theorem countP_erase (hl : l.Pairwise (·.1 < ·.1)) :
    (l.filter fun e => e.1 ≠ name).countP p +
      ((find? name l).map fun b => (p (name, b)).toNat).getD 0 = l.countP p := by
  induction l with
  | nil => rfl
  | cons e rest ih =>
    obtain ⟨k, b⟩ := e
    obtain ⟨hlt, hrest⟩ := List.pairwise_cons.1 hl
    have := ih hrest
    unfold find?
    by_cases h : name = k
    · subst h
      have hnone : find? name rest = none := by
        cases hf : find? name rest with
        | none => rfl
        | some c => exact absurd (hlt _ (mem_of_find? hf)) (String.lt_irrefl _)
      rw [hnone] at this
      simp only [Option.map_none, Option.getD_none, Nat.add_zero] at this
      simp only [ne_eq, not_true_eq_false, decide_false, Bool.false_eq_true, not_false_eq_true,
        List.filter_cons_of_neg, this, if_true, Option.map_some, Option.getD_some,
        List.countP_cons, toNat_eq_ite]
    · rw [if_neg h, List.filter_cons_of_pos (by simpa using Ne.symm h), List.countP_cons,
        List.countP_cons]
      omega

/-- An entry of the same name is replaced where it stands. -/
theorem names_insert {b : α} (hl : l.Pairwise (·.1 < ·.1)) (h : find? name l = some b) :
    (insert name a l).map (·.1) = l.map (·.1) := by
  induction l with
  | nil => cases h
  | cons e rest ih =>
    obtain ⟨k, c⟩ := e
    obtain ⟨hk, hrest⟩ := List.pairwise_cons.1 hl
    rw [insert]
    rw [find?] at h
    split
    · next hlt =>
      rw [if_neg (String.ne_of_lt hlt)] at h
      exact absurd (hk _ (mem_of_find? h)) (String.lt_asymm hlt)
    · split
      · next heq =>
        subst heq
        rfl
      · next hne =>
        rw [if_neg hne] at h
        rw [List.map_cons, List.map_cons, ih hrest h]

end Entries

namespace NameMap

variable {α β : Type} {m : NameMap α} {name : String} {a : α}

/-- The entries of a map are its look-ups. -/
theorem mem_entries : (name, a) ∈ m.entries ↔ m.get? name = some a :=
  ⟨Entries.find?_of_mem m.sorted, Entries.mem_of_find?⟩

theorem mem_names : name ∈ m.names ↔ m.contains name = true := by
  rw [contains_iff]
  constructor
  · intro h
    obtain ⟨⟨_, a⟩, he, rfl⟩ := List.mem_map.1 h
    exact ⟨a, mem_entries.1 he⟩
  · rintro ⟨a, h⟩
    exact List.mem_map.2 ⟨(name, a), mem_entries.2 h, rfl⟩

/-- Which names are there hangs on the names alone. -/
theorem contains_congr {m' : NameMap β} (h : m'.names = m.names) (x : String) :
    m'.contains x = m.contains x := by
  rw [← Bool.coe_iff_coe, ← mem_names, ← mem_names, h]

/-- Two maps with the same look-ups are the same. -/
theorem ext_get? {m' : NameMap α} (h : ∀ x, m.get? x = m'.get? x) : m = m' := by
  have hnodup : ∀ m : NameMap α, m.entries.Nodup := by
    intro m
    refine m.sorted.imp ?_
    rintro a _ hlt rfl
    exact String.lt_irrefl _ hlt
  have hperm : m.entries.Perm m'.entries := by
    refine (List.perm_ext_iff_of_nodup (hnodup m) (hnodup m')).2 fun e => ?_
    rw [mem_entries, mem_entries, h]
  have hentries := hperm.eq_of_pairwise
    (fun a b _ _ hab hba => absurd hba (String.lt_asymm hab)) m.sorted m'.sorted
  obtain ⟨⟩ := m
  obtain ⟨⟩ := m'
  simp only at hentries
  simp only [hentries]

/-- Inserting a value that is there changes nothing. -/
theorem insert_self (h : m.get? name = some a) : m.insert name a = m := by
  refine ext_get? fun x => ?_
  rw [get?_insert]
  split
  · next hx => rw [hx, h]
  · rfl

theorem nodup_names (m : NameMap α) : m.names.Nodup :=
  List.pairwise_map.2 (m.sorted.imp fun h => String.ne_of_lt h)

/-- A new value for a name that is there adds no name. -/
theorem names_insert {b : α} (h : m.get? name = some b) : (m.insert name a).names = m.names :=
  Entries.names_insert m.sorted h

/-- How many values have a property. -/
def count (m : NameMap α) (p : α → Bool) : Nat := m.entries.countP fun e => p e.2

theorem count_map (f : String → α → β) (p : β → Bool) (q : α → Bool)
    (h : ∀ x a, p (f x a) = q a) (m : NameMap α) : (m.map f).count p = m.count q := by
  unfold count map
  rw [List.countP_map]
  congr 1
  funext e
  exact h e.1 e.2

/-- An insertion counts the new value instead of the old one. -/
theorem count_insert (m : NameMap α) (name : String) (a : α) (p : α → Bool) :
    (m.insert name a).count p + ((m.get? name).map fun b => (p b).toNat).getD 0 =
      m.count p + (p a).toNat :=
  Entries.countP_insert (fun e => p e.2) m.sorted

theorem count_erase (m : NameMap α) (name : String) (p : α → Bool) :
    (m.erase name).count p + ((m.get? name).map fun b => (p b).toNat).getD 0 = m.count p :=
  Entries.countP_erase (fun e => p e.2) m.sorted

theorem count_pos {p : α → Bool} (h : m.get? name = some a) (ha : p a = true) : 0 < m.count p :=
  List.countP_pos_iff.2 ⟨(name, a), mem_entries.2 h, ha⟩

end NameMap

end VectorScript
