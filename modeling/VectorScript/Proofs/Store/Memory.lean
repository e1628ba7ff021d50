import VectorScript.Store.Memory
import VectorScript.Proofs.Store.Cell
import VectorScript.Proofs.Store.Table

/-!
# Memory and the table in a run

Memory fits the slots of its program (`Memory.Fits`) from its creation on, and no store changes
that. In the table a store changes nothing but the contents of one cell (`SharedTable.Refilled`),
which keeps its shape. Ids never change their meaning (`SharedTable.Follows`).

    m.Fits slots → (m.store t slot v path).2.1.Fits slots                            (fits_store)
-/

namespace VectorScript

namespace SharedTable

/-! ## Ids keep their meaning -/

/-- In the later table an id that was given out before stands for an entry of the same type and
owner, which holds what it held unless the owner is one of the writers. -/
structure Follows (t t' : SharedTable) (writers : String → Prop := fun _ => True) : Prop where
  next_le : t.next ≤ t'.next
  old : ∀ e' ∈ t'.entries, e'.id.index < t.next → ∃ e ∈ t.entries, e.id = e'.id ∧ e.ty = e'.ty ∧
    e.owner = e'.owner ∧ (¬writers e.owner → e'.cell = e.cell)

section

variable {writers : String → Prop} {t t' : SharedTable}

theorem Follows.refl (t : SharedTable) : t.Follows t writers :=
  ⟨Nat.le_refl _, fun e he _ => ⟨e, he, rfl, rfl, rfl, fun _ => rfl⟩⟩

theorem Follows.trans {t'' : SharedTable} (h : t.Follows t' writers)
    (h' : t'.Follows t'' writers) : t.Follows t'' writers := by
  refine ⟨Nat.le_trans h.next_le h'.next_le, fun e'' he'' hlt => ?_⟩
  obtain ⟨e', he', hid', hty', ho', hcell'⟩ :=
    h'.old e'' he'' (Nat.lt_of_lt_of_le hlt h.next_le)
  obtain ⟨e, he, hid, hty, ho, hcell⟩ := h.old e' he' (hid' ▸ hlt)
  refine ⟨e, he, hid.trans hid', hty.trans hty', ho.trans ho', fun hw => ?_⟩
  rw [hcell' (ho ▸ hw), hcell hw]

theorem Follows.mono {others : String → Prop} (h : t.Follows t' writers)
    (hw : ∀ owner, writers owner → others owner) : t.Follows t' others := by
  refine ⟨h.next_le, fun e' he' hlt => ?_⟩
  obtain ⟨e, he, hid, hty, ho, hcell⟩ := h.old e' he' hlt
  exact ⟨e, he, hid, hty, ho, fun hn => hcell (hn ∘ hw e.owner)⟩

theorem follows_mapEntries {f : SharedEntry → SharedEntry} (hid : ∀ e, (f e).id = e.id)
    (hty : ∀ e, (f e).ty = e.ty) (ho : ∀ e, (f e).owner = e.owner)
    (hcell : ∀ e ∈ t.entries, ¬writers e.owner → (f e).cell = e.cell) :
    t.Follows (t.mapEntries f) writers := by
  refine ⟨Nat.le_refl _, fun e' he' _ => ?_⟩
  obtain ⟨e, he, rfl⟩ := List.mem_map.1 he'
  exact ⟨e, he, (hid e).symm, (hty e).symm, (ho e).symm, hcell e he⟩

theorem follows_remove (t : SharedTable) (e : SharedEntry) : t.Follows (t.remove e) writers := by
  refine ⟨Nat.le_of_eq (remove_next t e).symm, fun a ha _ => ⟨a, ?_, rfl, rfl, rfl, fun _ => rfl⟩⟩
  rw [remove_entries] at ha
  exact (List.mem_filter.1 ha).1

theorem follows_sweep (t : SharedTable) : t.Follows t.sweep writers := by
  unfold sweep
  generalize t.dead = es
  induction es generalizing t with
  | nil => exact .refl t
  | cons e es ih => exact (follows_remove t e).trans (ih _)

theorem Extends.follows {owner : String} (h : Extends owner t t') : t.Follows t' writers := by
  obtain ⟨fresh, hl, hf⟩ := h.entries
  refine ⟨h.next_le, fun e he hlt => ?_⟩
  rw [hl] at he
  rcases List.mem_append.1 he with he | he
  · exact ⟨e, he, rfl, rfl, rfl, fun _ => rfl⟩
  · have := (hf e he).2.2.2
    omega

theorem follows_acquire (t : SharedTable) (ids : List SharedId) :
    t.Follows (t.acquire ids) writers := by
  rw [acquire_eq]
  refine follows_mapEntries ?_ ?_ ?_ ?_ <;> intros <;> rfl

theorem follows_release (t : SharedTable) (ids : List SharedId) :
    t.Follows (t.release ids) writers := by
  rw [release_eq]
  refine follows_mapEntries ?_ ?_ ?_ ?_ <;> intros <;> rfl

/-- Where an id has an entry in both tables the entries have one type and one owner, and the same
contents unless the owner is one of the writers. -/
theorem Follows.get?_eq (h : t.Follows t' writers) (ht : t.Sorted) (ht' : t'.Sorted)
    {id : SharedId} {e e' : SharedEntry} (he : t.get? id = some e) (he' : t'.get? id = some e') :
    e'.ty = e.ty ∧ e'.owner = e.owner ∧ (¬writers e.owner → e'.cell = e.cell) := by
  obtain ⟨hm, hid⟩ := ht.get?_eq_some.1 he
  obtain ⟨hm', hid'⟩ := ht'.get?_eq_some.1 he'
  have hlt := ht.below e hm
  rw [hid, ← hid'] at hlt
  obtain ⟨a, ha, haid, hty, ho, hcell⟩ := h.old e' hm' hlt
  obtain rfl : a = e := ht.eq_of_id ha hm (haid.trans (hid'.trans hid.symm))
  exact ⟨hty.symm, ho.symm, hcell⟩

end

/-! ## Contents -/

/-- Every cell has the shape of its type. -/
def Shaped (t : SharedTable) : Prop := ∀ e ∈ t.entries, e.cell.Conforms e.ty

/-- Only the contents of cells have changed, not their shape. -/
structure Refilled (t t' : SharedTable) : Prop where
  entries : ∃ f : SharedEntry → Cell, t' = t.mapEntries fun e => { e with cell := f e }
  shaped : t.Shaped → t'.Shaped

theorem Refilled.refl (t : SharedTable) : t.Refilled t :=
  ⟨⟨fun e => e.cell, by simp [mapEntries]⟩, id⟩

theorem Refilled.follows {t t' : SharedTable} (h : t.Refilled t') : t.Follows t' := by
  obtain ⟨f, rfl⟩ := h.entries
  exact follows_mapEntries (fun _ => rfl) (fun _ => rfl) (fun _ => rfl) fun _ _ hn => absurd trivial hn

theorem Refilled.trans {t t' t'' : SharedTable} (h : t.Refilled t') (h' : t'.Refilled t'') :
    t.Refilled t'' := by
  obtain ⟨f, rfl⟩ := h.entries
  obtain ⟨g, rfl⟩ := h'.entries
  exact ⟨⟨fun e => g { e with cell := f e }, mapEntries_mapEntries ..⟩, h'.shaped ∘ h.shaped⟩

theorem Refilled.sorted {t t' : SharedTable} (h : t.Refilled t') (ht : t.Sorted) : t'.Sorted := by
  obtain ⟨f, rfl⟩ := h.entries
  exact ht.mapEntries (fun _ => rfl) (fun _ => rfl) fun _ => rfl

/-- Tables that differ from one and the same in the contents of cells are equal if their entries
are. -/
theorem Refilled.eq {t t' t'' : SharedTable} (ht : t.Sorted) (h : t.Refilled t')
    (h' : t.Refilled t'') (heq : ∀ id, t'.get? id = t''.get? id) : t' = t'' := by
  obtain ⟨f, rfl⟩ := h.entries
  obtain ⟨g, rfl⟩ := h'.entries
  unfold mapEntries
  congr 1
  refine List.map_congr_left fun e he => ?_
  have hleft := get?_mapEntries (f := fun e => { e with cell := f e }) (fun _ => rfl) t e.id
  have hright := get?_mapEntries (f := fun e => { e with cell := g e }) (fun _ => rfl) t e.id
  rw [ht.get?_id he, Option.map_some] at hleft hright
  exact Option.some.inj (hleft.symm.trans ((heq e.id).trans hright))

theorem refilled_store? {t : SharedTable} (ht : t.Sorted) {id : SharedId} {v : Value}
    {path : List Int32} {outcome : Except Fault Unit} {t' : SharedTable}
    (h : t.store? id v path = some (outcome, t')) : t.Refilled t' := by
  obtain ⟨e, he, hr⟩ := Option.map_eq_some_iff.1 h
  cases hr
  obtain ⟨hm, hid⟩ := ht.get?_eq_some.1 he
  rw [modify_eq]
  constructor
  · refine ⟨fun a => if a.id = id then (e.cell.set v path).2 else a.cell, ?_⟩
    congr 1
    funext a
    by_cases h : a.id = id <;> simp [h]
  · intro hshaped a ha
    obtain ⟨b, hb, rfl⟩ := List.mem_map.1 ha
    split
    · next hbid =>
      rw [ht.eq_of_id hb hm (hbid.trans hid.symm)]
      exact Cell.conforms_set path v (hshaped e hm)
    · exact hshaped b hb

end SharedTable

/-! ## Memory -/

/-- Every slot has its storage: its own cell of the right shape, or the entry that it names. -/
structure Memory.Fits (m : Memory) (slots : List Slot) : Prop where
  own : ∀ (n : Nat) ty, slots[n]? = some (Slot.local ty) →
    ∃ c : Cell, m.slots[n]? = some (Storage.local c) ∧ c.Conforms ty
  shared : ∀ (n : Nat) id, slots[n]? = some (Slot.shared id) →
    m.slots[n]? = some (Storage.shared id)

namespace Memory

/-- The storage that a slot gets. -/
def freshStorage : Slot → Storage
  | .local ty => .local (.create ty)
  | .shared id => .shared id

theorem storageFor_eq {t : SharedTable} {slot : Slot}
    (h : ∀ id, slot = .shared id → ∃ e, t.get? id = some e) :
    storageFor t slot = .ok (freshStorage slot) := by
  cases slot with
  | «local» ty => rfl
  | shared id =>
    obtain ⟨e, he⟩ := h id rfl
    simp [storageFor, he, freshStorage]

/-- Memory that nothing has been stored in. -/
def fresh (slots : List Slot) : Memory := ⟨slots.map freshStorage⟩

theorem fits_fresh (slots : List Slot) : (fresh slots).Fits slots := by
  refine ⟨fun n ty hn => ?_, fun n id hn => ?_⟩
  · exact ⟨.create ty, by simp [fresh, hn, freshStorage], Cell.conforms_create ty⟩
  · simp [fresh, hn, freshStorage]

/-- Memory can be made when every entry that is named exists. -/
theorem create_eq {t : SharedTable} {slots : List Slot}
    (h : ∀ id, Slot.shared id ∈ slots → ∃ e, t.get? id = some e) :
    create slots t = .ok (fresh slots) := by
  have hmap : slots.mapM (storageFor t) = .ok (slots.map freshStorage) := by
    induction slots with
    | nil => rfl
    | cons slot rest ih =>
      rw [List.mapM_cons, storageFor_eq (fun id hid => h id (hid ▸ List.mem_cons_self)),
        ih fun id hid => h id (List.mem_cons_of_mem _ hid)]
      rfl
  rw [create, hmap]
  rfl

/-- Where memory names an entry the slot does. -/
theorem Fits.shared_eq {m : Memory} {slots : List Slot} (hm : m.Fits slots) {slot : Nat}
    (hslot : slot < slots.length) {id : SharedId} (hid : m.slots[slot]? = some (.shared id)) :
    slots[slot]? = some (.shared id) := by
  have hget := List.getElem?_eq_getElem hslot
  cases hhome : slots[slot] with
  | «local» ty =>
    obtain ⟨c, hc, -⟩ := hm.own slot ty (hhome ▸ hget)
    cases hc.symm.trans hid
  | shared other =>
    cases (hm.shared slot other (hhome ▸ hget)).symm.trans hid
    exact hhome ▸ hget

/-- A store leaves memory that fits. -/
theorem fits_store {m : Memory} {slots : List Slot} (hm : m.Fits slots) (t : SharedTable)
    (slot : Nat) (v : Value) (path : List Int32) : (m.store t slot v path).2.1.Fits slots := by
  unfold store
  split
  · next cell hcell =>
    refine ⟨fun n ty hn => ?_, fun n id hn => ?_⟩
    · obtain ⟨c, hc, hconf⟩ := hm.own n ty hn
      by_cases hslot : slot = n
      · subst hslot
        rw [hcell] at hc
        cases hc
        refine ⟨(cell.set v path).2, ?_, Cell.conforms_set path v hconf⟩
        obtain ⟨hlt, -⟩ := List.getElem?_eq_some_iff.1 hcell
        simp [hlt]
      · exact ⟨c, by simp [hslot, hc], hconf⟩
    · have hs := hm.shared n id hn
      have hslot : slot ≠ n := by
        rintro rfl
        rw [hcell] at hs
        cases hs
      simp [hslot, hs]
  · split <;> exact hm
  · exact hm

/-- A store adds no slot. -/
theorem length_store (m : Memory) (t : SharedTable) (slot : Nat) (v : Value) (path : List Int32) :
    (m.store t slot v path).2.1.slots.length = m.slots.length := by
  unfold store
  split
  · exact List.length_set
  · split <;> rfl
  · rfl

/-- In the table a store changes nothing but the contents of a cell. -/
theorem refilled_store (m : Memory) {t : SharedTable} (ht : t.Sorted) (slot : Nat) (v : Value)
    (path : List Int32) : t.Refilled (m.store t slot v path).2.2 := by
  unfold store
  split
  · exact .refl t
  · split
    · next h => exact SharedTable.refilled_store? ht h
    · exact .refl t
  · exact .refl t

/-- A store to the entry that a slot names changes nothing else in the table. -/
theorem follows_store {m : Memory} {slots : List Slot} {t : SharedTable} {writers : String → Prop}
    (hm : m.Fits slots) {slot : Nat} (hslot : slot < slots.length)
    (hw : ∀ id, slots[slot]? = some (.shared id) → ∀ e ∈ t.entries, e.id = id → writers e.owner)
    (v : Value) (path : List Int32) : t.Follows (m.store t slot v path).2.2 writers := by
  unfold store
  split
  · exact .refl t
  · next id hid =>
    split
    · next outcome t' h =>
      obtain ⟨e, he, hr⟩ := Option.map_eq_some_iff.1 h
      cases hr
      rw [SharedTable.modify_eq]
      refine SharedTable.follows_mapEntries (fun a => ?_) (fun a => ?_) (fun a => ?_)
        fun a ha hwriter => ?_
      · split <;> rfl
      · split <;> rfl
      · split <;> rfl
      · rw [if_neg fun heq => hwriter (hw id (hm.shared_eq hslot hid) a ha heq)]
    · exact .refl t
  · exact .refl t

/-- A store to a slot that does not name an entry leaves the entry alone. -/
theorem get?_store {m : Memory} {slots : List Slot} (hm : m.Fits slots) (t : SharedTable)
    {slot : Nat} (hslot : slot < slots.length) {id : SharedId}
    (hid : slots[slot]? ≠ some (.shared id)) (v : Value) (path : List Int32) :
    (m.store t slot v path).2.2.get? id = t.get? id := by
  unfold store
  split
  · rfl
  · next other hother =>
    split
    · next outcome t' h =>
      obtain ⟨e, -, hr⟩ := Option.map_eq_some_iff.1 h
      cases hr
      rw [SharedTable.modify_eq, SharedTable.get?_mapEntries (fun a => by split <;> rfl)]
      cases ha : t.get? id with
      | none => rfl
      | some a =>
        have haid : a.id ≠ other := by
          rintro rfl
          exact hid (SharedTable.id_of_get? ha ▸ hm.shared_eq hslot hother)
        rw [Option.map_some, if_neg haid]
    · rfl
  · rfl

theorem value?_store {m : Memory} {slots : List Slot} (hm : m.Fits slots) (t : SharedTable)
    {slot : Nat} (hslot : slot < slots.length) {id : SharedId}
    (hid : slots[slot]? ≠ some (.shared id)) (v : Value) (path : List Int32) :
    (m.store t slot v path).2.2.value? id = t.value? id := by
  unfold SharedTable.value?
  rw [get?_store hm t hslot hid]

/-- Tables that agree on the entry that a slot names agree on what a store there does. -/
theorem store_agree (m : Memory) {t t' : SharedTable} {slot : Nat}
    (h : ∀ id, m.slots[slot]? = some (.shared id) → t'.get? id = t.get? id) (v : Value)
    (path : List Int32) :
    (m.store t' slot v path).1 = (m.store t slot v path).1 ∧
      (m.store t' slot v path).2.1 = (m.store t slot v path).2.1 ∧
      ∀ id, t'.get? id = t.get? id →
        (m.store t' slot v path).2.2.get? id = (m.store t slot v path).2.2.get? id := by
  unfold store
  split
  · exact ⟨rfl, rfl, fun _ h => h⟩
  · next other hother =>
    unfold SharedTable.store?
    rw [h other hother]
    cases t.get? other with
    | none => exact ⟨rfl, rfl, fun _ h => h⟩
    | some e =>
      refine ⟨rfl, rfl, fun id hid => ?_⟩
      simp only [Option.map_some, SharedTable.modify_eq]
      rw [SharedTable.get?_mapEntries (fun a => by split <;> rfl),
        SharedTable.get?_mapEntries (fun a => by split <;> rfl), hid]
  · exact ⟨rfl, rfl, fun _ h => h⟩

/-- Only the entries matter for what is fetched. -/
theorem fetch_congr {t t' : SharedTable} (h : t'.entries = t.entries) (m : Memory) (slot : Nat) :
    m.fetch t' slot = m.fetch t slot := by
  unfold fetch SharedTable.value?
  simp only [SharedTable.get?_congr h]

/-- A variable has a value, of the type of its slot. -/
theorem fetch_spec {m : Memory} {slots : List Slot} {t : SharedTable} (hm : m.Fits slots)
    (ht : t.Sorted) (hs : t.Shaped) {n : Nat} {slot : Slot} (hn : slots[n]? = some slot) :
    (∀ ty, slot = .local ty → ∃ v, m.fetch t n = .ok v ∧ v.HasType ty) ∧
      ∀ id e, slot = .shared id → t.get? id = some e →
        m.fetch t n = .ok e.cell.value ∧ e.cell.value.HasType e.ty := by
  constructor
  · rintro ty rfl
    obtain ⟨c, hc, hconf⟩ := hm.own n ty hn
    exact ⟨c.value, by simp [fetch, hc], Cell.hasType_value c hconf⟩
  · rintro id e rfl he
    have hstorage := hm.shared n id hn
    refine ⟨by simp [fetch, hstorage, SharedTable.value?, he], ?_⟩
    exact Cell.hasType_value _ (hs e (ht.get?_eq_some.1 he).1)

end Memory

end VectorScript
