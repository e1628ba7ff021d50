import VectorScript.Store.Shared

/-!
# The shared table

Entries stand in the order of their ids, so an id stands for one entry and the newest entry of an
owner and a name is the one with the greatest id; that is the entry which the name stands for
(`Sorted`). A table grows by declarations (`Extends`): what it had stays, what comes is fresh and
nobody refers to it.

    (t.acquire ids).get? id = (t.get? id).map fun e => { e with refs := e.refs + ids.count id }
-/

namespace VectorScript

namespace SharedTable

/-! ## Order -/

/-- Ids increase along the entries and stay below the next one. -/
structure Ordered (t : SharedTable) : Prop where
  increasing : t.entries.Pairwise fun a b => a.id.index < b.id.index
  below : ∀ e ∈ t.entries, e.id.index < t.next

/-- Moreover, names stand for their newest entries. -/
structure Sorted (t : SharedTable) : Prop extends Ordered t where
  keyed : ∀ owner name, t.lookup owner name = (t.newest? owner name).map (·.id)

theorem sorted_empty : empty.Sorted := ⟨⟨.nil, fun _ h => nomatch h⟩, fun _ _ => rfl⟩

theorem Ordered.eq_of_id {t : SharedTable} (ht : t.Ordered) {a b : SharedEntry}
    (ha : a ∈ t.entries) (hb : b ∈ t.entries) (h : a.id = b.id) : a = b := by
  have hlt := ht.increasing
  generalize t.entries = l at ha hb hlt
  induction l with
  | nil => cases ha
  | cons e rest ih =>
    obtain ⟨he, hrest⟩ := List.pairwise_cons.1 hlt
    rcases List.mem_cons.1 ha with ha' | ha'
    · rcases List.mem_cons.1 hb with hb' | hb'
      · rw [ha', hb']
      · have := he b hb'
        rw [← h, ha'] at this
        omega
    · rcases List.mem_cons.1 hb with hb' | hb'
      · have := he a ha'
        rw [h, hb'] at this
        omega
      · exact ih ha' hb' hrest

/-- What is found by an id has it. -/
theorem id_of_get? {t : SharedTable} {id : SharedId} {e : SharedEntry} (h : t.get? id = some e) :
    e.id = id := by
  have := List.find?_some h
  simpa using this

/-- Looking an id up finds the entry that has it. -/
theorem Ordered.get?_eq_some {t : SharedTable} (ht : t.Ordered) {id : SharedId} {e : SharedEntry} :
    t.get? id = some e ↔ e ∈ t.entries ∧ e.id = id := by
  constructor
  · exact fun h => ⟨List.mem_of_find?_eq_some h, id_of_get? h⟩
  · rintro ⟨he, rfl⟩
    cases hf : t.get? e.id with
    | none =>
      have := List.find?_eq_none.1 hf e he
      simp at this
    | some b =>
      have hb := List.mem_of_find?_eq_some hf
      have hid : b.id = e.id := by
        have := List.find?_some hf
        simpa using this
      rw [ht.eq_of_id hb he hid]

theorem Ordered.get?_id {t : SharedTable} (ht : t.Ordered) {e : SharedEntry} (he : e ∈ t.entries) :
    t.get? e.id = some e := ht.get?_eq_some.2 ⟨he, rfl⟩

/-! ## The newest entry -/

theorem isFor_iff {e : SharedEntry} {owner name : String} :
    e.isFor owner name = true ↔ e.owner = owner ∧ e.name = name := by
  simp [SharedEntry.isFor]

/-- The entry belongs to the owner and the name, and none that does has a greater id. -/
structure IsNewest (t : SharedTable) (owner name : String) (e : SharedEntry) : Prop where
  mem : e ∈ t.entries
  owner_eq : e.owner = owner
  name_eq : e.name = name
  greatest : ∀ a ∈ t.entries, a.owner = owner → a.name = name → a.id.index ≤ e.id.index

/-- Whatever is looked up last to first and found has no greater id after it. -/
theorem Ordered.isNewest_of_newest? {t : SharedTable} (ht : t.Ordered) {owner name : String}
    {e : SharedEntry} (h : t.newest? owner name = some e) : t.IsNewest owner name e := by
  obtain ⟨hfor, after, before, hl, hafter⟩ := List.find?_eq_some_iff_append.1 h
  obtain ⟨ho, hn⟩ := isFor_iff.1 hfor
  have hmem : e ∈ t.entries := by
    rw [← List.mem_reverse, hl]
    simp
  refine ⟨hmem, ho, hn, fun a ha hao han => ?_⟩
  have hincreasing := List.pairwise_reverse.2 ht.increasing
  rw [hl, List.pairwise_append, List.pairwise_cons] at hincreasing
  rw [← List.mem_reverse, hl, List.mem_append, List.mem_cons] at ha
  rcases ha with ha | rfl | ha
  · have hnot := hafter a ha
    rw [isFor_iff.2 ⟨hao, han⟩] at hnot
    cases hnot
  · exact Nat.le_refl _
  · exact Nat.le_of_lt (hincreasing.2.1.1 a ha)

theorem Ordered.eq_of_isNewest {t : SharedTable} (ht : t.Ordered) {owner name : String}
    {a b : SharedEntry} (ha : t.IsNewest owner name a) (hb : t.IsNewest owner name b) : a = b := by
  have hle := ha.greatest b hb.mem hb.owner_eq hb.name_eq
  have hge := hb.greatest a ha.mem ha.owner_eq ha.name_eq
  exact ht.eq_of_id ha.mem hb.mem (congrArg SharedId.mk (Nat.le_antisymm hge hle))

theorem Ordered.newest?_eq_some {t : SharedTable} (ht : t.Ordered) {owner name : String}
    {e : SharedEntry} : t.newest? owner name = some e ↔ t.IsNewest owner name e := by
  refine ⟨ht.isNewest_of_newest?, fun h => ?_⟩
  cases hfound : t.newest? owner name with
  | none =>
    have hnot := List.find?_eq_none.1 hfound e (List.mem_reverse.2 h.mem)
    exact absurd (isFor_iff.2 ⟨h.owner_eq, h.name_eq⟩) hnot
  | some b => rw [ht.eq_of_isNewest (ht.isNewest_of_newest? hfound) h]

theorem newest?_eq_none {t : SharedTable} {owner name : String}
    (h : t.newest? owner name = none) : ∀ e ∈ t.entries, ¬(e.owner = owner ∧ e.name = name) := by
  intro e he hfor
  have := List.find?_eq_none.1 h e (List.mem_reverse.2 he)
  exact this (isFor_iff.2 hfor)

/-! ## Changes that keep ids -/

/-- Changes every entry. -/
def mapEntries (t : SharedTable) (f : SharedEntry → SharedEntry) : SharedTable :=
  { t with entries := t.entries.map f }

theorem mapEntries_mapEntries (t : SharedTable) (f g : SharedEntry → SharedEntry) :
    (t.mapEntries f).mapEntries g = t.mapEntries (g ∘ f) := by
  simp [mapEntries]

theorem get?_mapEntries {f : SharedEntry → SharedEntry} (hf : ∀ e, (f e).id = e.id)
    (t : SharedTable) (id : SharedId) : (t.mapEntries f).get? id = (t.get? id).map f := by
  simp only [get?, mapEntries, List.find?_map]
  congr 2
  funext e
  simp [hf e]

theorem newest?_mapEntries {f : SharedEntry → SharedEntry} (ho : ∀ e, (f e).owner = e.owner)
    (hn : ∀ e, (f e).name = e.name) (t : SharedTable) (owner name : String) :
    (t.mapEntries f).newest? owner name = (t.newest? owner name).map f := by
  simp only [newest?, mapEntries, ← List.map_reverse, List.find?_map]
  congr 2
  funext e
  simp [SharedEntry.isFor, ho e, hn e]

theorem Sorted.mapEntries {t : SharedTable} (ht : t.Sorted) {f : SharedEntry → SharedEntry}
    (hf : ∀ e, (f e).id = e.id) (ho : ∀ e, (f e).owner = e.owner)
    (hn : ∀ e, (f e).name = e.name) : (t.mapEntries f).Sorted := by
  refine ⟨⟨?_, fun e he => ?_⟩, fun owner name => ?_⟩
  · refine List.pairwise_map.2 (ht.increasing.imp fun {a b} h => ?_)
    rw [hf a, hf b]
    exact h
  · obtain ⟨a, ha, rfl⟩ := List.mem_map.1 he
    rw [hf a]
    exact ht.below a ha
  · rw [newest?_mapEntries ho hn, Option.map_map]
    have hid : (fun e : SharedEntry => e.id) ∘ f = fun e => e.id := funext hf
    rw [hid]
    exact ht.keyed owner name

theorem modify_eq (t : SharedTable) (id : SharedId) (f : SharedEntry → SharedEntry) :
    t.modify id f = t.mapEntries fun e => if e.id = id then f e else e := rfl

/-- Taking references adds to each entry as many as its id is listed. -/
theorem acquire_eq (t : SharedTable) (ids : List SharedId) :
    t.acquire ids = t.mapEntries fun e => { e with refs := e.refs + ids.count e.id } := by
  induction ids generalizing t with
  | nil => simp [acquire, mapEntries]
  | cons id rest ih =>
    show (t.modify id _).acquire rest = _
    rw [ih, modify_eq, mapEntries_mapEntries]
    congr 1
    funext e
    by_cases h : e.id = id
    · simp [h, Nat.add_assoc, Nat.add_comm 1]
    · simp [h, Ne.symm h]

theorem release_eq (t : SharedTable) (ids : List SharedId) :
    t.release ids = t.mapEntries fun e => { e with refs := e.refs - ids.count e.id } := by
  induction ids generalizing t with
  | nil => simp [release, mapEntries]
  | cons id rest ih =>
    show (t.modify id _).release rest = _
    rw [ih, modify_eq, mapEntries_mapEntries]
    congr 1
    funext e
    by_cases h : e.id = id
    · simp [h, Nat.sub_sub, Nat.add_comm 1]
    · simp [h, Ne.symm h]

/-- References taken and then given up. -/
theorem release_acquire (t : SharedTable) (ids old : List SharedId) :
    (t.acquire ids).release old = t.mapEntries fun e =>
      { e with refs := e.refs + ids.count e.id - old.count e.id } := by
  rw [acquire_eq, release_eq, mapEntries_mapEntries]
  rfl

/-! ## Keys -/

theorem lookup_setKey (t : SharedTable) (owner name : String) (id? : Option SharedId)
    (other x : String) : (t.setKey owner name id?).lookup other x =
      if (other, x) = (owner, name) then id? else t.lookup other x := by
  have hothers : (t.keys.filter fun k => k.1 ≠ (owner, name)).find? (fun k => k.1 = (other, x)) =
      if (other, x) = (owner, name) then none else t.keys.find? fun k => k.1 = (other, x) := by
    rw [List.find?_filter]
    split
    · next h =>
      refine List.find?_eq_none.2 fun k _ => ?_
      simp [h]
    · next h =>
      congr 1
      funext k
      by_cases hk : k.1 = (other, x)
      · simp [hk, h]
      · simp [hk]
  unfold lookup setKey
  cases id? with
  | none =>
    rw [hothers]
    split <;> rfl
  | some id =>
    rw [List.find?_cons]
    by_cases h : (other, x) = (owner, name)
    · simp [h]
    · rw [hothers]
      simp [h, Ne.symm h]

/-- What a name stands for is its newest entry. -/
theorem Sorted.current?_eq {t : SharedTable} (ht : t.Sorted) (owner name : String) :
    t.current? owner name = t.newest? owner name := by
  unfold current?
  rw [ht.keyed]
  cases h : t.newest? owner name with
  | none => rfl
  | some e => exact ht.get?_id (ht.newest?_eq_some.1 h).mem

theorem get?_congr {t t' : SharedTable} (h : t'.entries = t.entries) (id : SharedId) :
    t'.get? id = t.get? id := by
  unfold get?
  rw [h]

/-- What names stand for is settled by the entries. -/
theorem Sorted.lookup_congr {t t' : SharedTable} (ht : t.Sorted) (ht' : t'.Sorted)
    (h : t'.entries = t.entries) (owner name : String) :
    t'.lookup owner name = t.lookup owner name := by
  rw [ht.keyed, ht'.keyed]
  unfold newest?
  rw [h]

/-! ## Sweeping -/

theorem remove_entries (t : SharedTable) (e : SharedEntry) :
    (t.remove e).entries = t.entries.filter fun a => a.id ≠ e.id := by
  unfold remove
  dsimp only
  split <;> rfl

theorem remove_next (t : SharedTable) (e : SharedEntry) : (t.remove e).next = t.next := by
  unfold remove
  dsimp only
  split <;> rfl

theorem Ordered.remove {t : SharedTable} (ht : t.Ordered) (e : SharedEntry) :
    (t.remove e).Ordered := by
  refine ⟨?_, fun a ha => ?_⟩
  · rw [remove_entries]
    exact ht.increasing.filter _
  · rw [remove_entries] at ha
    rw [remove_next]
    exact ht.below a (List.mem_filter.1 ha).1

/-- A name keeps its newest entry when another entry is removed. -/
theorem Ordered.newest?_remove {t : SharedTable} (ht : t.Ordered) {e : SharedEntry}
    {owner name : String} (h : ∀ a, t.newest? owner name = some a → a.id ≠ e.id) :
    (t.remove e).newest? owner name = t.newest? owner name := by
  cases hnew : t.newest? owner name with
  | none =>
    refine List.find?_eq_none.2 fun a ha => ?_
    rw [List.mem_reverse, remove_entries] at ha
    rw [isFor_iff]
    exact newest?_eq_none hnew a (List.mem_filter.1 ha).1
  | some a =>
    obtain ⟨hm, ho, hn, hg⟩ := ht.newest?_eq_some.1 hnew
    refine (ht.remove e).newest?_eq_some.2 ⟨?_, ho, hn, fun b hb => hg b ?_⟩
    · rw [remove_entries]
      exact List.mem_filter.2 ⟨hm, decide_eq_true (h a hnew)⟩
    · rw [remove_entries] at hb
      exact (List.mem_filter.1 hb).1

/-- Removing an entry leaves the names standing for their newest entries. -/
theorem Sorted.remove {t : SharedTable} (ht : t.Sorted) {e : SharedEntry} (he : e ∈ t.entries) :
    (t.remove e).Sorted := by
  refine ⟨ht.toOrdered.remove e, fun owner name => ?_⟩
  have hkey : ∀ a, t.newest? owner name = some a → a.id = e.id →
      (owner, name) = (e.owner, e.name) ∧ t.lookup e.owner e.name = some e.id := by
    intro a ha hid
    obtain ⟨hm, rfl, rfl, -⟩ := ht.newest?_eq_some.1 ha
    obtain rfl := ht.eq_of_id hm he hid
    exact ⟨rfl, by rw [ht.keyed, ha]; rfl⟩
  by_cases hstood : t.lookup e.owner e.name = some e.id
  · by_cases hname : (owner, name) = (e.owner, e.name)
    · -- the name stood for the entry, so its key is set anew
      cases hname
      unfold SharedTable.remove
      rw [if_pos hstood, lookup_setKey, if_pos rfl]
      rfl
    · rw [ht.toOrdered.newest?_remove fun a ha hid => hname (hkey a ha hid).1]
      unfold SharedTable.remove
      rw [if_pos hstood, lookup_setKey, if_neg hname]
      exact ht.keyed owner name
  · rw [ht.toOrdered.newest?_remove fun a ha hid => hstood (hkey a ha hid).2]
    unfold SharedTable.remove
    rw [if_neg hstood]
    exact ht.keyed owner name

/-- Removing entries one by one. -/
theorem Sorted.removeAll {t : SharedTable} (ht : t.Sorted) {es : List SharedEntry}
    (hes : ∀ e ∈ es, e ∈ t.entries) (hd : es.Pairwise fun a b => a.id ≠ b.id) :
    (es.foldl SharedTable.remove t).Sorted ∧
      (es.foldl SharedTable.remove t).entries = t.entries.filter (fun a => ∀ e ∈ es, a.id ≠ e.id) ∧
      (es.foldl SharedTable.remove t).next = t.next := by
  induction es generalizing t with
  | nil =>
    refine ⟨ht, (List.filter_eq_self.2 fun a _ => ?_).symm, rfl⟩
    exact decide_eq_true fun e he => nomatch he
  | cons e es ih =>
    obtain ⟨he, hes⟩ := List.forall_mem_cons.1 hes
    obtain ⟨hne, hd⟩ := List.pairwise_cons.1 hd
    have hleft : ∀ a ∈ es, a ∈ (t.remove e).entries := by
      intro a ha
      rw [remove_entries]
      exact List.mem_filter.2 ⟨hes a ha, decide_eq_true (hne a ha).symm⟩
    obtain ⟨hsorted, hentries, hnext⟩ := ih (ht.remove he) hleft hd
    refine ⟨hsorted, ?_, hnext.trans (remove_next t e)⟩
    rw [List.foldl_cons, hentries, remove_entries, List.filter_filter]
    refine List.filter_congr fun a _ => ?_
    simp only [List.forall_mem_cons, ne_eq, Bool.decide_and, Bool.and_comm]

/-- A sweep removes just the entries that nobody refers to. -/
theorem Sorted.sweep_spec {t : SharedTable} (ht : t.Sorted) :
    t.sweep.Sorted ∧ t.sweep.entries = t.entries.filter (fun e => e.refs ≠ 0) ∧
      t.sweep.next = t.next := by
  have hsub : ∀ e ∈ t.dead, e ∈ t.entries := fun e he => (List.mem_filter.1 he).1
  have hdistinct : t.dead.Pairwise fun a b => a.id ≠ b.id :=
    (ht.increasing.filter _).imp fun {a b} h hid => by
      rw [hid] at h
      exact Nat.lt_irrefl _ h
  obtain ⟨hsorted, hentries, hnext⟩ := ht.removeAll hsub hdistinct
  refine ⟨hsorted, hentries.trans (List.filter_congr fun e he => ?_), hnext⟩
  refine decide_eq_decide.2 ⟨fun h hr => ?_, fun h a ha hid => ?_⟩
  · exact h e (List.mem_filter.2 ⟨he, decide_eq_true hr⟩) rfl
  · obtain ⟨hm, hr⟩ := List.mem_filter.1 ha
    rw [ht.eq_of_id he hm hid] at h
    exact h (of_decide_eq_true hr)

theorem Sorted.mem_sweep {t : SharedTable} (ht : t.Sorted) {e : SharedEntry} :
    e ∈ t.sweep.entries ↔ e ∈ t.entries ∧ e.refs ≠ 0 := by
  rw [ht.sweep_spec.2.1, List.mem_filter, decide_eq_true_iff]

theorem Sorted.sweep {t : SharedTable} (ht : t.Sorted) : t.sweep.Sorted := ht.sweep_spec.1

/-- An entry that somebody refers to outlives a sweep. -/
theorem Sorted.get?_sweep {t : SharedTable} (ht : t.Sorted) {id : SharedId} {e : SharedEntry}
    (h : t.get? id = some e) (hr : e.refs ≠ 0) : t.sweep.get? id = some e := by
  obtain ⟨he, hid⟩ := ht.get?_eq_some.1 h
  exact ht.sweep.get?_eq_some.2 ⟨ht.mem_sweep.2 ⟨he, hr⟩, hid⟩

theorem Sorted.newest?_sweep {t : SharedTable} (ht : t.Sorted) {owner name : String}
    {e : SharedEntry} (h : t.newest? owner name = some e) (hr : e.refs ≠ 0) :
    t.sweep.newest? owner name = some e := by
  obtain ⟨hm, ho, hn, hg⟩ := ht.newest?_eq_some.1 h
  exact ht.sweep.newest?_eq_some.2
    ⟨ht.mem_sweep.2 ⟨hm, hr⟩, ho, hn, fun a ha => hg a (ht.mem_sweep.1 ha).1⟩

/-! ## Growth -/

/-- The owner has declared entries that nobody refers to yet; nothing else has changed. -/
structure Extends (owner : String) (t t' : SharedTable) : Prop where
  entries : ∃ fresh, t'.entries = t.entries ++ fresh ∧
    ∀ e ∈ fresh, e.owner = owner ∧ e.refs = 0 ∧ e.cell = .create e.ty ∧ t.next ≤ e.id.index
  next_le : t.next ≤ t'.next
  sorted : t'.Sorted

theorem Extends.refl {t : SharedTable} (ht : t.Sorted) (owner : String) : Extends owner t t :=
  ⟨⟨[], by simp⟩, Nat.le_refl _, ht⟩

theorem Extends.trans {owner : String} {t t' t'' : SharedTable} (h : Extends owner t t')
    (h' : Extends owner t' t'') : Extends owner t t'' := by
  obtain ⟨fresh, he, hf⟩ := h.entries
  obtain ⟨fresh', he', hf'⟩ := h'.entries
  refine ⟨⟨fresh ++ fresh', ?_, ?_⟩, Nat.le_trans h.next_le h'.next_le, h'.sorted⟩
  · rw [he', he, List.append_assoc]
  · intro e hmem
    rcases List.mem_append.1 hmem with hmem | hmem
    · exact hf e hmem
    · obtain ⟨h1, h2, h3, h4⟩ := hf' e hmem
      exact ⟨h1, h2, h3, Nat.le_trans h.next_le h4⟩

theorem Extends.mem {owner : String} {t t' : SharedTable} (h : Extends owner t t')
    {e : SharedEntry} (he : e ∈ t.entries) : e ∈ t'.entries := by
  obtain ⟨fresh, hl, -⟩ := h.entries
  rw [hl]
  exact List.mem_append_left _ he

/-- What was there is still there. -/
theorem Extends.get? {owner : String} {t t' : SharedTable} (ht : t.Sorted)
    (h : Extends owner t t') {id : SharedId} {e : SharedEntry} (he : t.get? id = some e) :
    t'.get? id = some e := by
  obtain ⟨hm, hid⟩ := ht.get?_eq_some.1 he
  exact h.sorted.get?_eq_some.2 ⟨h.mem hm, hid⟩

/-- What has been declared in vain is swept away. -/
theorem Extends.entries_sweep {owner : String} {t t' : SharedTable} (h : Extends owner t t')
    (ht : ∀ e ∈ t.entries, e.refs ≠ 0) : t'.sweep.entries = t.entries := by
  obtain ⟨fresh, hl, hf⟩ := h.entries
  rw [h.sorted.sweep_spec.2.1, hl, List.filter_append,
    List.filter_eq_self.2 fun e he => by simpa using ht e he,
    List.filter_eq_nil_iff.2 fun e he => by simpa using (hf e he).2.1, List.append_nil]

/-- The newest entries of other owners stay the newest. -/
theorem Extends.newest? {owner : String} {t t' : SharedTable} (ht : t.Sorted)
    (h : Extends owner t t') {other name : String} (hne : other ≠ owner) {e : SharedEntry}
    (he : t.newest? other name = some e) : t'.newest? other name = some e := by
  obtain ⟨hm, ho, hn, hg⟩ := ht.newest?_eq_some.1 he
  refine h.sorted.newest?_eq_some.2 ⟨h.mem hm, ho, hn, fun a ha hao han => ?_⟩
  obtain ⟨fresh, hl, hf⟩ := h.entries
  rw [hl] at ha
  rcases List.mem_append.1 ha with ha | ha
  · exact hg a ha hao han
  · exact absurd (hao.symm.trans (hf a ha).1) hne

/-! ## Declarations -/

/-- Only the declared name has another newest entry. -/
theorem newest?_append (t : SharedTable) (owner name : String) (ty : Ty) (other x : String) :
    ((t.append owner name ty).2.newest? other x).map (·.id) =
      if (other, x) = (owner, name) then some (t.append owner name ty).1
      else (t.newest? other x).map (·.id) := by
  unfold newest? append setKey
  dsimp only
  rw [List.reverse_append, List.reverse_singleton, List.singleton_append, List.find?_cons]
  by_cases h : (other, x) = (owner, name)
  · cases h
    simp [SharedEntry.isFor]
  · have hfor : (decide (owner = other) && decide (name = x)) = false := by
      rw [← Bool.not_eq_true, Bool.and_eq_true, decide_eq_true_iff, decide_eq_true_iff]
      rintro ⟨rfl, rfl⟩
      exact h rfl
    simp only [SharedEntry.isFor, hfor, if_neg h]

theorem sorted_append {t : SharedTable} (ht : t.Sorted) (owner name : String) (ty : Ty) :
    (t.append owner name ty).2.Sorted := by
  refine ⟨⟨?_, fun e he => ?_⟩, fun other x => ?_⟩
  · refine List.pairwise_append.2 ⟨ht.increasing, List.pairwise_singleton .., fun a ha b hb => ?_⟩
    obtain rfl := List.mem_singleton.1 hb
    exact ht.below a ha
  · rcases List.mem_append.1 he with he | he
    · exact Nat.lt_succ_of_lt (ht.below e he)
    · obtain rfl := List.mem_singleton.1 he
      exact Nat.lt_succ_self _
  · rw [newest?_append]
    unfold append
    dsimp only
    rw [lookup_setKey]
    split
    · rfl
    · exact ht.keyed other x

/-- A declaration gives the entry that the name stands for if that has the declared type, and adds one
otherwise. -/
theorem declare_cases (t : SharedTable) (owner name : String) (ty : Ty) :
    (∃ e, t.current? owner name = some e ∧ e.ty = ty ∧ t.declare owner name ty = (e.id, t)) ∨
      (∀ e, t.current? owner name = some e → e.ty ≠ ty) ∧
        t.declare owner name ty = t.append owner name ty := by
  unfold declare
  cases h : t.current? owner name with
  | none => exact .inr ⟨fun e he => (nomatch he), rfl⟩
  | some e =>
    by_cases hty : e.ty = ty
    · exact .inl ⟨e, rfl, hty, if_pos hty⟩
    · refine .inr ⟨fun a ha => ?_, if_neg hty⟩
      cases ha
      exact hty

/-- The new entry is the newest one of its name, and of other names the newest entries stay. -/
theorem append_spec {t : SharedTable} (ht : t.Sorted) (owner name : String) (ty : Ty) :
    Extends owner t (t.append owner name ty).2 ∧
      (∃ e, (t.append owner name ty).2.newest? owner name = some e ∧
        e.id = (t.append owner name ty).1 ∧ e.ty = ty) ∧
      ∀ other e, other ≠ name → t.newest? owner other = some e →
        (t.append owner name ty).2.newest? owner other = some e := by
  have hs := sorted_append ht owner name ty
  refine ⟨⟨⟨_, rfl, ?_⟩, Nat.le_succ _, hs⟩, ⟨_, hs.newest?_eq_some.2
    ⟨List.mem_append_right _ List.mem_cons_self, rfl, rfl, ?_⟩, rfl, rfl⟩, ?_⟩
  · intro e he
    obtain rfl := List.mem_singleton.1 he
    exact ⟨rfl, rfl, rfl, Nat.le_refl _⟩
  · intro a ha _ _
    rcases List.mem_append.1 ha with ha | ha
    · exact Nat.le_of_lt (ht.below a ha)
    · obtain rfl := List.mem_singleton.1 ha
      exact Nat.le_refl _
  · intro other e hne he
    obtain ⟨hm, ho, hn, hg⟩ := ht.newest?_eq_some.1 he
    refine hs.newest?_eq_some.2
      ⟨List.mem_append_left _ hm, ho, hn, fun a ha hao han => ?_⟩
    rcases List.mem_append.1 ha with ha | ha
    · exact hg a ha hao han
    · obtain rfl := List.mem_singleton.1 ha
      exact absurd han.symm hne

/-- A declaration gives the newest entry of its owner and name, with the declared type. The newest
entries of other names stay. -/
theorem declare_spec {t : SharedTable} (ht : t.Sorted) (owner name : String) (ty : Ty) :
    Extends owner t (t.declare owner name ty).2 ∧
      (∃ e, (t.declare owner name ty).2.newest? owner name = some e ∧
        e.id = (t.declare owner name ty).1 ∧ e.ty = ty) ∧
      ∀ other e, other ≠ name → t.newest? owner other = some e →
        (t.declare owner name ty).2.newest? owner other = some e := by
  rcases t.declare_cases owner name ty with ⟨e, he, hty, heq⟩ | ⟨-, heq⟩ <;> rw [heq]
  · rw [ht.current?_eq] at he
    exact ⟨.refl ht owner, ⟨e, he, rfl, hty⟩, fun _ _ _ h => h⟩
  · exact append_spec ht owner name ty

/-- A declaration adds at most the entry that it gives. -/
theorem declare_entries (t : SharedTable) (owner name : String) (ty : Ty) :
    ∀ e ∈ (t.declare owner name ty).2.entries,
      e.id = (t.declare owner name ty).1 ∨ e ∈ t.entries := by
  intro e he
  rcases t.declare_cases owner name ty with ⟨a, -, -, heq⟩ | ⟨-, heq⟩ <;> rw [heq] at he ⊢
  · exact .inr he
  · rcases List.mem_append.1 he with he | he
    · exact .inr he
    · obtain rfl := List.mem_singleton.1 he
      exact .inl rfl

/-- A declaration that gives an old entry changes nothing. -/
theorem declare_old {t : SharedTable} (ht : t.Sorted) {owner name : String} {ty : Ty}
    (h : ∃ e ∈ t.entries, e.id = (t.declare owner name ty).1) :
    (t.declare owner name ty).2 = t := by
  rcases t.declare_cases owner name ty with ⟨a, -, -, heq⟩ | ⟨-, heq⟩
  · rw [heq]
  · -- the id of a new entry is above those that there were
    obtain ⟨e, he, hid⟩ := h
    have hlt := ht.below e he
    rw [hid, heq] at hlt
    exact absurd hlt (Nat.lt_irrefl _)

end SharedTable

end VectorScript
