import VectorScript.Proofs.Workspace.Compile
import VectorScript.Workspace.Query

/-!
# The host keeps a workspace in order

A new workspace is in order, and stays so when the host registers functions, constants and shared
variables or sets the value of one. A shared variable of the host that gets another type moves to a
new entry; whoever refers to the old one is stale then.

    w.Sound → (w.addShared name ty).2.Sound                                      (sound_addShared)
-/

namespace VectorScript

/-! ## Names of the host -/

namespace Globals

variable {g : Globals}

theorem ok_empty : empty.Ok :=
  ⟨(fun _ _ h => nomatch h), (fun _ _ _ h => nomatch h)⟩

/-- A name for a type or a constant hides at most a function. -/
theorem Ok.insert (hg : g.Ok) {name : String} {symbol : Symbol} (hv : ∀ v, symbol ≠ .var v)
    (hf : ∀ index f, symbol ≠ .function index f) :
    { g with symbols := g.symbols.insert name symbol }.Ok := by
  constructor
  · intro x v h
    rcases NameMap.eq_or_get?_of_insert h with ⟨-, h⟩ | h
    · exact hv v h.symm
    · exact hg.unplaced x v h
  · intro x index f h
    rcases NameMap.eq_or_get?_of_insert h with ⟨-, h⟩ | h
    · exact absurd h.symm (hf index f)
    · exact hg.functions x index f h

theorem Ok.addTypedef (hg : g.Ok) (name : String) (ty : Ty) : (g.addTypedef name ty).Ok :=
  hg.insert (fun _ h => nomatch h) fun _ _ h => nomatch h

theorem Ok.addConstant (hg : g.Ok) (name : String) (v : Value) : (g.addConstant name v).Ok :=
  hg.insert (fun _ h => nomatch h) fun _ _ h => nomatch h

theorem Ok.addShared (hg : g.Ok) (name : String) (id : SharedId) : (g.addShared name id).Ok :=
  ⟨hg.unplaced, hg.functions⟩

/-- A function keeps its index; no other name has it. -/
theorem Ok.addFunction (hg : g.Ok) (f : HostFunction) : (g.addFunction f).Ok := by
  unfold Globals.addFunction
  split
  · next index old hold =>
    obtain ⟨hindex, hname⟩ := hg.functions f.name index old hold
    obtain ⟨hlt, -⟩ := List.getElem?_eq_some_iff.1 hindex
    constructor
    · intro x v h
      rcases NameMap.eq_or_get?_of_insert h with ⟨-, h⟩ | h
      · cases h
      · exact hg.unplaced x v h
    · intro x i k h
      by_cases hx : x = f.name
      · rw [hx, NameMap.get?_insert_self] at h
        cases h
        exact ⟨by simp [hlt], hx.symm⟩
      · rw [NameMap.get?_insert, if_neg hx] at h
        obtain ⟨hi, hk⟩ := hg.functions x i k h
        -- Another function of this index would have this name too.
        have hne : index ≠ i := by
          rintro rfl
          rw [hindex] at hi
          cases hi
          exact hx (hk.symm.trans hname)
        exact ⟨by simp [hne, hi], hk⟩
  · constructor
    · intro x v h
      rcases NameMap.eq_or_get?_of_insert h with ⟨-, h⟩ | h
      · cases h
      · exact hg.unplaced x v h
    · intro x i k h
      rcases NameMap.eq_or_get?_of_insert h with ⟨hx, h⟩ | h
      · cases h
        exact ⟨by simp, hx.symm⟩
      · obtain ⟨hi, hk⟩ := hg.functions x i k h
        obtain ⟨hlt, -⟩ := List.getElem?_eq_some_iff.1 hi
        exact ⟨(List.getElem?_append_left hlt).trans hi, hk⟩

theorem shared_addFunction (g : Globals) (f : HostFunction) :
    (g.addFunction f).shared = g.shared := by
  unfold Globals.addFunction
  split <;> rfl

theorem mem_functions_addFunction {f f' : HostFunction} (h : f' ∈ (g.addFunction f).functions) :
    f' = f ∨ f' ∈ g.functions := by
  unfold Globals.addFunction at h
  split at h
  · exact (List.mem_or_eq_of_mem_set h).symm
  · rcases List.mem_append.1 h with h | h
    · exact .inr h
    · exact .inl (List.mem_singleton.1 h)

/-- What holds of no names and is kept by types, constants and the functions of the library holds of
the names that every workspace starts with. -/
theorem standard_induction {P : Globals → Prop} (hempty : P empty)
    (htypedef : ∀ g name ty, P g → P (g.addTypedef name ty))
    (hconstant : ∀ g name v, P g → P (g.addConstant name v))
    (hfunction : ∀ f ∈ Library.functions, ∀ g, P g → P (g.addFunction f)) :
    P Workspace.standardGlobals := by
  unfold Workspace.standardGlobals
  refine List.foldlRecOn _ _ ?_ fun g hg f hf => hfunction f hf g hg
  refine List.foldlRecOn _ _ ?_ fun g hg p _ => hconstant g p.1 p.2 hg
  exact List.foldlRecOn _ _ hempty fun g hg p _ => htypedef g p.1 p.2 hg

/-- Every workspace starts with functions of the library only. -/
theorem functions_standard : ∀ f ∈ Workspace.standardGlobals.functions, f ∈ Library.functions := by
  refine standard_induction (P := fun g => ∀ f ∈ g.functions, f ∈ Library.functions)
    (fun _ h => nomatch h) (fun _ _ _ h => h) (fun _ _ _ h => h) fun f hf g hg f' hf' => ?_
  rcases mem_functions_addFunction hf' with rfl | h
  · exact hf
  · exact hg f' h

/-- The names that every workspace starts with are in order, and share nothing. -/
theorem ok_standard : Workspace.standardGlobals.Ok ∧ Workspace.standardGlobals.shared = .empty :=
  standard_induction (P := fun g => g.Ok ∧ g.shared = .empty) ⟨ok_empty, rfl⟩
    (fun _ name ty hg => ⟨hg.1.addTypedef name ty, hg.2⟩)
    (fun _ name v hg => ⟨hg.1.addConstant name v, hg.2⟩)
    fun f _ g hg => ⟨hg.1.addFunction f, (shared_addFunction g f).trans hg.2⟩

end Globals

namespace Workspace

variable {w : Workspace}

/-! ## Nothing shared changes -/

theorem sound_new : new.Sound where
  sorted := SharedTable.sorted_empty
  shaped _ h := nomatch h
  refs _ h := nomatch h
  globals := Globals.ok_standard.1
  shared x id hx := by
    change Workspace.standardGlobals.shared.get? x = some id at hx
    rw [Globals.ok_standard.2] at hx
    cases hx
  linked _ _ _ h := nomatch h
  manned _ _ _ h := nomatch h
  current _ _ _ h := nomatch h
  held _ h := nomatch h

/-- The host may change its functions, types and constants. -/
theorem Sound.globals_congr (hw : w.Sound) {g : Globals} (hg : g.Ok)
    (h : ∀ x, g.shared.get? x = w.globals.shared.get? x) : { w with globals := g }.Sound where
  sorted := hw.sorted
  shaped := hw.shaped
  refs e he := by
    rw [hw.refs e he]
    unfold holders
    have hiff : e.id ∈ g.shared.values ↔ e.id ∈ w.globals.shared.values := by
      rw [mem_values, mem_values]
      simp only [h]
    simp [hiff]
  globals := hg
  shared x id hx := hw.shared x id ((h x).symm.trans hx)
  linked := hw.linked
  manned := hw.manned
  current name s i hs hi hst x v hx himp := by
    obtain ⟨id, hid, hsource⟩ := hw.current name s i hs hi hst x v hx himp
    exact ⟨id, hid, hsource.imp_left fun hget => (h x).trans hget⟩
  held := hw.held

theorem Sound.addFunction (hw : w.Sound) (f : HostFunction) : (w.addFunction f).Sound := by
  refine hw.globals_congr (hw.globals.addFunction f) fun x => ?_
  rw [Globals.shared_addFunction]

theorem Sound.addConstant (hw : w.Sound) (name : String) (v : Value) :
    (w.addConstant name v).Sound :=
  hw.globals_congr (hw.globals.addConstant name v) fun _ => rfl

/-! ## The contents of cells -/

/-- New contents of cells leave everything in order. -/
theorem Sound.refilled (hw : w.Sound) {t : SharedTable} (h : w.table.Refilled t) :
    { w with table := t }.Sound := by
  have hshaped := h.shaped hw.shaped
  obtain ⟨f, rfl⟩ := h.entries
  refine ⟨⟨hw.sorted.mapEntries (fun _ => rfl) (fun _ => rfl) fun _ => rfl, hshaped, fun e' he' => ?_, hw.globals,
    fun x id hx => ?_, fun name s i hs hi => ?_, hw.manned, hw.current⟩, fun e' he' => ?_⟩
  · obtain ⟨e, he, rfl⟩ := List.mem_map.1 he'
    exact hw.refs e he
  · obtain ⟨e, he, hrest⟩ := hw.shared x id hx
    refine ⟨{ e with cell := f e }, (SharedTable.get?_mapEntries ?_ w.table id).trans ?_, hrest⟩
    · exact fun _ => rfl
    · rw [he]
      rfl
  · exact (hw.linked name s i hs hi).mapEntries (fun _ => rfl) (fun _ => rfl) (fun _ => rfl)
      fun _ => rfl
  · obtain ⟨e, he, rfl⟩ := List.mem_map.1 he'
    exact hw.held e he

/-- A store in the table, as a run makes them and as the host does. -/
theorem Sound.keeps_refilled (hw : w.Sound) {t : SharedTable} (h : w.table.Refilled t)
    (kept : String → Prop) : w.Keeps { w with table := t } kept :=
  ⟨hw.refilled h, h.follows, rfl, rfl, fun _ _ => rfl⟩

/-- Storing for the host changes a cell of the table, or nothing. -/
theorem setShared_snd (w : Workspace) (owner name : String) (v : Value) :
    (w.setShared owner name v).2 = w ∨ ∃ e outcome t, w.table.current? owner name = some e ∧
      w.table.store? e.id v [] = some (outcome, t) ∧
      (w.setShared owner name v).2 = { w with table := t } := by
  unfold setShared
  split
  · exact .inl rfl
  · next e he =>
    split
    · exact .inl rfl
    · split
      · next outcome t ht => exact .inr ⟨e, outcome, t, he, ht, rfl⟩
      · exact .inl rfl

theorem scripts_setShared (w : Workspace) (owner name : String) (v : Value) :
    (w.setShared owner name v).2.scripts = w.scripts := by
  rcases w.setShared_snd owner name v with heq | ⟨_, _, _, -, -, heq⟩ <;> rw [heq]

theorem Sound.keeps_setShared (hw : w.Sound) (owner name : String) (v : Value)
    (kept : String → Prop) : w.Keeps (w.setShared owner name v).2 kept := by
  rcases w.setShared_snd owner name v with heq | ⟨e, outcome, t, -, ht, heq⟩
  · rw [heq]
    exact .refl hw _
  · rw [heq]
    exact hw.keeps_refilled (SharedTable.refilled_store? hw.sorted ht) _

/-! ## Shared variables of the host -/

/-- An entry that has no name but its own is among those with a name if its own name stands for
it. -/
theorem mem_values_iff {m : NameMap SharedId} {e : SharedEntry}
    (h : ∀ x, m.get? x = some e.id → x = e.name) :
    e.id ∈ m.values ↔ m.get? e.name = some e.id := by
  rw [mem_values]
  constructor
  · rintro ⟨x, hx⟩
    rw [← h x hx, hx]
  · exact fun hget => ⟨e.name, hget⟩

/-- The counts when the host holds another entry under a name than before. -/
theorem Sound.refs_replaced (hw : w.Sound) {name : String} {ty : Ty} {e : SharedEntry}
    (he : e ∈ (w.table.declare hostOwner name ty).2.entries)
    (hne : w.globals.shared.get? name ≠ some (w.table.declare hostOwner name ty).1) :
    e.refs + [(w.table.declare hostOwner name ty).1].count e.id -
        (w.globals.shared.get? name).toList.count e.id =
      w.scripts.count (·.refersTo e.id) +
        if (w.globals.shared.insert name (w.table.declare hostOwner name ty).1).values.contains e.id
        then 1 else 0 := by
  obtain ⟨hext, ⟨a, ha, hid, -⟩, -⟩ := SharedTable.declare_spec hw.sorted hostOwner name ty
  have hrefs := hw.refs_extends hext e he
  unfold holders at hrefs
  generalize (w.table.declare hostOwner name ty).1 = id at *
  generalize (w.table.declare hostOwner name ty).2 = t at *
  -- both the new entry and those that the host holds are named as the host names them
  have hnamed : e.id = id → name = e.name := by
    intro h
    obtain ⟨hm, -, hn, -⟩ := hext.sorted.newest?_eq_some.1 ha
    rw [hext.sorted.eq_of_id he hm (h.trans hid.symm), hn]
  have hold : ∀ x, w.globals.shared.get? x = some e.id → x = e.name := by
    intro x hx
    obtain ⟨b, hb, -, hname⟩ := hw.shared x e.id hx
    obtain ⟨hm, hbid⟩ := hext.sorted.get?_eq_some.1 (hext.get? hw.sorted hb)
    rw [← hname, hext.sorted.eq_of_id hm he hbid]
  have hnew : ∀ x, (w.globals.shared.insert name id).get? x = some e.id → x = e.name := by
    intro x hx
    rcases NameMap.eq_or_get?_of_insert hx with ⟨rfl, h⟩ | h
    · exact hnamed h
    · exact hold x h
  simp only [List.contains_iff_mem, mem_values_iff hold] at hrefs
  simp only [List.contains_iff_mem, mem_values_iff hnew, NameMap.get?_insert]
  have hcount : (w.globals.shared.get? name).toList.count e.id =
      if w.globals.shared.get? name = some e.id then 1 else 0 := by
    cases w.globals.shared.get? name with
    | none => rfl
    | some old => simp [List.count_singleton]
  rw [hcount, List.count_singleton, hrefs]
  by_cases hname : e.name = name
  · rw [hname, if_pos rfl]
    by_cases hid : id = e.id
    · rw [hid] at hne
      simp [hid, hne]
    · simp [hid]
  · have hid : id ≠ e.id := fun h => hname (hnamed h.symm).symm
    have hprevious : w.globals.shared.get? name ≠ some e.id := fun h => hname (hold name h).symm
    simp [hid, hname, hprevious]

/-- Everything is in order with the new entry, though nobody may hold the old one any more. -/
theorem Sound.counted_replaced (hw : w.Sound) {name : String} {ty : Ty} {b : Scripts}
    (hne : w.globals.shared.get? name ≠ some (w.table.declare hostOwner name ty).1)
    (hb : Ages w.scripts b)
    (hstale : ∀ other s i old, b.get? other = some s → s.installed = some i → s.stale = false →
      w.globals.shared.get? name = some old → old ∉ i.program.references) :
    (⟨w.globals.addShared name (w.table.declare hostOwner name ty).1,
      ((w.table.declare hostOwner name ty).2.acquire [(w.table.declare hostOwner name ty).1]).release
        (w.globals.shared.get? name).toList, b, w.active, w.seed, w.journal⟩ :
          Workspace).Counted := by
  obtain ⟨hext, ⟨a, ha, hid, -⟩, -⟩ := SharedTable.declare_spec hw.sorted hostOwner name ty
  rw [SharedTable.release_acquire]
  refine counted_recount _ hext.sorted (hw.shaped_extends hext) (fun e he => ?_)
    (hw.globals.addShared name _) (fun x id hx => ?_) fun other t j ht hj => ?_
  · unfold holders
    rw [hb.count]
    exact hw.refs_replaced he hne
  · rcases NameMap.eq_or_get?_of_insert hx with ⟨rfl, rfl⟩ | hx
    · obtain ⟨hm, ho, hn, -⟩ := hext.sorted.newest?_eq_some.1 ha
      exact ⟨a, hext.sorted.get?_eq_some.2 ⟨hm, hid⟩, ho, hn⟩
    · obtain ⟨e, he, hrest⟩ := hw.shared x id hx
      exact ⟨e, hext.get? hw.sorted he, hrest⟩
  · have haged := hw.toCounted.ages hb
    refine ⟨(haged.linked other t j ht hj).extends hw.sorted hext id, haged.manned other t j ht hj,
      fun hst x v hx himp => ?_⟩
    obtain ⟨id, hv, hsource⟩ := haged.current other t j ht hj hst x v hx himp
    refine ⟨id, hv, hsource.imp_left fun hget => ?_⟩
    show (w.globals.shared.insert name _).get? x = some id
    rw [NameMap.get?_insert, if_neg]
    · exact hget
    · rintro rfl
      exact hstale other t j id ht hj hst hget
        ((haged.linked other t j ht hj).shared_mem hx hv)

/-- Registering a shared variable of the host. -/
theorem Sound.addShared (hw : w.Sound) (name : String) (ty : Ty) :
    (w.addShared name ty).2.Sound := by
  obtain ⟨hext, ⟨a, ha, hid, -⟩, -⟩ := SharedTable.declare_spec hw.sorted hostOwner name ty
  unfold Workspace.addShared
  dsimp only
  split
  · next hsame =>
    -- the host holds the entry already
    obtain ⟨e, he, -⟩ := hw.shared name _ hsame
    rw [SharedTable.declare_old hw.sorted ⟨e, (hw.sorted.get?_eq_some.1 he)⟩]
    refine hw.globals_congr (hw.globals.addShared name _) fun x => ?_
    show (w.globals.shared.insert name _).get? x = _
    rw [NameMap.get?_insert]
    split
    · next hx => rw [hx, hsame]
    · rfl
  · next hne =>
    unfold replaceShared
    dsimp only
    cases hprevious : w.globals.shared.get? name with
    | none =>
      have h := hw.counted_replaced hne (.refl w.scripts) fun _ _ _ old _ _ _ hold => by
        rw [hprevious] at hold
        cases hold
      rw [hprevious] at h
      refine ⟨h, fun e' he' => ?_⟩
      change e' ∈ (SharedTable.acquire _ _).entries at he'
      rw [SharedTable.acquire_eq] at he'
      obtain ⟨e, he, rfl⟩ := List.mem_map.1 he'
      rcases SharedTable.declare_entries _ _ _ _ e he with heid | hmem
      · simp [heid]
      · exact Nat.ne_of_gt (Nat.add_pos_left (Nat.pos_of_ne_zero (hw.held e hmem)) _)
    | some old =>
      have hages := ages_markStale w.scripts fun _ s => s.refersTo old
      have h := hw.counted_replaced hne hages fun other t i old' ht hi hst hold => by
        rw [hprevious] at hold
        cases hold
        rw [NameMap.get?_map] at ht
        obtain ⟨s, hs, rfl⟩ := Option.map_eq_some_iff.1 ht
        split at hst
        · cases hst
        · next hrefers =>
          rw [if_neg hrefers] at hi
          rw [Script.refersTo_eq hi, List.contains_iff_mem] at hrefers
          exact hrefers
      rw [hprevious] at h
      exact h.sweep

/-- Scripts that refer to an entry which has been replaced are stale, and nothing else changes about
them. -/
theorem scripts_addShared (w : Workspace) (name : String) (ty : Ty) :
    (w.addShared name ty).2.scripts = w.scripts ∨
      ∃ condition, (w.addShared name ty).2.scripts = (w.markStale condition).scripts := by
  unfold Workspace.addShared
  dsimp only
  split
  · exact .inl rfl
  · unfold replaceShared
    dsimp only
    split
    · exact .inl rfl
    · exact .inr ⟨_, rfl⟩

/-- It leaves alone what the scripts have. -/
theorem Sound.addShared_spec (hw : w.Sound) (name : String) (ty : Ty) :
    w.table.Follows (w.addShared name ty).2.table ∧ (w.addShared name ty).2.active = w.active ∧
      (w.addShared name ty).2.globals.functions = w.globals.functions ∧
      ∀ other, (w.addShared name ty).2.scripts.program? other = w.scripts.program? other := by
  have hdeclare : w.table.Follows (w.table.declare hostOwner name ty).2 :=
    (SharedTable.declare_spec hw.sorted hostOwner name ty).1.follows
  unfold Workspace.addShared
  dsimp only
  split
  · exact ⟨hdeclare, rfl, rfl, fun _ => rfl⟩
  · unfold replaceShared
    dsimp only
    have hacquire := hdeclare.trans
      (SharedTable.follows_acquire _ [(w.table.declare hostOwner name ty).1])
    cases w.globals.shared.get? name with
    | none => exact ⟨hacquire, rfl, rfl, fun _ => rfl⟩
    | some old =>
      have hrelease := hacquire.trans (SharedTable.follows_release _ [old])
      exact ⟨hrelease.trans (SharedTable.follows_sweep _), rfl, rfl,
        (ages_markStale w.scripts fun _ s => s.refersTo old).program⟩

end Workspace

end VectorScript
