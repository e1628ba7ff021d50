import VectorScript.Proofs.NameMap
import VectorScript.Proofs.Program.Linked
import VectorScript.Proofs.Store.Memory

/-!
# Workspaces in order

What holds of a workspace whatever is done to it (`Workspace.Sound`): every shared variable has as
many references as there are scripts and names of the host that hold it, at least one; programs are
linked with the table, each has its runner unless that is running, and a script that is not stale
imports what is shared now. `Workspace.Counted` is the same where some entries may have lost their last reference
and wait to be swept.

    w.Counted → { w with table := w.table.sweep }.Sound                             (Counted.sweep)
-/

namespace VectorScript

namespace Script

theorem refersTo_eq {s : Script} {i : Installed} (h : s.installed = some i) (id : SharedId) :
    s.refersTo id = i.program.references.contains id := by
  simp [refersTo, program?, h]

theorem refersTo_of_none {s : Script} (h : s.installed = none) (id : SharedId) :
    s.refersTo id = false := by
  simp [refersTo, program?, h]

theorem program?_eq {s : Script} {i : Installed} (h : s.installed = some i) :
    s.program? = some i.program := by
  simp [program?, h]

end Script

theorem Scripts.program?_eq {a : Scripts} {name : String} {s : Script} {i : Installed}
    (hs : a.get? name = some s) (hi : s.installed = some i) :
    a.program? name = some i.program := by
  unfold program?
  rw [hs]
  exact Script.program?_eq hi

/-- The runner is out just while the script is running. Else it executes the program, on memory that
fits. -/
structure Installed.Manned (i : Installed) (running : Prop) : Prop where
  out : i.runner = none ↔ running
  runs : ∀ r, i.runner = some r → r.program = i.program ∧ r.memory.Fits i.program.slots

namespace Installed.Manned

variable {i : Installed} {running : Prop}

theorem runner_eq (h : i.Manned running) (hidle : ¬running) :
    i.runner = some ⟨i.program, i.memory⟩ := by
  unfold memory
  cases hr : i.runner with
  | none => exact absurd (h.out.1 hr) hidle
  | some r =>
    rw [← (h.runs r hr).1]
    rfl

theorem fits (h : i.Manned running) (hidle : ¬running) : i.memory.Fits i.program.slots :=
  (h.runs _ (h.runner_eq hidle)).2

/-- A program that has just been installed. -/
theorem fresh (p : Program) (hidle : ¬running) : (of p (.fresh p.slots)).Manned running := by
  refine ⟨⟨fun h => (nomatch h), fun h => absurd h hidle⟩, fun r hr => ?_⟩
  cases hr
  exact ⟨rfl, Memory.fits_fresh p.slots⟩

end Installed.Manned

/-! ## Programs on a changing table -/

namespace Program

/-- What a variable names is among the references. -/
theorem Linked.shared_mem {p : Program} {owner : String} {t : SharedTable} (h : p.Linked owner t)
    {x : String} {v : Variable} {id : SharedId} (hx : p.symbols.get? x = some (.var v))
    (hv : v.shared = some id) : id ∈ p.references := by
  have hslot := (h.placed x v hx).slot
  unfold Variable.home at hslot
  rw [hv] at hslot
  exact h.slots id (List.mem_of_getElem? hslot)

/-- A program stays linked while the entries that it refers to stay what they are. -/
theorem Linked.mono {p : Program} {owner : String} {t t' : SharedTable} (h : p.Linked owner t)
    (he : ∀ id ∈ p.references, ∀ e, t.get? id = some e →
      ∃ e', t'.get? id = some e' ∧ e'.owner = e.owner ∧ e'.name = e.name ∧ e'.ty = e.ty)
    (hn : owner ≠ "" → ∀ x, ∀ id ∈ p.references, t.lookup owner x = some id →
      t'.lookup owner x = some id) : p.Linked owner t' where
  nodup := h.nodup
  references id hid := by
    obtain ⟨e, hget⟩ := h.references id hid
    obtain ⟨e', hget', -⟩ := he id hid e hget
    exact ⟨e', hget'⟩
  slots := h.slots
  placed x v hx := by
    refine ⟨(h.placed x v hx).slot, fun id hv => ?_⟩
    obtain ⟨e, hget, hname, hty⟩ := (h.placed x v hx).entry id hv
    obtain ⟨e', hget', -, hname', hty'⟩ := he id (h.shared_mem hx hv) e hget
    exact ⟨e', hget', hname'.trans hname, hty'.trans hty⟩
  named := h.named
  apart := h.apart
  imported := h.imported
  stores := h.stores
  shaped := h.shaped
  exported := h.exported
  exports x id hx := by
    obtain ⟨hid, e, v, hget, ho, hrest⟩ := h.exports x id hx
    obtain ⟨e', hget', ho', -⟩ := he id hid e hget
    exact ⟨hid, e', v, hget', ho'.trans ho, hrest⟩
  newest ho x id hx := hn ho x id (h.exports x id hx).1 (h.newest ho x id hx)

theorem Linked.mapEntries {p : Program} {owner : String} {t : SharedTable} (h : p.Linked owner t)
    {f : SharedEntry → SharedEntry} (hid : ∀ e, (f e).id = e.id) (ho : ∀ e, (f e).owner = e.owner)
    (hn : ∀ e, (f e).name = e.name) (hty : ∀ e, (f e).ty = e.ty) :
    p.Linked owner (t.mapEntries f) := by
  refine h.mono (fun id _ e he => ⟨f e, ?_, ho e, hn e, hty e⟩) fun _ x id _ hl => ?_
  · rw [SharedTable.get?_mapEntries hid, he]
    rfl
  · exact hl

/-- Declarations of another owner do not touch a program. -/
theorem Linked.extends {p : Program} {owner other : String} {t t' : SharedTable}
    (h : p.Linked owner t) (ht : t.Sorted) (hext : SharedTable.Extends other t t')
    (hne : owner ≠ "" → owner ≠ other) : p.Linked owner t' := by
  refine h.mono (fun id _ e he => ⟨e, hext.get? ht he, rfl, rfl, rfl⟩) fun ho x id _ hl => ?_
  rw [ht.keyed] at hl
  obtain ⟨e, he, hid⟩ := Option.map_eq_some_iff.1 hl
  rw [hext.sorted.keyed, hext.newest? ht (hne ho) he, ← hid]
  rfl

end Program

namespace Workspace

/-! ## The invariant -/

/-- How many hold a shared variable: the scripts whose program refers to it, and the host if one of
its names stands for it. -/
def holders (w : Workspace) (id : SharedId) : Nat :=
  w.scripts.count (·.refersTo id) + if w.globals.shared.values.contains id then 1 else 0

/-- Everything is in order, though some entries may have no reference left. -/
structure Counted (w : Workspace) : Prop where
  sorted : w.table.Sorted
  shaped : w.table.Shaped
  refs : ∀ e ∈ w.table.entries, e.refs = w.holders e.id
  globals : w.globals.Ok
  shared : ∀ x id, w.globals.shared.get? x = some id →
    ∃ e, w.table.get? id = some e ∧ e.owner = hostOwner ∧ e.name = x
  linked : ∀ name s i, w.scripts.get? name = some s → s.installed = some i →
    i.program.Linked name w.table
  manned : ∀ name s i, w.scripts.get? name = some s → s.installed = some i →
    i.Manned (name ∈ w.active)
  current : ∀ name s i, w.scripts.get? name = some s → s.installed = some i → s.stale = false →
    i.program.Current name w.globals w.scripts

/-- Everything is in order, and every entry is held. -/
structure Sound (w : Workspace) : Prop extends Counted w where
  held : ∀ e ∈ w.table.entries, e.refs ≠ 0

/-- A program of a script is linked with the table. -/
theorem Counted.linked_program {w : Workspace} (hw : w.Counted) {name : String} {p : Program}
    (hp : w.scripts.program? name = some p) : p.Linked name w.table := by
  obtain ⟨s, hs, hsp⟩ := Option.bind_eq_some_iff.1 hp
  obtain ⟨i, hi, rfl⟩ := Option.map_eq_some_iff.1 hsp
  exact hw.linked name s i hs hi

/-! ## Holders -/

theorem mem_values {α : Type} {m : NameMap α} {a : α} :
    a ∈ m.values ↔ ∃ x, m.get? x = some a := by
  unfold NameMap.values
  rw [List.mem_map]
  constructor
  · rintro ⟨⟨x, b⟩, hb, rfl⟩
    exact ⟨x, NameMap.mem_entries.1 hb⟩
  · rintro ⟨x, hx⟩
    exact ⟨(x, a), NameMap.mem_entries.2 hx, rfl⟩

theorem holders_pos_of_script {w : Workspace} {name : String} {s : Script} {i : Installed}
    (hs : w.scripts.get? name = some s) (hi : s.installed = some i) {id : SharedId}
    (hid : id ∈ i.program.references) : w.holders id ≠ 0 := by
  have h : 0 < w.scripts.count (·.refersTo id) := by
    refine NameMap.count_pos hs ?_
    rw [Script.refersTo_eq hi]
    exact List.contains_iff_mem.2 hid
  unfold holders
  omega

theorem holders_pos_of_host {w : Workspace} {x : String} {id : SharedId}
    (h : w.globals.shared.get? x = some id) : w.holders id ≠ 0 := by
  unfold holders
  rw [if_pos (List.contains_iff_mem.2 (mem_values.2 ⟨x, h⟩))]
  omega

/-- Nobody holds what is not in the table. -/
theorem Counted.holders_eq_zero {w : Workspace} (hw : w.Counted) {id : SharedId}
    (h : ∀ e ∈ w.table.entries, e.id ≠ id) : w.holders id = 0 := by
  have hnone : ∀ e, w.table.get? id ≠ some e := by
    intro e he
    obtain ⟨hm, hid⟩ := hw.sorted.get?_eq_some.1 he
    exact h e hm hid
  unfold holders
  rw [if_neg]
  · unfold NameMap.count
    rw [List.countP_eq_zero.2]
    rintro ⟨name, s⟩ hs hrefers
    have hget := NameMap.mem_entries.1 hs
    cases hi : s.installed with
    | none =>
      simp only [Script.refersTo_of_none hi] at hrefers
      cases hrefers
    | some i =>
      simp only [Script.refersTo_eq hi] at hrefers
      obtain ⟨e, he⟩ := (hw.linked name s i hget hi).references id
        (List.contains_iff_mem.1 hrefers)
      exact hnone e he
  · intro hc
    obtain ⟨x, hx⟩ := mem_values.1 (List.contains_iff_mem.1 hc)
    obtain ⟨e, he, -⟩ := hw.shared x id hx
    exact hnone e he

/-! ## Sweeping -/

/-- What a program refers to outlives a sweep. -/
theorem Counted.get?_sweep {w : Workspace} (hw : w.Counted) {id : SharedId} (hid : w.holders id ≠ 0)
    {e : SharedEntry} (he : w.table.get? id = some e) : w.table.sweep.get? id = some e := by
  refine hw.sorted.get?_sweep he ?_
  obtain ⟨hm, rfl⟩ := hw.sorted.get?_eq_some.1 he
  rw [hw.refs e hm]
  exact hid

/-- Sweeping leaves a workspace in order in which every entry is held. -/
theorem Counted.sweep {w : Workspace} (hw : w.Counted) :
    { w with table := w.table.sweep }.Sound where
  sorted := hw.sorted.sweep
  shaped e he := hw.shaped e (hw.sorted.mem_sweep.1 he).1
  refs e he := hw.refs e (hw.sorted.mem_sweep.1 he).1
  globals := hw.globals
  shared x id hx := by
    obtain ⟨e, he, hrest⟩ := hw.shared x id hx
    exact ⟨e, hw.get?_sweep (holders_pos_of_host hx) he, hrest⟩
  linked name s i hs hi := by
    refine (hw.linked name s i hs hi).mono (fun id hid e he => ?_) fun _ x id hid hl => ?_
    · exact ⟨e, hw.get?_sweep (holders_pos_of_script hs hi hid) he, rfl, rfl, rfl⟩
    · rw [hw.sorted.keyed] at hl
      obtain ⟨e, he, heid⟩ := Option.map_eq_some_iff.1 hl
      show w.table.sweep.lookup name x = some id
      rw [hw.sorted.sweep.keyed, hw.sorted.newest?_sweep he, ← heid]
      · rfl
      · rw [hw.refs e (hw.sorted.newest?_eq_some.1 he).mem, heid]
        exact holders_pos_of_script hs hi hid
  manned := hw.manned
  current := hw.current
  held e he := (hw.sorted.mem_sweep.1 he).2

/-- Neither random numbers nor the journal matter for the order. -/
theorem Sound.congr {w : Workspace} (hw : w.Sound) (seed : UInt64) (journal : List Event) :
    { w with seed := seed, journal := journal }.Sound :=
  ⟨⟨hw.sorted, hw.shaped, hw.refs, hw.globals, hw.shared, hw.linked, hw.manned, hw.current⟩, hw.held⟩

theorem Sound.noted {w : Workspace} (hw : w.Sound) (deed : Deed) (script : String) :
    (w.note deed script).Sound := hw.congr _ _

/-! ## Scripts that change nothing -/

/-- The later scripts have the same programs and runners as the earlier ones; no stale mark is taken
away. -/
structure Ages (a b : Scripts) : Prop where
  program : ∀ name, b.program? name = a.program? name
  each : ∀ name t i, b.get? name = some t → t.installed = some i → ∃ s,
    a.get? name = some s ∧ s.installed = some i ∧ (t.stale = false → s.stale = false)
  count : ∀ id, b.count (·.refersTo id) = a.count (·.refersTo id)

theorem Ages.refl (a : Scripts) : Ages a a :=
  ⟨fun _ => rfl, fun _ s _ hs hi => ⟨s, hs, hi, id⟩, fun _ => rfl⟩

/-- Whether imports are current depends on scripts only through their programs. -/
theorem current_congr {p : Program} {owner : String} {g : Globals} {a b : Scripts}
    (h : ∀ name, b.program? name = a.program? name) (hp : p.Current owner g a) :
    p.Current owner g b := by
  intro x v hx himp
  obtain ⟨id, hid, hsource⟩ := hp x v hx himp
  refine ⟨id, hid, hsource.imp_right fun hsource => ?_⟩
  obtain ⟨script, exports, hne, himports, hexports, hget⟩ := hsource
  refine ⟨script, exports, hne, himports, ?_, hget⟩
  unfold Scripts.exports? at hexports ⊢
  rw [h script]
  exact hexports

theorem Counted.ages {w : Workspace} (hw : w.Counted) {b : Scripts} (h : Ages w.scripts b) :
    { w with scripts := b }.Counted where
  sorted := hw.sorted
  shaped := hw.shaped
  refs e he := by
    rw [hw.refs e he]
    unfold holders
    rw [h.count]
  globals := hw.globals
  shared := hw.shared
  linked name t i ht hi := by
    obtain ⟨s, hs, hi, -⟩ := h.each name t i ht hi
    exact hw.linked name s i hs hi
  manned name t i ht hi := by
    obtain ⟨s, hs, hi, -⟩ := h.each name t i ht hi
    exact hw.manned name s i hs hi
  current name t i ht hi hstale := by
    obtain ⟨s, hs, hi, hst⟩ := h.each name t i ht hi
    exact current_congr h.program (hw.current name s i hs hi (hst hstale))

theorem Sound.ages {w : Workspace} (hw : w.Sound) {b : Scripts} (h : Ages w.scripts b) :
    { w with scripts := b }.Sound :=
  ⟨hw.toCounted.ages h, hw.held⟩

/-- Marking scripts changes nothing else. -/
theorem ages_markStale (a : Scripts) (condition : String → Script → Bool) :
    Ages a (a.map fun name s => if condition name s then { s with stale := true } else s) := by
  have hget : ∀ name t, (a.map fun name s =>
      if condition name s then { s with stale := true } else s).get? name = some t →
      ∃ s, a.get? name = some s ∧ t.installed = s.installed ∧ (t.stale = false → s.stale = false) := by
    intro name t ht
    rw [NameMap.get?_map] at ht
    obtain ⟨s, hs, rfl⟩ := Option.map_eq_some_iff.1 ht
    refine ⟨s, hs, ?_⟩
    split
    · exact ⟨rfl, fun h => nomatch h⟩
    · exact ⟨rfl, id⟩
  refine ⟨fun name => ?_, fun name t j ht hj => ?_, fun id => ?_⟩
  · unfold Scripts.program?
    rw [NameMap.get?_map]
    cases a.get? name with
    | none => rfl
    | some s =>
      show Script.program? (if condition name s then { s with stale := true } else s) = s.program?
      split <;> rfl
  · obtain ⟨s, hs, hi, hst⟩ := hget name t ht
    exact ⟨s, hs, hi ▸ hj, hst⟩
  · refine NameMap.count_map _ _ _ (fun name s => ?_) a
    split <;> rfl

/-- A script that keeps its program, on memory that fits, and is no less stale. -/
theorem ages_insert {a : Scripts} {name : String} {s t : Script} (hs : a.get? name = some s)
    (hi : t.installed = s.installed) (hst : t.stale = s.stale) : Ages a (a.insert name t) := by
  have hrefers : ∀ id, t.refersTo id = s.refersTo id := by
    intro id
    unfold Script.refersTo Script.program?
    rw [hi]
  refine ⟨fun other => ?_, fun other u j hu hj => ?_, fun id => ?_⟩
  · unfold Scripts.program?
    rw [NameMap.get?_insert]
    split
    · next h =>
      rw [h, hs]
      show t.program? = s.program?
      unfold Script.program?
      rw [hi]
    · rfl
  · rcases NameMap.eq_or_get?_of_insert hu with ⟨rfl, rfl⟩ | hu
    · exact ⟨s, hs, hi ▸ hj, fun h => hst ▸ h⟩
    · exact ⟨u, hu, hj, id⟩
  · have h := NameMap.count_insert a name t (·.refersTo id)
    rw [hs] at h
    simp only [Option.map_some, Option.getD_some, hrefers] at h
    omega

/-- A new script without a program. -/
theorem ages_insert_new {a : Scripts} {name : String} {t : Script} (hs : a.get? name = none)
    (hi : t.installed = none) : Ages a (a.insert name t) := by
  refine ⟨fun other => ?_, fun other u j hu hj => ?_, fun id => ?_⟩
  · unfold Scripts.program?
    rw [NameMap.get?_insert]
    split
    · next h =>
      rw [h, hs]
      show t.program? = none
      unfold Script.program?
      rw [hi]
      rfl
    · rfl
  · rcases NameMap.eq_or_get?_of_insert hu with ⟨rfl, rfl⟩ | hu
    · rw [hi] at hj
      cases hj
    · exact ⟨u, hu, hj, id⟩
  · have h := NameMap.count_insert a name t (·.refersTo id)
    rw [hs] at h
    simp only [Option.map_none, Option.getD_none, Script.refersTo_of_none hi] at h
    exact h

end Workspace

end VectorScript
