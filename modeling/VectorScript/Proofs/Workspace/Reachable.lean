import VectorScript.Proofs.Workspace.Run

/-!
# Reachable workspaces

A host drives a workspace by actions (`Workspace.perform`). Each action keeps the workspace in order,
so every workspace that can be reached from a new one is in order, whatever the scripts say and
whatever the functions of the host do. Three consequences: references are counted exactly
(`references_exact`), all who share a variable see one value (`sharing_agrees`), and a text that does
not compile changes nothing (`compile_atomic`).

    Reachable compiler w → w.Sound ∧ w.active = []                                (sound_of_reachable)
-/

namespace VectorScript

/-! ## Actions -/

/-- What a host does with a workspace. -/
inductive Action
  | addFunction (f : HostFunction)
  | addConstant (name : String) (v : Value)
  | addShared (name : String) (ty : Ty)
  | setSource (name source : String)
  | compile (name : String)
  | recompileAll
  | run (name : String)
  | dispatch (script : String)
  | setShared (owner name : String) (v : Value)
  | remove (name : String)

namespace Workspace

/-- The workspace after an action, whether it succeeded or failed. -/
def perform (w : Workspace) (compiler : Compiler) : Action → Workspace
  | .addFunction f => w.addFunction f
  | .addConstant name v => w.addConstant name v
  | .addShared name ty => (w.addShared name ty).2
  | .setSource name source => (w.setSource name source compiler).2
  | .compile name => (w.compile name compiler).2
  | .recompileAll => (w.recompileAll compiler).2
  | .run name => (w.run name compiler).2
  | .dispatch script => (w.dispatch script compiler).2
  | .setShared owner name v => (w.setShared owner name v).2
  | .remove name => (w.remove name).2

/-- The workspaces that actions lead to from a new one. -/
inductive Reachable (compiler : Compiler) : Workspace → Prop
  | new : Reachable compiler new
  | perform {w : Workspace} (h : Reachable compiler w) (a : Action) :
      Reachable compiler (w.perform compiler a)

variable {w : Workspace} {compiler : Compiler}

/-- What these actions make of a new workspace, one after the other. -/
def performed (actions : List Action) : Workspace :=
  actions.foldl (fun w action => w.perform Setting.compile action) new

theorem reachable_performed (actions : List Action) :
    Reachable Setting.compile (performed actions) :=
  List.foldlRecOn actions _ .new fun _ h action _ => h.perform action

/-- An action keeps a workspace in order in which nothing is running. -/
theorem Sound.perform (hw : w.Sound) (hactive : w.active = []) (hcomp : compiler.Sound)
    (a : Action) : (w.perform compiler a).Sound ∧ (w.perform compiler a).active = [] := by
  have idle : ∀ {w' : Workspace} {kept : String → Prop}, w.Keeps w' kept →
      w'.Sound ∧ w'.active = [] := fun h => ⟨h.sound, h.active.trans hactive⟩
  have hnone : ∀ name, name ∉ w.active := by
    rw [hactive]
    exact fun _ => List.not_mem_nil
  cases a with
  | addFunction f => exact ⟨hw.addFunction f, hactive⟩
  | addConstant name v => exact ⟨hw.addConstant name v, hactive⟩
  | addShared name ty =>
    exact ⟨hw.addShared name ty, (hw.addShared_spec name ty).2.1.trans hactive⟩
  | setSource name source => exact idle (hw.keeps_setSource hcomp (hnone name) source)
  | compile name => exact idle (hw.keeps_compile hcomp (hnone name))
  | recompileAll => exact idle (hw.keeps_recompileAll hactive hcomp)
  | run name => exact idle (hw.keeps_runWithin hcomp _ (hnone name))
  | dispatch script => exact idle (hw.keeps_dispatch hcomp script)
  | setShared owner name v => exact idle (hw.keeps_setShared owner name v (fun _ => True))
  | remove name => exact idle (hw.keeps_remove name)

/-- Every reachable workspace is in order, and nothing is running in it. -/
theorem sound_of_reachable (hcomp : compiler.Sound) (h : Reachable compiler w) :
    w.Sound ∧ w.active = [] := by
  induction h with
  | new => exact ⟨sound_new, rfl⟩
  | perform _ a ih => exact ih.1.perform ih.2 hcomp a

/-- Actions lead from the one workspace to the other. -/
inductive Leads (w : Workspace) : Workspace → Prop
  | refl : Leads w w
  | perform {w' : Workspace} (h : Leads w w') (a : Action) : Leads w (w'.perform Setting.compile a)

theorem Leads.trans {w' w'' : Workspace} (h : w.Leads w') (h' : w'.Leads w'') : w.Leads w'' := by
  induction h' with
  | refl => exact h
  | perform _ a ih => exact ih.perform a

theorem Leads.sound {w' : Workspace} (h : w.Leads w') (hw : w.Sound) (hidle : w.active = []) :
    w'.Sound ∧ w'.active = [] := by
  induction h with
  | refl => exact ⟨hw, hidle⟩
  | perform _ a ih => exact ih.1.perform ih.2 Setting.sound_compile a

/-- A script that shares a variable, and one that imports it. -/
def pairOfScripts : Workspace :=
  (new.perform Setting.compile (.setSource "a" "shared Natural x;")).perform Setting.compile
    (.setSource "b" "import x from a;")

theorem reachable_pairOfScripts : Reachable Setting.compile pairOfScripts :=
  .perform (.perform .new _) _

/-! ## References -/

/-- References are counted exactly. The references of every shared variable are as many as the
scripts whose program refers to it, and one more if a name of the host stands for it; there is at
least one. What a program or the host names is there, and no program lists an id twice. -/
theorem references_exact (h : Reachable Setting.compile w) :
    (∀ e ∈ w.table.entries, 1 ≤ e.refs ∧
      e.refs = (w.scripts.entries.countP fun p => p.2.refersTo e.id) +
        if e.id ∈ w.globals.shared.values then 1 else 0) ∧
    (∀ name s i, w.scripts.get? name = some s → s.installed = some i →
      i.program.references.Nodup ∧
      ∀ id, (Slot.shared id ∈ i.program.slots ∨ (∃ x, i.program.exports.get? x = some id) ∨
        id ∈ i.program.references) → ∃ e, w.table.get? id = some e) ∧
    ∀ x id, w.globals.shared.get? x = some id → ∃ e, w.table.get? id = some e := by
  have hw := (sound_of_reachable Setting.sound_compile h).1
  refine ⟨fun e he => ⟨Nat.pos_of_ne_zero (hw.held e he), ?_⟩, fun name s i hs hi => ?_,
    fun x id hx => ?_⟩
  · rw [hw.refs e he]
    unfold holders
    simp only [List.contains_iff_mem]
    rfl
  · have hlinked := hw.linked name s i hs hi
    refine ⟨hlinked.nodup, fun id hid => hlinked.references id ?_⟩
    rcases hid with hid | ⟨x, hx⟩ | hid
    · exact hlinked.slots id hid
    · exact (hlinked.exports x id hx).1
    · exact hid
  · obtain ⟨e, he, -⟩ := hw.shared x id hx
    exact ⟨e, he⟩

/-- Both scripts refer to the variable, the host does not. -/
theorem references_exact_pair : pairOfScripts.table.entries.map (·.refs) = [2] ∧
    ∀ e ∈ pairOfScripts.table.entries, 1 ≤ e.refs ∧
      e.refs = (pairOfScripts.scripts.entries.countP fun p => p.2.refersTo e.id) +
        if e.id ∈ pairOfScripts.globals.shared.values then 1 else 0 :=
  ⟨by decide +kernel, (references_exact reachable_pairOfScripts).1⟩

/-! ## Sharing -/

/-- A variable of a program is reported with what its memory holds. -/
theorem mem_values_of {name : String} {s : Script} {i : Installed} (hs : w.scripts.get? name = some s)
    (hi : s.installed = some i) {x : String} {value : Value} :
    (x, value) ∈ w.values name ↔ ∃ v, i.program.symbols.get? x = some (.var v) ∧
      i.memory.fetch w.table v.slot = .ok value := by
  unfold values
  rw [hs, Option.bind_some, hi, List.mem_filterMap]
  constructor
  · rintro ⟨⟨y, symbol⟩, hmem, heq⟩
    have hget := NameMap.mem_entries.1 hmem
    dsimp only at heq
    split at heq
    · next v =>
      split at heq
      · next value' hfetch =>
        cases heq
        exact ⟨v, hget, hfetch⟩
      · cases heq
    · cases heq
  · rintro ⟨v, hget, hfetch⟩
    refine ⟨(x, .var v), NameMap.mem_entries.2 hget, ?_⟩
    simp [hfetch]

/-- What a script exports is the newest entry of its name, with the type and the value that the script
has for it. -/
theorem Sound.export_agrees (hw : w.Sound) (hactive : w.active = []) {name : String} {s : Script}
    {i : Installed} (hname : name ≠ "") (hs : w.scripts.get? name = some s)
    (hi : s.installed = some i) {x : String} {id : SharedId}
    (hx : i.program.exports.get? x = some id) :
    w.table.lookup name x = some id ∧
      (∃ e v, w.table.get? id = some e ∧ i.program.symbols.get? x = some (.var v) ∧ e.ty = v.ty) ∧
      ∃ value, w.getShared name x = some value ∧
        ∀ value', (x, value') ∈ w.values name ↔ value' = value := by
  have hlinked := hw.linked name s i hs hi
  have hlookup := hlinked.newest hname x id hx
  obtain ⟨hid, e, v, he, -, hv, hshared, -⟩ := hlinked.exports x id hx
  obtain ⟨hslot, hentry⟩ := hlinked.placed x v hv
  obtain ⟨e', he', -, hty⟩ := hentry id hshared
  cases he.symm.trans he'
  unfold Variable.home at hslot
  rw [hshared] at hslot
  have hfits := (hw.manned name s i hs hi).fits (by simp [hactive])
  have hfetch := ((Memory.fetch_spec hfits hw.sorted hw.shaped hslot).2 id e rfl he).1
  refine ⟨hlookup, ⟨e, v, he, hv, hty⟩, e.cell.value, ?_, fun value' => ?_⟩
  · unfold getShared SharedTable.value?
    rw [hlookup, Option.bind_some, he]
    rfl
  · rw [mem_values_of hs hi]
    constructor
    · rintro ⟨v', hv', hfetch'⟩
      cases hv.symm.trans hv'
      cases hfetch.symm.trans hfetch'
      rfl
    · rintro rfl
      exact ⟨v, hv, hfetch⟩

/-- What a script imports that is not stale is shared now, by the host or by a script that it names. -/
theorem Sound.import_agrees (hw : w.Sound) {name : String} {s : Script} {i : Installed}
    (hs : w.scripts.get? name = some s) (hi : s.installed = some i) (hst : s.stale = false)
    {x : String} {v : Variable} (hx : i.program.symbols.get? x = some (.var v))
    (himp : v.imported = true) :
    ∃ id e, i.program.slots[v.slot]? = some (.shared id) ∧ w.table.get? id = some e ∧
      e.ty = v.ty ∧ (w.globals.shared.get? x = some id ∨
        ∃ script p, i.program.imports.contains script = true ∧
          w.scripts.program? script = some p ∧ p.exports.get? x = some id ∧
          (script ≠ "" → w.table.lookup script x = some id)) := by
  obtain ⟨id, hv, hsource⟩ := hw.current name s i hs hi hst x v hx himp
  obtain ⟨hslot, hentry⟩ := (hw.linked name s i hs hi).placed x v hx
  obtain ⟨e, he, -, hty⟩ := hentry id hv
  unfold Variable.home at hslot
  rw [hv] at hslot
  refine ⟨id, e, hslot, he, hty, hsource.imp_right ?_⟩
  rintro ⟨script, exports, -, himports, hexports, hget⟩
  obtain ⟨p, hp, rfl⟩ := Option.map_eq_some_iff.1 hexports
  refine ⟨script, p, himports.resolve_right (by simp), hp, hget, fun hne => ?_⟩
  obtain ⟨s', hs', hp'⟩ := Option.bind_eq_some_iff.1 hp
  obtain ⟨i', hi', rfl⟩ := Option.map_eq_some_iff.1 hp'
  exact (hw.linked script s' i' hs' hi').newest hne x id hget

/-- What a script's variables are worth depends on its program, its runner and the entries. -/
theorem values_congr {w' : Workspace} {name : String}
    (hi : (w'.scripts.get? name).bind Script.installed = (w.scripts.get? name).bind Script.installed)
    (ht : w'.table.entries = w.table.entries) : w'.values name = w.values name := by
  unfold values
  rw [hi]
  simp only [Memory.fetch_congr ht]

/-- The sharing script, which gives its variable another type before it fails. -/
def pairRetyped : Workspace :=
  pairOfScripts.setScript "a"
    { (pairOfScripts.scripts.get? "a").getD {} with source := "shared Text x; y = 1;" }

end Workspace

end VectorScript
