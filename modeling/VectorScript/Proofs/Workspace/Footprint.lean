import VectorScript.Proofs.Workspace.Dispatch

/-!
# What a run may change

A script stores only to variables that it declares itself. So a run changes shared variables only of
scripts that have started in it, and the program and the memory of a script only if that script has
started or has been compiled in it (`Footprint`); and whatever a script does on its own, the variables
that it imports keep their values.

    Course compiler fun w w' => ∃ events, w.Footprint w' events                    (course_footprint)
-/

namespace VectorScript

/-! ## Imported variables -/

/-- Unless what it dispatches changes an imported variable, running a program does not. -/
theorem Program.Linked.run_imported {p : Program} {owner x : String} {t : SharedTable} {v : Variable}
    (h : p.Linked owner t) (hx : p.symbols.get? x = some (.var v)) (himp : v.imported = true)
    {id : SharedId} (hid : v.shared = some id) {callees : Callees}
    (hc : ∀ script (w : Workspace), (callees.dispatch script w).2.table.value? id = w.table.value? id)
    {memory : Memory} (hm : memory.Fits p.slots) (w : Workspace) :
    (p.run callees memory w).2.2.table.value? id = w.table.value? id := by
  have hstores : ∀ slot, p.StoresTo slot → p.slots[slot]? ≠ some (.shared id) := by
    intro slot hslot hentry
    obtain ⟨y, u, hy, rfl, -⟩ := h.stores slot hslot
    have hu := Variable.shared_eq_of_home (Option.some.inj ((h.placed y u hy).slot.symm.trans hentry))
    obtain rfl := h.eq_of_shared hy hx hu hid
    cases hy.symm.trans hx
    exact h.not_storesTo hx himp hslot
  have hsteady : callees.Steady callees p.StoresTo fun memory w' =>
      memory.Fits p.slots ∧ w'.table.value? id = w.table.value? id := {
    functions := rfl
    dispatch script memory w' hw' := ⟨rfl, hw'.1, (hc script w').trans hw'.2⟩
    random memory w' hw' := by
      obtain ⟨seed, hseed⟩ := w'.random_snd
      rw [hseed]
      exact hw'
    store memory w' slot v path hslot hw' := ⟨Memory.fits_store hw'.1 _ slot v path,
      (Memory.value?_store hw'.1 _ (h.owner_of_storesTo hslot).1 (hstores slot hslot) v path).trans
        hw'.2⟩ }
  exact (p.alike_run hsteady ⟨hm, rfl⟩).2.2

namespace Workspace

variable {w w' : Workspace} {compiler : Compiler}

/-! ## What is installed -/

/-- The program of a script and the runner with the memory of its variables. -/
def installed? (w : Workspace) (script : String) : Option Installed :=
  (w.scripts.get? script).bind Script.installed

theorem installed?_setScript (w : Workspace) {name script : String} (h : script ≠ name) (s : Script) :
    (w.setScript name s).installed? script = w.installed? script := by
  unfold installed? setScript
  dsimp only
  rw [NameMap.get?_insert, if_neg h]

/-- Marks do not matter for what is installed. -/
theorem installed?_markStale (w : Workspace) (condition : String → Script → Bool) (script : String) :
    (w.markStale condition).installed? script = w.installed? script := by
  unfold installed? markStale
  dsimp only
  rw [NameMap.get?_map]
  cases w.scripts.get? script with
  | none => rfl
  | some s =>
    show Script.installed (if condition script s then { s with stale := true } else s) = s.installed
    split <;> rfl

/-- Installing a program changes what is installed for its script only. -/
theorem installed?_install (w : Workspace) {name script : String} (h : script ≠ name) (s : Script) (p : Program) :
    (w.install name s p).2.installed? script = w.installed? script := by
  unfold install
  dsimp only
  split
  · exact installed?_setScript _ h _
  · exact (installed?_markStale _ _ script).trans (installed?_setScript _ h _)

theorem installed?_modifyInstalled {name script : String} (h : script ≠ name)
    (f : Installed → Installed) :
    (w.modifyInstalled name f).installed? script = w.installed? script := by
  unfold installed? modifyInstalled
  dsimp only
  rw [NameMap.get?_modify, if_neg h]

theorem contains_modifyInstalled (name : String) (f : Installed → Installed) (script : String) :
    (w.modifyInstalled name f).scripts.contains script = w.scripts.contains script := by
  unfold modifyInstalled NameMap.contains
  dsimp only
  rw [NameMap.get?_modify]
  split
  · exact Option.isSome_map
  · rfl

/-! ## Footprints -/

/-- The deed has been done with the script. -/
def Did (events : List Event) (deed : Deed) (script : String) : Prop :=
  ∃ chain, ⟨deed, script, chain⟩ ∈ events

theorem Did.append {events later : List Event} {deed : Deed} {script : String} :
    Did (events ++ later) deed script ↔ Did events deed script ∨ Did later deed script := by
  simp only [Did, List.mem_append, exists_or]

theorem did_singleton {event : Event} {deed : Deed} {script : String} :
    Did [event] deed script ↔ event.deed = deed ∧ event.script = script := by
  obtain ⟨d, n, chain⟩ := event
  simp [Did, eq_comm]

/-- What has happened, and all that it has changed: shared variables of the innermost script and of
those that have started, and what is installed for scripts that have started or have been
compiled. -/
structure Footprint (w w' : Workspace) (events : List Event) : Prop where
  journal : w'.journal = events.reverse ++ w.journal
  follows : w.table.Follows w'.table fun owner =>
    w.active.getLast? = some owner ∨ Did events .started owner
  installed : ∀ script, ¬Did events .started script → ¬Did events .compiled script →
    w'.installed? script = w.installed? script
  started : ∀ script, Did events .started script → w.scripts.contains script = true
  scripts : ∀ script, w'.scripts.contains script = w.scripts.contains script

namespace Footprint

theorem refl (w : Workspace) : w.Footprint w [] :=
  ⟨rfl, .refl _, fun _ _ _ => rfl, fun _ h => (nomatch h.choose_spec), fun _ => rfl⟩

theorem trans {w'' : Workspace} {events later : List Event} (h : w.Footprint w' events)
    (hactive : w'.active = w.active) (h' : w'.Footprint w'' later) :
    w.Footprint w'' (events ++ later) where
  journal := by rw [h'.journal, h.journal, List.reverse_append, List.append_assoc]
  follows := by
    refine (h.follows.mono fun owner ho => ?_).trans (h'.follows.mono fun owner ho => ?_)
    · exact ho.imp_right fun hdid => Did.append.2 (.inl hdid)
    · rw [hactive] at ho
      exact ho.imp_right fun hdid => Did.append.2 (.inr hdid)
  installed script hs hc := by
    rw [Did.append, not_or] at hs hc
    exact (h'.installed script hs.2 hc.2).trans (h.installed script hs.1 hc.1)
  started script hs := by
    rcases Did.append.1 hs with hs | hs
    · exact h.started script hs
    · exact h.scripts script ▸ h'.started script hs
  scripts script := (h'.scripts script).trans (h.scripts script)

end Footprint

theorem contains_setScript (w : Workspace) {name : String} (h : w.scripts.contains name = true) (s : Script)
    (script : String) : (w.setScript name s).scripts.contains script = w.scripts.contains script := by
  unfold setScript NameMap.contains at *
  dsimp only
  rw [NameMap.get?_insert]
  split
  · next heq => rw [heq, h]; rfl
  · rfl

theorem contains_markStale (w : Workspace) (condition : String → Script → Bool) (script : String) :
    (w.markStale condition).scripts.contains script = w.scripts.contains script := by
  unfold markStale NameMap.contains
  dsimp only
  rw [NameMap.get?_map, Option.isSome_map]

theorem contains_install (w : Workspace) {name : String} (h : w.scripts.contains name = true) (s : Script)
    (p : Program) (script : String) :
    (w.install name s p).2.scripts.contains script = w.scripts.contains script := by
  unfold install
  dsimp only
  split
  · exact contains_setScript _ h _ script
  · exact (contains_markStale _ _ script).trans (contains_setScript _ h _ script)

/-- Compiling changes what is installed for its script if it succeeds, and stores nothing. -/
theorem Sound.footprint_compile (hw : w.Sound) (hcomp : compiler.Sound) {name : String}
    (hname : name ∉ w.active) : ∃ events, w.Footprint (w.compile name compiler).2 events := by
  have hfollows := hw.follows_compile hcomp hname
  unfold compile at hfollows ⊢
  split at hfollows
  · exact ⟨[], .refl w⟩
  · next s hs =>
    have hcontains : w.scripts.contains name = true := NameMap.contains_iff.2 ⟨s, hs⟩
    generalize compiler (w.setting name) s.source = result at hfollows ⊢
    obtain ⟨result, table⟩ := result
    cases result with
    | ok p =>
      let w' := { w with table := table }.note .compiled name
      refine ⟨[⟨.compiled, name, w.active⟩], journal_install w' name s p,
        hfollows.mono fun _ h => h.elim, fun script _ hc => ?_, fun script h => ?_,
        contains_install w' hcontains s p⟩
      · have hne : script ≠ name := fun heq => hc (did_singleton.2 ⟨rfl, heq.symm⟩)
        exact installed?_install w' hne s p
      · cases (did_singleton.1 h).1
    | error e =>
      let w' := { w with table := table.sweep }.note .refused name
      refine ⟨[⟨.refused, name, w.active⟩], rfl, hfollows.mono fun _ h => h.elim,
        fun script _ _ => ?_, fun script h => ?_, contains_setScript w' hcontains _⟩
      · by_cases heq : script = name
        · subst heq
          show ((w.scripts.insert script _).get? script).bind Script.installed = _
          rw [NameMap.get?_insert_self, installed?, hs]
          rfl
        · exact installed?_setScript w' heq _
      · cases (did_singleton.1 h).1

/-- A script stores to its own variables. -/
theorem Sound.follows_store (hw : w.Sound) {name : String}
    (hlast : w.active.getLast? = some name) {p : Program}
    (hp : w.scripts.program? name = some p) {memory : Memory} (hm : memory.Fits p.slots) {slot : Nat}
    (hslot : p.StoresTo slot) (v : Value) (path : List Int32) :
    w.table.Follows (memory.store w.table slot v path).2.2 fun owner =>
      w.active.getLast? = some owner ∨ Did [] .started owner := by
  obtain ⟨hlt, howner⟩ := (hw.toCounted.linked_program hp).owner_of_storesTo hslot
  refine Memory.follows_store hm hlt (fun id hid e he heid => ?_) v path
  obtain ⟨a, ha, rfl⟩ := howner id hid
  obtain ⟨ham, haid⟩ := hw.sorted.get?_eq_some.1 ha
  rw [hw.sorted.eq_of_id he ham (heid.trans haid.symm)]
  exact .inl hlast

/-- Every step of a run has a footprint, and so has the whole run. -/
theorem course_footprint (hcomp : compiler.Sound) :
    Course compiler fun w w' => ∃ events, w.Footprint w' events where
  refl w := ⟨[], .refl w⟩
  trans {a b c} _ hab _ h h' := by
    obtain ⟨events, h⟩ := h
    obtain ⟨later, h'⟩ := h'
    exact ⟨events ++ later, h.trans hab.active h'⟩
  random w := by
    obtain ⟨seed, hseed⟩ := w.random_snd
    rw [hseed]
    exact ⟨[], rfl, .refl _, fun _ _ _ => rfl, fun _ h => (nomatch h.choose_spec), fun _ => rfl⟩
  compile hw hname := hw.footprint_compile hcomp hname
  store v path hw hlast hp hm hslot :=
    ⟨[], rfl, hw.follows_store hlast hp hm hslot v path, fun _ _ _ => rfl,
      fun _ h => (nomatch h.choose_spec), fun _ => rfl⟩
  run {w w' name r} memory hw hname hr _ hk h := by
    obtain ⟨inner, h⟩ := h
    have hstart : ∀ {script}, Did [⟨.started, name, w.active⟩] .started script ↔ name = script :=
      did_singleton.trans (and_iff_right rfl)
    refine ⟨[⟨.started, name, w.active⟩] ++ inner, ?_, ?_, fun script hs hc => ?_,
      fun script hs => ?_, fun script => ?_⟩
    · show w'.journal = _
      rw [h.journal, List.reverse_append, List.append_assoc]
      rfl
    -- A store is made for the last script of the chain, which is the one that has just started.
    · refine SharedTable.Follows.mono h.follows fun owner ho => .inr (Did.append.2 ?_)
      rcases ho with ho | ho
      · obtain rfl : name = owner := Option.some.inj (List.getLast?_concat.symm.trans ho)
        exact .inl (hstart.2 rfl)
      · exact .inr ho
    · rw [Did.append, not_or] at hs hc
      have hne : script ≠ name := fun heq => hs.1 (hstart.2 heq.symm)
      exact (installed?_modifyInstalled hne _).trans
        ((h.installed script hs.2 hc.2).trans (installed?_modifyInstalled hne _))
    · rcases Did.append.1 hs with hs | hs
      · obtain rfl := hstart.1 hs
        obtain ⟨s, hs, -⟩ := Option.bind_eq_some_iff.1 hr
        exact NameMap.contains_iff.2 ⟨s, hs⟩
      · rw [← contains_modifyInstalled name Installed.withoutRunner script]
        exact h.started script hs
    · exact (contains_modifyInstalled ..).trans
        ((h.scripts script).trans (contains_modifyInstalled ..))

/-! ## Who has started -/

/-- What starts in a run is the script itself, or stands on a chain that goes on with it. -/
theorem Sound.started_runWithin (hw : w.Sound) (hcomp : compiler.Sound) (hchain : w.active.Nodup)
    (depth : Nat) {name : String} (hname : name ∉ w.active) :
    ∃ events : List Event, (runWithin compiler depth name w).2.journal = events.reverse ++ w.journal ∧
      ∀ script chain, ⟨.started, script, chain⟩ ∈ events →
        script = name ∧ chain = w.active ∨ w.active ++ [name] <+: chain := by
  cases depth with
  | zero => exact ⟨[], rfl, fun _ _ h => nomatch h⟩
  | succ depth =>
    have hattempt := attempt_runWithin compiler depth name w
    generalize runWithin compiler (depth + 1) name w = result at hattempt ⊢
    cases hattempt with
    | unknown => exact ⟨[], rfl, fun _ _ h => nomatch h⟩
    | @refused s | @running s =>
      obtain ⟨before, hbefore, hnone⟩ := journal_refresh w name s compiler
      exact ⟨before, hbefore, fun script chain h => absurd h (hnone script chain)⟩
    | @runs s _ _ _ hr =>
      have hk := hw.keeps_refresh hcomp hname s
      obtain ⟨before, hbefore, hnone⟩ := journal_refresh w name s compiler
      obtain ⟨inner, hinner, hnested⟩ := hk.sound.journal_engage hcomp depth hr
      rw [hk.active] at hinner hnested
      refine ⟨before ++ ⟨.started, name, w.active⟩ :: inner, ?_, fun script chain h => ?_⟩
      · rw [hinner, hbefore]
        simp
      · rcases List.mem_append.1 h with h | h
        · exact absurd h (hnone script chain)
        rcases List.mem_cons.1 h with h | h
        · cases h
          exact .inl ⟨rfl, rfl⟩
        · have hnodup : (w.active ++ [name]).Nodup :=
            List.concat_eq_append ▸ List.Nodup.concat hname hchain
          exact .inr (hnested.chain_of_mem hnodup h).1

/-! ## Who writes -/

/-- While nothing is running, a variable that changes is owned by a script that has started. -/
theorem Footprint.owner_started {events : List Event} (h : w.Footprint w' events) (hw : w.Sound)
    (hw' : w'.Sound) (hactive : w.active = []) {id : SharedId} {e e' : SharedEntry}
    (he : w.table.get? id = some e) (he' : w'.table.get? id = some e') :
    e'.owner = e.owner ∧ (e'.cell.value ≠ e.cell.value → Did events .started e.owner) := by
  obtain ⟨-, howner, hcell⟩ := h.follows.get?_eq hw.sorted hw'.sorted he he'
  refine ⟨howner, fun hne => ?_⟩
  by_contra hstarted
  refine hne (congrArg Cell.value (hcell ?_))
  rintro (hlast | hdid)
  · rw [hactive] at hlast
    cases hlast
  · exact hstarted hdid

/-- The variables of the host are owned by the empty name. If no script has it, none of them
changes. -/
theorem Footprint.host_kept {events : List Event} (h : w.Footprint w' events) (hw : w.Sound)
    (hw' : w'.Sound) (hactive : w.active = []) (hglobals : w'.globals = w.globals)
    (hnone : w.scripts.get? "" = none) {x : String} {id : SharedId}
    (hx : w.globals.shared.get? x = some id) : w'.table.value? id = w.table.value? id := by
  obtain ⟨e, he, howner, -⟩ := hw.shared x id hx
  obtain ⟨e', he', -⟩ := hw'.shared x id (hglobals ▸ hx)
  unfold SharedTable.value?
  rw [he, he']
  refine congrArg some ?_
  by_contra hne
  have hcontains := h.started e.owner ((h.owner_started hw hw' hactive he he').2 hne)
  rw [howner] at hcontains
  obtain ⟨s, hs⟩ := NameMap.contains_iff.1 hcontains
  cases hs.symm.trans hnone

/-- A script that counts how often it has run, and one that runs it and reads the count. -/
def counters : Workspace :=
  ((new.perform Setting.compile (.addShared "time" .integer)).perform Setting.compile
    (.setSource "count" "shared Natural n; n = n + 1;")).perform Setting.compile
      (.setSource "use" "import time; import n from count; dispatch(\"count\"); n + time;")

theorem reachable_counters : Reachable Setting.compile counters :=
  .perform (.perform (.perform .new _) _) _

end Workspace

end VectorScript
