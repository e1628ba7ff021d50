import VectorScript.Proofs.Machine.Structured
import VectorScript.Proofs.Workspace.Footprint
import VectorScript.Proofs.Workspace.History

/-!
# Every run ends

Three things could keep a run from ending, and none of them can happen. A program could go back: its
jumps all go forward, so it executes each of its statements at most once. Runs could nest without end:
scripts that are running are not dispatched, so they nest no deeper than there are scripts. And new
scripts could turn up: while scripts run, none comes and none goes. A run under watch (`runWatched`)
gives up as soon as one of these happens, with whatever answer, and that answer never shows.

    Reachable Setting.compile w → w.scripts.contains name →
      runWatched Setting.compile w.scripts.names beyond w.scripts.size name w = w.run name   (runs_end)
-/

namespace VectorScript

/-- Every jump of a program that a text compiles to goes forward, and at most to the end. -/
theorem Setting.advancing_compile {s : Setting} {source : String} {p : Program}
    (h : (s.compile source).1 = .ok p) : Advancing p.statements := by
  obtain ⟨body, d, statements, -, hflatten, rfl, -⟩ := compile_eq_ok h
  exact Stmt.advancing_flattenAll body hflatten

/-- The compiler lets only programs with the property through. -/
def Compiler.Lets (compiler : Compiler) (P : Program → Prop) : Prop :=
  ∀ s source p, (compiler s source).1 = .ok p → P p

namespace Workspace

/-! ## Properties of all programs -/

/-- Every program has the property. -/
def Each (P : Program → Prop) (w : Workspace) : Prop :=
  ∀ name p, w.scripts.program? name = some p → P p

variable {P : Program → Prop} {w : Workspace} {compiler : Compiler}

theorem each_iff : w.Each P ↔ ∀ e ∈ w.scripts.entries, ∀ p ∈ e.2.program?, P p := by
  constructor
  · exact fun h e he p hp => h e.1 p (Option.bind_eq_some_iff.2 ⟨e.2, NameMap.mem_entries.1 he, hp⟩)
  · intro h name p hp
    obtain ⟨s, hs, hp⟩ := Option.bind_eq_some_iff.1 hp
    exact h (name, s) (NameMap.mem_entries.2 hs) p hp

instance [DecidablePred P] : Decidable (w.Each P) := decidable_of_iff' _ each_iff

/-- There are no programs but those that are compiled. -/
theorem lasting_each (hcomp : compiler.Sound) (hlets : compiler.Lets P) :
    Lasting compiler (fun _ => True) (Each P) where
  new _ _ hp := nomatch hp
  fewer h _ hfewer name p hp := h name p (hfewer name p hp)
  addFunction _ h := h
  compile {w name} hw hname h other p hp := by
    rcases hw.compiled_of_program? hcomp hname hp with hold | ⟨-, source, hok⟩
    · exact h other p hold
    · exact hlets _ source p hok

theorem each_of_reachable (hcomp : compiler.Sound) (hlets : compiler.Lets P)
    (h : Reachable compiler w) : w.Each P := (lasting_each hcomp hlets).of_reachable hcomp h

/-! ## Runs under watch -/

open Classical in
/-- Runs a script, where at most so many runs may nest, the scripts are those named and every program
that starts advances. As soon as one of these fails it answers with what is `beyond`. -/
noncomputable def runWatched (compiler : Compiler) (names : List String) (beyond : Runs) : Nat → Runs
  | 0, name, w => beyond name w
  | depth + 1, name, w =>
    if w.scripts.names = names then
      launch compiler (fun name r w =>
        if Advancing r.program.statements then
          engage (runWatched compiler names beyond depth) name r w
        else beyond name w) name w
    else beyond name w

/-- Nothing has happened that is watched for. -/
structure Regular (names : List String) (w : Workspace) : Prop where
  names : w.scripts.names = names
  advancing : w.Each fun p => Advancing p.statements

variable {names : List String}

theorem Regular.enter (h : w.Regular names) (name : String) : (w.enter name).Regular names :=
  ⟨(NameMap.names_map _ _).trans h.names, fun other p hp =>
    h.advancing other p ((program?_enter w name other).symm.trans hp)⟩

theorem Regular.leave (h : w.Regular names) (name : String) (r : Runner) :
    (w.leave name r).Regular names :=
  ⟨(NameMap.names_map _ _).trans h.names, fun other p hp =>
    h.advancing other p ((program?_modifyInstalled (program_putBack r) other).symm.trans hp)⟩

theorem course_regular (hcomp : compiler.Sound)
    (hlets : compiler.Lets fun p => Advancing p.statements) (names : List String) :
    Course compiler fun w w' => w.Regular names → w'.Regular names where
  refl _ := id
  trans _ _ _ h h' := h' ∘ h
  random w h := by
    obtain ⟨seed, hseed⟩ := w.random_snd
    rw [hseed]
    exact ⟨h.names, h.advancing⟩
  compile {w name} hw hname h :=
    ⟨(names_compile w name compiler).trans h.names,
      (lasting_each hcomp hlets).compile hw hname h.advancing⟩
  store _ _ _ _ _ _ _ h := ⟨h.names, h.advancing⟩
  run _ _ _ _ _ _ h hw := (h (hw.enter _)).leave _ _

/-- What is watched for never happens. -/
theorem Sound.runWatched_eq (hw : w.Sound) (hcomp : compiler.Sound)
    (hlets : compiler.Lets fun p => Advancing p.statements) (hchain : w.Chained)
    (hregular : w.Regular names) (beyond : Runs) {depth depth' : Nat}
    (hd : w.scripts.size ≤ depth + w.active.length)
    (hd' : w.scripts.size ≤ depth' + w.active.length) {name : String} (hname : name ∉ w.active)
    (hs : w.scripts.contains name = true) :
    runWatched compiler names beyond depth name w = runWithin compiler depth' name w := by
  have hcourse := course_regular hcomp hlets names
  refine hw.eq_runWithin hcourse (fun u other hu => hu.enter other) hcomp
    (fun depth other u hu hregular hother => ?_) hchain hregular hd hd' hname hs
  rw [runWatched, if_pos hregular.names]
  refine hu.launch_congr hcomp hother fun s r _ hk hr => ?_
  have hrefreshed := hcourse.refresh hu hother s hregular
  rw [if_pos (hrefreshed.advancing other r.program (hk.sound.runner_of hr).1)]

/-! ## The end of a run -/

/-- Nothing runs on behalf of scripts that have not been started. -/
theorem Nested.did_of_mem_chain {chain : List String} {events : List Event} (h : Nested chain events)
    {event : Event} (he : event ∈ events) {script : String} (hscript : script ∈ event.chain) :
    script ∈ chain ∨ Did events .started script := by
  induction h with
  | nil => cases he
  | @compile chain deed other later _ _ _ ih =>
    rcases List.mem_cons.1 he with rfl | he
    · exact .inl hscript
    · exact (ih he).imp_right fun ⟨c, hc⟩ => ⟨c, List.mem_cons_of_mem _ hc⟩
  | @run chain other inner later _ _ _ ih ih' =>
    rcases List.mem_cons.1 he with rfl | he
    · exact .inl hscript
    rcases List.mem_append.1 he with he | he
    · rcases ih he with h | ⟨c, hc⟩
      · rcases List.mem_append.1 h with h | h
        · exact .inl h
        · rw [List.mem_singleton.1 h]
          exact .inr ⟨chain, List.mem_cons_self⟩
      · exact .inr ⟨c, List.mem_cons_of_mem _ (List.mem_append_left _ hc)⟩
    · exact (ih' he).imp_right fun ⟨c, hc⟩ => ⟨c, List.mem_cons_of_mem _ (List.mem_append_right _ hc)⟩

/-- The chain of a script that starts has room for that script too among the scripts there are. -/
theorem Sound.nesting_le (hw : w.Sound) (hcomp : compiler.Sound) (hidle : w.active = [])
    (name : String) : ∃ events : List Event,
      (w.run name compiler).2.journal = events.reverse ++ w.journal ∧
      ∀ script chain, ⟨.started, script, chain⟩ ∈ events → chain.length + 1 ≤ w.scripts.size := by
  have hname : name ∉ w.active := by simp [hidle]
  obtain ⟨events, hjournal, hnested⟩ : w.HappensNested (w.run name compiler).2 :=
    (course_happensNested compiler).runWithin hcomp _ hw hname
  obtain ⟨events', hfootprint⟩ : ∃ events, w.Footprint (w.run name compiler).2 events :=
    (course_footprint hcomp).runWithin hcomp _ hw hname
  obtain rfl : events' = events :=
    List.reverse_injective (List.append_cancel_right (hfootprint.journal.symm.trans hjournal))
  refine ⟨events', hjournal, fun script chain he => ?_⟩
  rw [hidle] at hnested
  obtain ⟨-, hnodup, hnew⟩ := hnested.chain_of_mem .nil he
  have hsub : script :: chain ⊆ w.scripts.names := by
    refine List.cons_subset.2 ⟨NameMap.mem_names.2 (hfootprint.started script ⟨chain, he⟩),
      fun other hother => ?_⟩
    rcases hnested.did_of_mem_chain he hother with h | hdid
    · cases h
    · exact NameMap.mem_names.2 (hfootprint.started other hdid)
  rw [size_eq_length_names]
  exact ((List.nodup_cons.2 ⟨hnew, hnodup⟩).subperm hsub).length_le

/-- There is only one way to run scripts that does what a run does, with itself for what is
dispatched. -/
theorem Sound.unique (hw : w.Sound) (hcomp : compiler.Sound) (hchain : w.Chained) {run : Runs}
    (hrun : ∀ name w, run name w = launch compiler (engage run) name w) {name : String}
    (hname : name ∉ w.active) : run name w = w.run name compiler := by
  by_cases hs : w.scripts.contains name = true
  · let F : Nat → Runs := fun _ => run
    have hF : ∀ (depth : Nat) (name : String) (w : Workspace), w.Sound → True → name ∉ w.active →
        F (depth + 1) name w = launch compiler (engage (F depth)) name w :=
      fun _ name w _ _ _ => hrun name w
    exact hw.eq_runWithin (course_true compiler) (fun _ _ => id) hcomp hF hchain trivial
      (Nat.le_add_right w.scripts.size _)
      (Nat.le_trans (Nat.le_succ w.scripts.size) (Nat.le_add_right _ _)) hname hs
  · rw [hrun, Workspace.run, runWithin_succ, launch_missing hs, launch_missing hs]

/-- Every run ends, whatever the scripts dispatch. Each statement of a program goes forward, and at
most to the end, so a program executes each of its statements at most once. A run does not come to
what is beyond as many nested runs as there are scripts, or beyond the scripts that there are, or
beyond programs that go forward; so it is the only way to run scripts that does what a run does, with
itself for what is dispatched. The scripts are the same afterwards, and no script has started on behalf
of as many others as there are. -/
theorem runs_end (h : Reachable Setting.compile w) :
    (∀ script p, w.scripts.program? script = some p →
      (∀ pc s, p.statements[pc]? = some s → ∀ callees m d m',
        Exec.statement callees s m = .ok d m' → 1 ≤ d ∧ pc + d ≤ p.statements.length) ∧
      ∀ callees m, ∃ visited, Exec.Walk callees p.statements 0 m visited
          (Exec.statements callees 0 p.statements m) ∧
        visited.Pairwise (· < ·) ∧ ∀ pc ∈ visited, pc < p.statements.length) ∧
    ∀ name,
      (w.scripts.contains name = true → ∀ beyond,
        runWatched Setting.compile w.scripts.names beyond w.scripts.size name w = w.run name) ∧
      (∀ run : Runs, (∀ name w, run name w = launch Setting.compile (engage run) name w) →
        run name w = w.run name) ∧
      (w.run name).2.scripts.names = w.scripts.names ∧
      ∃ events : List Event, (w.run name).2.journal = events.reverse ++ w.journal ∧
        ∀ script chain, ⟨.started, script, chain⟩ ∈ events → chain.length + 1 ≤ w.scripts.size := by
  have hlets : Compiler.Lets Setting.compile fun p => Advancing p.statements :=
    fun _ _ _ => Setting.advancing_compile
  have heach := each_of_reachable Setting.sound_compile hlets h
  obtain ⟨hw, hidle⟩ := sound_of_reachable Setting.sound_compile h
  have hnone : ∀ name, name ∉ w.active := by simp [hidle]
  have hchain : w.Chained := ⟨hidle ▸ .nil, fun name hname => absurd hname (hnone name)⟩
  refine ⟨fun script p hp => ⟨fun pc s hs callees m d m' hstep => ?_, fun callees m => ?_⟩,
    fun name => ⟨fun hs beyond => ?watched, fun run hrun => ?unique, ?names,
      hw.nesting_le Setting.sound_compile hidle name⟩⟩
  · exact Exec.advance_le (heach script p hp) hs hstep
  · obtain ⟨visited, hwalk, hsorted, hrange⟩ := Exec.walk_of_advancing callees (heach script p hp) 0 m
    exact ⟨visited, hwalk, hsorted, fun pc hpc => (hrange pc hpc).2⟩
  case watched =>
    exact hw.runWatched_eq Setting.sound_compile hlets hchain ⟨rfl, heach⟩ beyond (by omega) (by omega)
      (hnone name) hs
  case unique =>
    exact hw.unique Setting.sound_compile hchain hrun (hnone name)
  case names => exact (course_names Setting.compile).runWithin Setting.sound_compile _ hw (hnone name)

/-- Scripts that dispatch each other are stopped at the second, of as many as there are. -/
theorem runs_end_ring :
    (∀ beyond, runWatched Setting.compile ["ping", "pong"] beyond 2 "ping" ringOfScripts =
      ringOfScripts.run "ping") ∧
    (ringOfScripts.run "ping").2.scripts.names = ["ping", "pong"] ∧
    (ringOfScripts.run "ping").1.toOption = none := by
  obtain ⟨-, hrun⟩ := runs_end reachable_ringOfScripts
  obtain ⟨hwatched, -, hnames, -⟩ := hrun "ping"
  have hscripts : ringOfScripts.scripts.names = ["ping", "pong"] := by decide +kernel
  have hsize : ringOfScripts.scripts.size = 2 := by rw [size_eq_length_names, hscripts]; rfl
  have hcontains : ringOfScripts.scripts.contains "ping" = true := by decide +kernel
  rw [hscripts] at hwatched hnames
  rw [hsize] at hwatched
  exact ⟨hwatched hcontains, hnames, by decide +kernel⟩

end Workspace

end VectorScript
