import Mathlib.Data.List.Nodup
import Mathlib.Data.List.Perm.Subperm
import VectorScript.Proofs.Workspace.Course
import VectorScript.Proofs.Workspace.Reachable

/-!
# Nested runs

What a run does to scripts is properly nested (`Nested`): a script is compiled or started only while
it is not running, and a script that has started stays where it is on the chain of running scripts
until it comes to its end. So the chain lists no script twice, runs nest no deeper than there are
scripts, and after a run, however it has ended, everything can be run again.

    Course compiler fun w w' => ∃ events, w'.journal = events.reverse ++ w.journal ∧
      Nested w.active events                                                  (course_happensNested)
-/

namespace VectorScript.Workspace

/-! ## What is nested -/

/-- What may happen, in this order, while a chain of scripts is running: other scripts are compiled,
and other scripts run, each with what happens while it is the innermost of the chain. -/
inductive Nested : List String → List Event → Prop
  | nil (chain : List String) : Nested chain []
  | compile {chain : List String} {deed : Deed} {script : String} {later : List Event}
      (hdeed : deed ≠ .started) (hscript : script ∉ chain) (hlater : Nested chain later) :
      Nested chain (⟨deed, script, chain⟩ :: later)
  | run {chain : List String} {script : String} {inner later : List Event}
      (hscript : script ∉ chain) (hinner : Nested (chain ++ [script]) inner)
      (hlater : Nested chain later) :
      Nested chain (⟨.started, script, chain⟩ :: (inner ++ later))

namespace Nested

variable {chain : List String} {events : List Event}

theorem append {later : List Event} (h : Nested chain events) (h' : Nested chain later) :
    Nested chain (events ++ later) := by
  induction h with
  | nil => exact h'
  | compile hdeed hscript _ ih => exact .compile hdeed hscript (ih h')
  | run hscript hinner _ _ ih =>
    rw [List.cons_append, List.append_assoc]
    exact .run hscript hinner (ih h')

/-- Whatever happens to a script, the chain goes on from where it was, lists no script twice and does
not list that one. -/
theorem chain_of_mem (h : Nested chain events) (hchain : chain.Nodup) {event : Event}
    (he : event ∈ events) :
    chain <+: event.chain ∧ event.chain.Nodup ∧ event.script ∉ event.chain := by
  induction h with
  | nil => cases he
  | compile _ hscript _ ih =>
    rcases List.mem_cons.1 he with rfl | he
    · exact ⟨List.prefix_refl _, hchain, hscript⟩
    · exact ih hchain he
  | @run chain script inner later hscript _ _ ih ih' =>
    rcases List.mem_cons.1 he with rfl | he
    · exact ⟨List.prefix_refl _, hchain, hscript⟩
    rcases List.mem_append.1 he with he | he
    · obtain ⟨hstill, hrest⟩ := ih (List.concat_eq_append ▸ List.Nodup.concat hscript hchain) he
      exact ⟨(List.prefix_append _ _).trans hstill, hrest⟩
    · exact ih' hchain he

end Nested

/-! ## What the journal tells -/

/-- What has happened between two workspaces is nested in what is running. -/
def HappensNested (w w' : Workspace) : Prop :=
  ∃ events, w'.journal = events.reverse ++ w.journal ∧ Nested w.active events

variable {w : Workspace} {compiler : Compiler}

theorem journal_install (w : Workspace) (name : String) (s : Script) (p : Program) :
    (w.install name s p).2.journal = w.journal := by
  unfold install
  dsimp only
  split <;> rfl

/-- A compilation is noted, if there is a script to compile. -/
theorem journal_compile (w : Workspace) (name : String) (compiler : Compiler) :
    (w.compile name compiler).2.journal = w.journal ∨ ∃ deed, deed ≠ Deed.started ∧
      (w.compile name compiler).2.journal = ⟨deed, name, w.active⟩ :: w.journal := by
  unfold compile
  split
  · exact .inl rfl
  · next s hs =>
    right
    dsimp only
    split
    · exact ⟨.compiled, by decide, journal_install _ name s _⟩
    · exact ⟨.refused, by decide, rfl⟩

theorem course_happensNested (compiler : Compiler) : Course compiler HappensNested where
  refl w := ⟨[], rfl, .nil _⟩
  trans _ hab _ h h' := by
    obtain ⟨events, heq, hn⟩ := h
    obtain ⟨later, heq', hn'⟩ := h'
    refine ⟨events ++ later, ?_, hn.append (hab.active ▸ hn')⟩
    rw [heq', heq, List.reverse_append, List.append_assoc]
  random w := ⟨[], rfl, .nil _⟩
  compile {w name} _ hname := by
    rcases journal_compile w name compiler with h | ⟨deed, hdeed, h⟩
    · exact ⟨[], h, .nil _⟩
    · exact ⟨[_], h, .compile hdeed hname (.nil _)⟩
  store _ _ _ _ _ _ _ := ⟨[], rfl, .nil _⟩
  run {w w' name r} memory _ hname _ _ _ h := by
    obtain ⟨inner, heq, hn⟩ := h
    refine ⟨⟨.started, name, w.active⟩ :: (inner ++ []), ?_, .run hname hn (.nil _)⟩
    rw [List.append_nil, List.reverse_cons, List.append_assoc]
    exact heq

/-- A script that is about to run may be compiled first; nothing starts before it. -/
theorem journal_refresh (w : Workspace) (name : String) (s : Script) (compiler : Compiler) :
    ∃ before : List Event, (w.refresh compiler name s).2.journal = before.reverse ++ w.journal ∧
      ∀ script chain, ⟨.started, script, chain⟩ ∉ before := by
  unfold refresh
  split
  · rcases journal_compile w name compiler with h | ⟨deed, hdeed, h⟩
    · exact ⟨[], h, fun _ _ => List.not_mem_nil⟩
    · refine ⟨[_], h, fun script chain hmem => ?_⟩
      cases List.mem_singleton.1 hmem
      exact hdeed rfl
  · exact ⟨[], rfl, fun _ _ => List.not_mem_nil⟩

/-- When a runner runs, its start is noted and then what happens while its script is the innermost
one. -/
theorem Sound.journal_engage (hw : w.Sound) (hcomp : compiler.Sound) (depth : Nat) {name : String}
    {r : Runner} (hr : (w.scripts.get? name).bind Script.runner? = some r) :
    ∃ inner : List Event, (engage (runWithin compiler depth) name r w).2.journal =
      inner.reverse ++ ⟨.started, name, w.active⟩ :: w.journal ∧
        Nested (w.active ++ [name]) inner := by
  obtain ⟨memory, u, hleave, -, -, inner, hinner, hnested⟩ := (course_happensNested compiler).inside
    (fun _ _ hw h => hw.keeps_runWithin hcomp depth h)
    (fun _ _ hw h => (course_happensNested compiler).runWithin hcomp depth hw h) hw hr
  refine ⟨inner, ?_, hnested⟩
  rw [hleave]
  exact hinner

/-! ## How deep runs nest -/

/-- No scripts come or go. -/
theorem names_compile (w : Workspace) (name : String) (compiler : Compiler) :
    (w.compile name compiler).2.scripts.names = w.scripts.names := by
  unfold compile
  split
  · rfl
  · next s hs =>
    dsimp only
    split
    · unfold install
      dsimp only
      split
      · exact NameMap.names_insert hs
      · exact (NameMap.names_map _ _).trans (NameMap.names_insert hs)
    · exact NameMap.names_insert hs

theorem course_names (compiler : Compiler) :
    Course compiler fun w w' => w'.scripts.names = w.scripts.names where
  refl _ := rfl
  trans _ _ _ h h' := h'.trans h
  random w := by
    obtain ⟨seed, hseed⟩ := w.random_snd
    rw [hseed]
  compile {w name} _ _ := names_compile w name compiler
  store _ _ _ _ _ _ _ := rfl
  run _ _ _ _ _ _ h := ((NameMap.names_map _ _).trans h).trans (NameMap.names_map _ _)

theorem size_eq_length_names (w : Workspace) : w.scripts.size = w.scripts.names.length :=
  (List.length_map _).symm

/-- The chain lists no script twice, and all that it lists have programs. -/
structure Chained (w : Workspace) : Prop where
  nodup : w.active.Nodup
  program : ∀ name ∈ w.active, (w.scripts.program? name).isSome = true

theorem Chained.subset (h : w.Chained) : w.active ⊆ w.scripts.names := by
  intro name hname
  obtain ⟨p, hp⟩ := Option.isSome_iff_exists.1 (h.program name hname)
  obtain ⟨s, hs, -⟩ := Option.bind_eq_some_iff.1 hp
  exact NameMap.mem_names.2 (NameMap.contains_iff.2 ⟨s, hs⟩)

/-- While a script is not on the chain, there are fewer scripts on the chain than there are. -/
theorem Chained.length_lt (h : w.Chained) {name : String} (hname : name ∉ w.active)
    (hs : w.scripts.contains name = true) : w.active.length < w.scripts.size := by
  have hsub : name :: w.active ⊆ w.scripts.names :=
    List.cons_subset.2 ⟨NameMap.mem_names.2 hs, h.subset⟩
  rw [size_eq_length_names]
  exact ((List.nodup_cons.2 ⟨hname, h.nodup⟩).subperm hsub).length_le

theorem Chained.keeps {w' : Workspace} (h : w.Chained) (hk : w.Keeps w' (· ∈ w.active)) :
    w'.Chained := by
  refine ⟨hk.active ▸ h.nodup, fun name hname => ?_⟩
  rw [hk.active] at hname
  rw [hk.programs name hname]
  exact h.program name hname

theorem Chained.enter (h : w.Chained) {name : String} (hname : name ∉ w.active) {p : Program}
    (hp : w.scripts.program? name = some p) : (w.enter name).Chained := by
  constructor
  · show (w.active ++ [name]).Nodup
    exact List.concat_eq_append ▸ List.Nodup.concat hname h.nodup
  · intro other hother
    rw [program?_enter]
    rcases List.mem_append.1 hother with hother | hother
    · exact h.program other hother
    · rw [List.mem_singleton.1 hother, hp]
      rfl

/-- A way to run scripts. -/
abbrev Runs := String → Workspace → Except Fault Unit × Workspace

/-- What is done to run a script: it is compiled first if need be, and then its runner plays. -/
def launch (compiler : Compiler) (play : String → Runner → Workspace → Except Fault Unit × Workspace)
    (name : String) (w : Workspace) : Except Fault Unit × Workspace :=
  match w.scripts.get? name with
  | none => (.error (.about .dispatchNotFound name), w)
  | some s =>
    match w.refresh compiler name s with
    | (.error e, w) => (.error ((Fault.about .compilationFailed name).because e.render), w)
    | (.ok (), w) =>
      match (w.scripts.get? name).bind Script.runner? with
      | none => (.error (.about .cyclicDispatch name), w)
      | some r => play name r w

theorem runWithin_succ (compiler : Compiler) (depth : Nat) (name : String) (w : Workspace) :
    runWithin compiler (depth + 1) name w =
      launch compiler (engage (runWithin compiler depth)) name w := rfl

/-- Where there is no script nothing plays. -/
theorem launch_missing {name : String} (h : ¬w.scripts.contains name = true)
    (play : String → Runner → Workspace → Except Fault Unit × Workspace) :
    launch compiler play name w = (.error (.about .dispatchNotFound name), w) := by
  have hnone : w.scripts.get? name = none := by
    rw [Option.eq_none_iff_forall_ne_some]
    exact fun s hs => h (NameMap.contains_iff.2 ⟨s, hs⟩)
  rw [launch, hnone]

/-- It only matters how a runner plays where one starts to play. -/
theorem Sound.launch_congr (hw : w.Sound) (hcomp : compiler.Sound) {name : String}
    (hname : name ∉ w.active)
    {play play' : String → Runner → Workspace → Except Fault Unit × Workspace}
    (h : ∀ s r, (w.scripts.get? name) = some s →
      w.Keeps (w.refresh compiler name s).2 (· ∈ w.active) →
      ((w.refresh compiler name s).2.scripts.get? name).bind Script.runner? = some r →
      play' name r (w.refresh compiler name s).2 = play name r (w.refresh compiler name s).2) :
    launch compiler play' name w = launch compiler play name w := by
  unfold launch
  split
  · rfl
  · next s hs =>
    have hk := hw.keeps_refresh hcomp hname s
    have hplay := fun r => h s r hs hk
    generalize w.refresh compiler name s = result at hplay ⊢
    obtain ⟨outcome, w'⟩ := result
    cases outcome with
    | error e => rfl
    | ok u =>
      dsimp only at hplay ⊢
      split
      · rfl
      · next r hr => exact hplay r hr

/-- Runners play in the same way where the scripts that they may dispatch run in the same way. -/
theorem Sound.engage_congr {R : Workspace → Workspace → Prop} (hR : Course compiler R)
    (hw : w.Sound) (hcomp : compiler.Sound) {depth : Nat} {run : Runs} {name : String} {r : Runner}
    (hr : (w.scripts.get? name).bind Script.runner? = some r)
    (h : ∀ script u, (w.enter name).Keeps u (· ∈ (w.enter name).active) → R (w.enter name) u →
      script ∉ u.active → u.scripts.contains script = true →
      run script u = runWithin compiler depth script u) :
    engage run name r w = engage (runWithin compiler depth) name r w := by
  obtain ⟨hp, hm⟩ := hw.runner_of hr
  have hsteady := hR.steady (fun _ _ hw h => hw.keeps_runWithin hcomp depth h)
    (fun _ _ hw h => hR.runWithin hcomp depth hw h) (hw.enter name) List.getLast?_concat
    ((program?_enter w name name).trans hp)
  have hother : Callees.Steady _ ⟨r.program.functions, dispatchBy run⟩ _ _ :=
    hsteady.other rfl fun script memory u ⟨⟨hk, _⟩, hR'⟩ => ?_
  · exact (alike_engage hother ⟨⟨.refl (hw.enter name) _, hm⟩, hR.refl _⟩).1
  show dispatchBy run script u = dispatchBy (runWithin compiler depth) script u
  unfold dispatchBy
  split
  · rfl
  · next hactive =>
    split
    · rfl
    · next hcontains =>
      rw [h script u hk hR' (fun h => hactive (List.contains_iff_mem.2 h)) (by simpa using hcontains)]

theorem Course.and {R R' : Workspace → Workspace → Prop} (h : Course compiler R)
    (h' : Course compiler R') : Course compiler fun w w' => R w w' ∧ R' w w' where
  refl w := ⟨h.refl w, h'.refl w⟩
  trans ha hab hbc hr hs := ⟨h.trans ha hab hbc hr.1 hs.1, h'.trans ha hab hbc hr.2 hs.2⟩
  random w := ⟨h.random w, h'.random w⟩
  compile hw hname := ⟨h.compile hw hname, h'.compile hw hname⟩
  store v path hw hlast hp hm hslot :=
    ⟨h.store v path hw hlast hp hm hslot, h'.store v path hw hlast hp hm hslot⟩
  run memory hw hname hr hsize hk hR :=
    ⟨h.run memory hw hname hr hsize hk hR.1, h'.run memory hw hname hr hsize hk hR.2⟩

theorem course_true (compiler : Compiler) : Course compiler fun _ _ => True → True :=
  ⟨fun _ => id, fun _ _ _ _ _ => id, fun _ => id, fun _ _ => id, fun _ _ _ _ _ _ _ => id,
    fun _ _ _ _ _ _ _ => id⟩

/-- Ways to run scripts, one for each depth, of which each does what a run does with the next one for
what is dispatched, run scripts as they are run. The workspaces may be of a kind that lasts. It does
not matter what the last one does, for there is nothing left to dispatch when as many scripts are
running as there are. The induction is on the depth. -/
theorem Sound.eq_runWithin {I : Workspace → Prop} (hI : Course compiler fun w w' => I w → I w')
    (henter : ∀ (w : Workspace) name, I w → I (w.enter name)) (hcomp : compiler.Sound)
    {F : Nat → Runs}
    (hF : ∀ (depth : Nat) (name : String) (w : Workspace), w.Sound → I w → name ∉ w.active →
      F (depth + 1) name w = launch compiler (engage (F depth)) name w)
    (hw : w.Sound) (hchain : w.Chained) (hwI : I w) {depth depth' : Nat}
    (hd : w.scripts.size ≤ depth + w.active.length)
    (hd' : w.scripts.size ≤ depth' + w.active.length) {name : String} (hname : name ∉ w.active)
    (hs : w.scripts.contains name = true) : F depth name w = runWithin compiler depth' name w := by
  have hR := (course_names compiler).and hI
  induction depth generalizing depth' name w with
  | zero =>
    have := hchain.length_lt hname hs
    omega
  | succ depth ih =>
    cases depth' with
    | zero =>
      have := hchain.length_lt hname hs
      omega
    | succ depth' =>
      rw [hF depth name w hw hwI hname, runWithin_succ]
      refine hw.launch_congr hcomp hname fun s r _ hk hr => ?_
      have hrefreshed := hR.refresh hw hname s
      generalize (w.refresh compiler name s).2 = w' at hk hr hrefreshed ⊢
      obtain ⟨hnames, hkept⟩ := hrefreshed
      have hw' := hk.sound
      have hchain' := (hchain.keeps hk).enter (hk.active ▸ hname) (hw'.runner_of hr).1
      have hlength : (w'.enter name).active.length = w.active.length + 1 := by
        show (w'.active ++ [name]).length = _
        rw [List.length_append, hk.active]
        rfl
      refine hw'.engage_congr hR hcomp hr fun script u hku hu hscript hcontains => ?_
      -- No script comes or goes in a run, so the depth left is enough for the dispatched script.
      have hsize : u.scripts.size = w.scripts.size := by
        rw [size_eq_length_names, size_eq_length_names, hu.1, ← hnames]
        exact congrArg List.length (NameMap.names_map _ _)
      have hactive := congrArg List.length hku.active
      exact ih hku.sound (hchain'.keeps hku) (hu.2 (henter w' name (hkept hwI))) (by omega) (by omega)
        hscript hcontains

/-- It does not matter how deep runs may nest if they may nest deeper than there are scripts that are
not running. -/
theorem Sound.runWithin_eq (hw : w.Sound) (hcomp : compiler.Sound) (hchain : w.Chained)
    {depth depth' : Nat} (hd : w.scripts.size < depth + w.active.length)
    (hd' : w.scripts.size < depth' + w.active.length) {name : String} (hname : name ∉ w.active) :
    runWithin compiler depth' name w = runWithin compiler depth name w := by
  by_cases hs : w.scripts.contains name = true
  · exact hw.eq_runWithin (course_true compiler) (fun _ _ => id) hcomp (fun _ _ _ _ _ _ => rfl)
      hchain trivial (Nat.le_of_lt hd') (Nat.le_of_lt hd) hname hs
  · have hle : w.active.length ≤ w.scripts.size := by
      rw [size_eq_length_names]
      exact (hchain.nodup.subperm hchain.subset).length_le
    cases depth with
    | zero => omega
    | succ depth =>
      cases depth' with
      | zero => omega
      | succ depth' =>
        rw [runWithin_succ, runWithin_succ, launch_missing hs, launch_missing hs]

/-! ## Running again -/

/-- A script with a program that is not running has a runner, which executes that program. -/
theorem Counted.runner?_eq (hw : w.Counted) {name : String} (hname : name ∉ w.active) {p : Program}
    (hp : w.scripts.program? name = some p) :
    ∃ r, (w.scripts.get? name).bind Script.runner? = some r ∧ r.program = p := by
  obtain ⟨s, hs, hsp⟩ := Option.bind_eq_some_iff.1 hp
  obtain ⟨i, hi, rfl⟩ := Option.map_eq_some_iff.1 hsp
  refine ⟨⟨i.program, i.memory⟩, ?_, rfl⟩
  rw [hs, Option.bind_some, Script.runner?, hi]
  exact (hw.manned name s i hs hi).runner_eq hname

/-- A script that is not running can be run: either it starts, or it has to be compiled first and does
not compile. -/
def Startable (w : Workspace) (compiler : Compiler) (name : String) : Prop :=
  (∃ e, (w.compile name compiler).1 = .error e ∧ (w.run name compiler).1 =
    .error ((Fault.about .compilationFailed name).because e.render)) ∨
  ∃ events : List Event, (w.run name compiler).2.journal = events.reverse ++ w.journal ∧
    ⟨.started, name, w.active⟩ ∈ events

/-- A script that has been compiled if need be has a program. -/
theorem Sound.program?_refresh (hw : w.Sound) (hcomp : compiler.Sound) {name : String}
    (hname : name ∉ w.active) {s : Script} (hs : w.scripts.get? name = some s) :
    (∃ e, (w.compile name compiler).1 = .error e ∧ (w.refresh compiler name s).1 = .error e) ∨
      (w.refresh compiler name s).1 = .ok () ∧
        ∃ p, (w.refresh compiler name s).2.scripts.program? name = some p := by
  unfold refresh
  split
  · cases hr : (w.compile name compiler).1 with
    | error e => exact .inl ⟨e, rfl, rfl⟩
    | ok u => exact .inr ⟨rfl, hw.program?_of_compile hcomp hname hr⟩
  · next h =>
    right
    obtain ⟨i, hi⟩ : ∃ i, s.installed = some i := by
      rw [← Option.isSome_iff_exists]
      simp only [Bool.or_eq_true, not_or, Option.isNone_iff_eq_none] at h
      exact Option.isSome_iff_ne_none.2 h.2
    exact ⟨rfl, i.program, Scripts.program?_eq hs hi⟩

theorem Sound.startable (hw : w.Sound) (hcomp : compiler.Sound) {name : String}
    (hname : name ∉ w.active) {s : Script} (hs : w.scripts.get? name = some s) :
    w.Startable compiler name := by
  unfold Startable Workspace.run
  rw [runWithin, hs]
  dsimp only
  have hk := hw.keeps_refresh hcomp hname s
  obtain ⟨before, hbefore, -⟩ := journal_refresh w name s compiler
  rcases hw.program?_refresh hcomp hname hs with ⟨e, he, hr⟩ | ⟨hr, p, hp⟩
  · left
    refine ⟨e, he, ?_⟩
    generalize w.refresh compiler name s = result at hr
    obtain ⟨outcome, w'⟩ := result
    cases hr
    rfl
  · right
    generalize w.refresh compiler name s = result at hr hk hbefore hp
    obtain ⟨outcome, w'⟩ := result
    cases hr
    dsimp only at hk hbefore hp ⊢
    obtain ⟨r, hr, -⟩ := hk.sound.runner?_eq (hk.active ▸ hname) hp
    rw [hr]
    dsimp only
    obtain ⟨inner, hinner, -⟩ := hk.sound.journal_engage hcomp w.scripts.size hr
    refine ⟨before ++ ⟨.started, name, w.active⟩ :: inner, ?_, by simp⟩
    rw [hinner, hbefore, hk.active]
    simp

/-! ## Bookkeeping -/

/-- While nothing is running each installed program has its runner, with memory that fits. -/
theorem runner_of_reachable {w : Workspace} (h : Reachable Setting.compile w) {name : String}
    {s : Script} {i : Installed} (hs : w.scripts.get? name = some s) (hi : s.installed = some i) :
    i.runner = some ⟨i.program, i.memory⟩ ∧ i.memory.Fits i.program.slots := by
  obtain ⟨hw, hactive⟩ := sound_of_reachable Setting.sound_compile h
  have hmanned := hw.manned name s i hs hi
  rw [hactive] at hmanned
  exact ⟨hmanned.runner_eq List.not_mem_nil, hmanned.fits List.not_mem_nil⟩

/-- Dispatching leaves everything in its place. While nothing is done in a workspace no script is
running, and each script with a program has a runner that executes just that program. Whatever is
run or dispatched, what happens until it ends is nested: the chain of running scripts lists none
twice, and none of them is compiled or started again; to dispatch one of them is a cyclic dispatch,
which does nothing. Runs nest no deeper than there are scripts, whatever they may. After the run,
however it has ended, the chain is as it was, each script still has the runner of its program, and
every script can be run again. -/
theorem dispatch_nested (h : Reachable Setting.compile w) :
    (w.active = [] ∧ ∀ name s i, w.scripts.get? name = some s → s.installed = some i →
      i.runner = some ⟨i.program, i.memory⟩ ∧ i.memory.Fits i.program.slots) ∧
    (∀ run script (w' : Workspace), script ∈ w'.active →
      dispatchBy run script w' = (.error (.about .cyclicDispatch script), w')) ∧
    (∀ name depth, w.scripts.size < depth →
      runWithin Setting.compile depth name w = w.run name) ∧
    ∀ name w', (w' = (w.run name).2 ∨ w' = (w.dispatch name).2) →
      (∃ events, w'.journal = events.reverse ++ w.journal ∧ Nested w.active events ∧
        ∀ event ∈ events, event.chain.Nodup ∧ event.script ∉ event.chain) ∧
      w'.active = w.active ∧
      (∀ other s i, w'.scripts.get? other = some s → s.installed = some i →
        i.runner = some ⟨i.program, i.memory⟩) ∧
      ∀ other s, w'.scripts.get? other = some s → w'.Startable Setting.compile other := by
  obtain ⟨hw, hactive⟩ := sound_of_reachable Setting.sound_compile h
  have hnone : ∀ name, name ∉ w.active := by
    rw [hactive]
    exact fun _ => List.not_mem_nil
  have hchain : w.Chained := ⟨hactive ▸ .nil, fun name hname => absurd hname (hnone name)⟩
  refine ⟨⟨hactive, fun _ _ _ => runner_of_reachable h⟩, fun run script w' hscript => ?_,
    fun name depth hd => ?_, fun name w' hw' => ?_⟩
  · unfold dispatchBy
    rw [if_pos (List.contains_iff_mem.2 hscript)]
  · refine hw.runWithin_eq Setting.sound_compile hchain ?_ ?_ (hnone name)
    · exact Nat.lt_of_lt_of_le (Nat.lt_succ_self _) (Nat.le_add_right _ _)
    · exact Nat.lt_of_lt_of_le hd (Nat.le_add_right _ _)
  · have hcourse := course_happensNested Setting.compile
    have hnested : HappensNested w w' := by
      rcases hw' with rfl | rfl
      · exact hcourse.runWithin Setting.sound_compile _ hw (hnone name)
      · exact hcourse.dispatchBy
          (fun _ _ hw h => hcourse.runWithin Setting.sound_compile _ hw h) hw name
    have hreach : Reachable Setting.compile w' := by
      rcases hw' with rfl | rfl
      · exact .perform h (.run name)
      · exact .perform h (.dispatch name)
    obtain ⟨hsound, hidle⟩ := sound_of_reachable Setting.sound_compile hreach
    obtain ⟨events, hjournal, hevents⟩ := hnested
    refine ⟨⟨events, hjournal, hevents, fun event he =>
        (hevents.chain_of_mem hchain.nodup he).2⟩, hidle.trans hactive.symm,
      fun other s i hs hi => (runner_of_reachable hreach hs hi).1, fun other s hs => ?_⟩
    exact hsound.startable Setting.sound_compile (by rw [hidle]; exact List.not_mem_nil) hs

/-- Two scripts that dispatch each other. -/
def ringOfScripts : Workspace :=
  (new.perform Setting.compile (.setSource "ping" "dispatch(\"pong\");")).perform Setting.compile
    (.setSource "pong" "dispatch(\"ping\");")

theorem reachable_ringOfScripts : Reachable Setting.compile ringOfScripts :=
  .perform (.perform .new _) _

/-- The inner dispatch is refused, and nothing is running afterwards. -/
theorem dispatch_nested_ring :
    (ringOfScripts.run "ping").2.journal = [⟨.started, "pong", ["ping"]⟩, ⟨.started, "ping", []⟩,
      ⟨.compiled, "pong", []⟩, ⟨.compiled, "ping", []⟩] ∧
    (ringOfScripts.run "ping").2.active = ringOfScripts.active ∧
    ∀ other s, (ringOfScripts.run "ping").2.scripts.get? other = some s →
      (ringOfScripts.run "ping").2.Startable Setting.compile other := by
  obtain ⟨-, hactive, -, hstartable⟩ :=
    (dispatch_nested reachable_ringOfScripts).2.2.2 "ping" _ (.inl rfl)
  exact ⟨by decide +kernel, hactive, hstartable⟩

end VectorScript.Workspace
