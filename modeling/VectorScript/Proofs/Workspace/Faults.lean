import VectorScript.Proofs.Compilation.Program
import VectorScript.Proofs.Machine.Late
import VectorScript.Proofs.Token.Tiling
import VectorScript.Proofs.Workspace.History

/-!
# Whose fault it is

The number of a fault tells when it arose. What is wrong with a text shows when it is compiled: such a
fault has a number below 100 and stands at a token of the text, or at its end. What goes wrong in a run,
where there are no functions but those of the library, has a number from 100 on.

    Reachable Setting.compile w → (compile fails early, at a token or the end) ∧
      (w.Equipped (· ∈ Library.functions) → FailsLate (w.run name).1)                (faults_in_time)
-/

namespace VectorScript

namespace Workspace

variable {w : Workspace} {name : String}

/-! ## The functions of a workspace -/

/-- The functions of the host are such, and so are those that programs were compiled with. -/
structure Equipped (P : HostFunction → Prop) (w : Workspace) : Prop where
  globals : ∀ f ∈ w.globals.functions, P f
  programs : ∀ name p, w.scripts.program? name = some p → ∀ f ∈ p.functions, P f

variable {P : HostFunction → Prop}

theorem Equipped.mono {P' : HostFunction → Prop} (h : w.Equipped P) (hP : ∀ f, P f → P' f) :
    w.Equipped P' :=
  ⟨fun f hf => hP f (h.globals f hf), fun name p hp f hf => hP f (h.programs name p hp f hf)⟩

/-- If the library's functions are such, there are no others as long as the host registers none. -/
theorem lasting_equipped (hlibrary : ∀ f ∈ Library.functions, P f) :
    Lasting Setting.compile P (Equipped P) where
  new := ⟨fun f hf => hlibrary f (Globals.functions_standard f hf), fun _ _ hp => nomatch hp⟩
  fewer h hfunctions hfewer :=
    ⟨hfunctions ▸ h.globals, fun name p hp => h.programs name p (hfewer name p hp)⟩
  addFunction hadded h := by
    refine ⟨fun f hf => ?_, h.programs⟩
    rcases Globals.mem_functions_addFunction hf with rfl | hf
    · exact hadded
    · exact h.globals f hf
  compile {w name} hw hname h := by
    refine ⟨(hw.keeps_compile Setting.sound_compile hname).globals ▸ h.globals, fun other p hp => ?_⟩
    rcases hw.compiled_of_program? Setting.sound_compile hname hp with hold | ⟨-, source, hok⟩
    · exact h.programs other p hold
    · obtain ⟨_, _, _, -, -, rfl, -⟩ := Setting.compile_eq_ok hok
      exact h.globals

/-! ## Runs -/

/-- A script that is dispatched fails late if scripts that are not running do when they run. -/
theorem failsLate_dispatchBy {run : String → Workspace → Except Fault Unit × Workspace}
    {script : String} (hrun : script ∉ w.active → FailsLate (run script w).1) :
    FailsLate (dispatchBy run script w).1 := by
  unfold dispatchBy
  split
  · exact .error rfl
  · next hactive =>
    split
    · exact .error rfl
    · have hlate := hrun fun h => hactive (List.contains_iff_mem.2 h)
      dsimp only
      cases hr : (run script w).1 with
      | ok u => exact .ok u
      | error e =>
        have he := hlate e hr
        refine .error ?_
        show Fault.isRuntime (if e.position.isSome then e.inScript script else e) = true
        split <;> exact he

/-- A run fails late. The induction is on how deep runs may still nest. -/
theorem Sound.failsLate_runWithin (hw : w.Sound) (hlate : w.Equipped HostFunction.Late) (depth : Nat)
    (hname : name ∉ w.active) : FailsLate (runWithin Setting.compile depth name w).1 := by
  have hlasting := lasting_equipped Library.late_library
  have hcourse := hlasting.history.toCourse
  induction depth generalizing name w with
  | zero => exact .error rfl
  | succ depth ih =>
    have hkeeps : ∀ script (w : Workspace), w.Sound → script ∉ w.active →
        w.Keeps (runWithin Setting.compile depth script w).2 (· ∈ w.active) :=
      fun _ _ hw h => hw.keeps_runWithin Setting.sound_compile depth h
    have hattempt := attempt_runWithin Setting.compile depth name w
    generalize runWithin Setting.compile (depth + 1) name w = result at hattempt ⊢
    cases hattempt with
    | unknown | refused | running => exact .error rfl
    | @runs s _ _ _ hr =>
      have hk := hw.keeps_refresh Setting.sound_compile hname s
      have hrefreshed := hcourse.refresh hw hname s hlate
      obtain ⟨hp, hm⟩ := hk.sound.runner_of hr
      have hsteady := hcourse.steady hkeeps (fun _ _ hw h => hcourse.runWithin
        Setting.sound_compile depth hw h) (hk.sound.enter name) List.getLast?_concat
        ((program?_enter _ name name).trans hp)
      have hentered := hlasting.enter name hrefreshed
      refine Program.failsLate_run ⟨hrefreshed.programs name _ hp, fun script memory u hu => ?_⟩
        hsteady ⟨⟨.refl (hk.sound.enter name) _, hm⟩, id⟩
      exact failsLate_dispatchBy fun hscript => ih hu.1.1.sound (hu.2 hentered) hscript

/-- What is wrong with a text shows when it is compiled, in whatever workspace and under whatever name:
the fault has a number below 100 and stands at a token of the text or, where all tokens have been read,
at its end, which is counted over the whole text. Where there are no functions but those of the library,
whatever goes wrong in a run has a number from 100 on. -/
theorem faults_in_time (h : Reachable Setting.compile w) :
    (∀ name source e, ((w.setting name).compile source).1 = .error e →
      e.cause.code < 100 ∧ ∃ p, e.position = some p ∧
        ((∃ t, (t, p) ∈ Lexer.tokens source) ∨
          (∃ d, (w.setting name).parse Parse.script source = .error e d ∧ d.tokens = []) ∧
            p = { row := source.toList.count '\n' + 1
                  col := (source.toList.reverse.takeWhile (· ≠ '\n')).length + 1
                  offset := source.utf8ByteSize
                  len := 0 })) ∧
    (w.Equipped (· ∈ Library.functions) → ∀ name e, (w.run name).1 = .error e → 100 ≤ e.cause.code) := by
  obtain ⟨hw, hidle⟩ := sound_of_reachable Setting.sound_compile h
  refine ⟨fun name source e he => ?_, fun hequipped name e he => ?_⟩
  · obtain ⟨hstatic, d, p, hparse, hp, hplace⟩ := Setting.compile_error (hw.setting_ok name) he
    refine ⟨by simpa [Fault.isRuntime] using hstatic, p, hp, hplace.imp_right ?_⟩
    rintro ⟨rfl, hread⟩
    exact ⟨⟨d, hparse, hread⟩, Lexer.endPosition_eq source⟩
  · have hruntime := hw.failsLate_runWithin (hequipped.mono Library.late_library) (w.scripts.size + 1)
      (show name ∉ w.active by simp [hidle]) e he
    simpa [Fault.isRuntime] using hruntime

/-- A script that divides by zero. -/
def divider : Workspace := new.perform Setting.compile (.setSource "a" "Natural n = 1 / 0;")

/-- A text that breaks off does not compile, and the division fails when the script runs. -/
theorem faults_in_time_division :
    (∃ e p, ((divider.setting "b").compile "Natural n = 1 /").1 = .error e ∧ e.cause.code < 100 ∧
      e.position = some p) ∧
    ∃ e, (divider.run "a").1 = .error e ∧ 100 ≤ e.cause.code := by
  have hreachable : Reachable Setting.compile divider := .perform .new _
  have hlasting := lasting_equipped fun f (hf : f ∈ Library.functions) => hf
  have hequipped : divider.Equipped (· ∈ Library.functions) :=
    hlasting.history.perform Setting.sound_compile sound_new rfl (fun _ h => nomatch h) hlasting.new
  obtain ⟨hcompile, hrun⟩ := faults_in_time hreachable
  constructor
  · cases he : ((divider.setting "b").compile "Natural n = 1 /").1 with
    | ok p =>
      have hfails : ((divider.setting "b").compile "Natural n = 1 /").1.toOption.isSome = false := by
        decide +kernel
      rw [he] at hfails
      cases hfails
    | error e =>
      obtain ⟨hcode, p, hp, -⟩ := hcompile _ _ e he
      exact ⟨e, p, rfl, hcode, hp⟩
  · cases he : (divider.run "a").1 with
    | ok u =>
      have hfails : (divider.run "a").1.toOption.isSome = false := by decide +kernel
      rw [he] at hfails
      cases hfails
    | error e => exact ⟨e, rfl, hrun hequipped _ e he⟩

end Workspace

end VectorScript
