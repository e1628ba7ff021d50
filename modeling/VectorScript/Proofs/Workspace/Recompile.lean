import VectorScript.Proofs.Compilation.Program
import VectorScript.Proofs.Workspace.Dispatch
import VectorScript.Proofs.Workspace.Dependence

/-!
# Compiling again

What a text compiles to hangs on the names of the host, on which other scripts there are and on their
programs (`Setting.Matches`), and not on what its own script has been before. So a script that is
compiled again after nothing else has changed compiles as it did, or fails with the same fault.

    s.Matches s' → the text compiles to counterparts, or both times with the same fault
                                                                           (Matches.compile)
-/

namespace VectorScript

/-! ## Settings that match -/

namespace Setting

/-- Only the script itself may have changed, and what is shared has kept its meaning. -/
structure Matches (s s' : Setting) : Prop where
  name : s'.name = s.name
  globals : s'.globals = s.globals
  contains : ∀ other, other ≠ s.name → s'.scripts.contains other = s.scripts.contains other
  programs : ∀ other, other ≠ s.name → s'.scripts.program? other = s.scripts.program? other
  follows : s.table.Follows s'.table

variable {s s' : Setting}

theorem Matches.beside_ok (h : s.Matches s') (hs : s.Ok) (hs' : s'.Ok) (source : String) :
    (s.beside s'.scripts s'.table source).Ok where
  rounds := Nat.lt_succ_self _
  contains := h.contains
  exports other hne := congrArg _ (h.programs other hne)
  dependsOn other hne := Scripts.dependsOn_congr (fun name hname =>
    congrArg (fun p? => (p?.map fun p => p.subscripts.names).getD []) (h.programs name hname)) hne
  offers id hid := by
    have hold := hs source []
    have hnew := hs' source []
    have hentries : ∃ e e', s.table.get? id = some e ∧ s'.table.get? id = some e' := by
      rcases hid with ⟨x, hx⟩ | ⟨script, exports, x, hne, hexports, hx⟩
      · obtain ⟨e, he, -⟩ := hold.shared x id hx
        obtain ⟨e', he', -⟩ := hnew.shared x id ((congrArg (·.shared.get? x) h.globals).trans hx)
        exact ⟨e, e', he, he'⟩
      · have hexports' : s'.scripts.exports? script = some exports :=
          (congrArg _ (h.programs script hne)).trans hexports
        obtain ⟨e, he, -⟩ := hold.exports script exports x id hexports hx
        obtain ⟨e', he', -⟩ := hnew.exports script exports x id hexports' hx
        exact ⟨e, e', he, he'⟩
    obtain ⟨e, e', he, he'⟩ := hentries
    exact ⟨e, e', he, he', (h.follows.get?_eq hold.sorted hnew.sorted he he').1⟩

/-- A text compiles to counterparts in settings that match, or fails in both with the same fault. -/
theorem Matches.compile (h : s.Matches s') (hs : s.Ok) (hs' : s'.Ok) (source : String) :
    (∃ p p', (s.compile source).1 = .ok p ∧ (s'.compile source).1 = .ok p' ∧ p.Counterpart p') ∨
    ∃ e, (s.compile source).1 = .error e ∧ (s'.compile source).1 = .error e := by
  have hsame : ({ s with scripts := s'.scripts, table := s'.table } : Setting) = s' := by
    obtain ⟨name, globals, -, -, -⟩ := h
    obtain ⟨⟩ := s
    obtain ⟨⟩ := s'
    cases name
    cases globals
    rfl
  have hbeside := compile_beside (h.beside_ok hs hs' source)
  rwa [hsame] at hbeside

/-- Whether a text compiles, and with which fault if it does not. -/
def outcome (s : Setting) (source : String) : Except Fault Unit :=
  (s.compile source).1.map fun _ => ()

theorem Matches.outcome_eq (h : s.Matches s') (hs : s.Ok) (hs' : s'.Ok) (source : String) :
    s'.outcome source = s.outcome source := by
  unfold outcome
  rcases h.compile hs hs' source with ⟨p, p', hp, hp', -⟩ | ⟨e, he, he'⟩
  · rw [hp, hp']
    rfl
  · rw [he, he']

/-- A setting is in order as far as the programs of its scripts are. -/
theorem Ok.congr (hs : s.Ok) {scripts : Scripts}
    (h : ∀ other, scripts.program? other = s.scripts.program? other) :
    ({ s with scripts := scripts } : Setting).Ok := by
  intro source tokens
  have hs := hs source tokens
  refine ⟨hs.sorted, hs.globals, hs.shared, fun script exports x id hexports => ?_⟩
  refine hs.exports script exports x id (Eq.trans ?_ hexports)
  exact congrArg _ (h script).symm

end Setting

/-! ## Compiling in a workspace -/

namespace Workspace

variable {w : Workspace} {name : String}

/-- Compiling a script gives the outcome of its text. -/
theorem Sound.compile_fst (hw : w.Sound) (hname : name ∉ w.active) {s : Script}
    (hs : w.scripts.get? name = some s) : (w.compile name).1 = (w.setting name).outcome s.source := by
  unfold Setting.outcome
  cases hr : ((w.setting name).compile s.source).1 with
  | ok p =>
    rw [hw.compile_eq_ok Setting.sound_compile hname hs hr]
    rfl
  | error e =>
    rw [compile_eq_error hs hr]
    rfl

/-- The other scripts are there as before when one is compiled. -/
theorem contains_compile (w : Workspace) (name other : String) (compiler : Compiler) :
    (w.compile name compiler).2.scripts.contains other = w.scripts.contains other :=
  NameMap.contains_congr (names_compile w name compiler) other

/-- What a script is compiled in afterwards matches what it has been compiled in. -/
theorem Sound.matches_compile (hw : w.Sound) {compiler : Compiler} (hcomp : compiler.Sound)
    (hname : name ∉ w.active) :
    (w.setting name).Matches ((w.compile name compiler).2.setting name) where
  name := rfl
  globals := (hw.keeps_compile hcomp hname).globals
  contains other _ := contains_compile w name other compiler
  programs := (hw.keeps_compile hcomp hname).programs
  follows := (hw.keeps_compile hcomp hname).follows

end Workspace

end VectorScript
