import VectorScript.Proofs.Compilation.Program
import VectorScript.Proofs.Workspace.Dependence
import VectorScript.Proofs.Workspace.History

/-!
# Imports never form a cycle

Scripts may dispatch each other in a circle, but imports lead from no script back to it. A script that
is compiled imports only from scripts that do not depend on it, and whatever imports from another
depends on it; so where a new program would close a circle it is refused.

    Reachable Setting.compile w → ¬Relation.TransGen w.Imports name name        (imports_acyclic)
-/

namespace VectorScript.Workspace

/-- The program of `top` imports from `sub`, whether there still is such a script or not. -/
def Imports (w : Workspace) (top sub : String) : Prop :=
  ∃ p, w.scripts.program? top = some p ∧ p.imports.contains sub = true

/-- Whatever imports from a script depends on it, and no script does so on itself. -/
structure Layered (w : Workspace) : Prop where
  names : ∀ top sub, w.Imports top sub → w.scripts.Names top sub
  acyclic : ∀ name, ¬Relation.TransGen w.Imports name name

variable {w w' : Workspace} {name : String}

theorem Layered.fewer (h : w.Layered)
    (hp : ∀ name p, w'.scripts.program? name = some p → w.scripts.program? name = some p) :
    w'.Layered := by
  have hold : w'.Imports ≤ w.Imports := fun top sub ⟨p, htop, hsub⟩ => ⟨p, hp top p htop, hsub⟩
  refine ⟨fun top sub ⟨p, htop, hsub⟩ => ?_, fun name hway => ?_⟩
  · have hnames := h.names top sub ⟨p, hp top p htop, hsub⟩
    unfold Scripts.Names Scripts.subscripts at hnames ⊢
    rw [hp top p htop] at hnames
    rwa [htop]
  · exact h.acyclic name (Relation.TransGen.mono hold _ _ hway)

/-- What the script has come to import does not depend on it, so no new way leads back. -/
theorem Layered.reprogram (h : w.Layered) {p : Program}
    (hname : w'.scripts.program? name = some p)
    (hothers : ∀ other, other ≠ name → w'.scripts.program? other = w.scripts.program? other)
    (himports : ∀ script, p.imports.contains script = true → p.subscripts.contains script = true ∧
      script ≠ name ∧ w.scripts.dependsOn script name = false) : w'.Layered := by
  have hold : ∀ top sub, top ≠ name → w'.Imports top sub → w.Imports top sub := by
    rintro top sub hne ⟨q, htop, hsub⟩
    exact ⟨q, (hothers top hne).symm.trans htop, hsub⟩
  have hnames : ∀ top sub, w'.Imports top sub → w'.scripts.Names top sub := by
    rintro top sub ⟨q, htop, hsub⟩
    unfold Scripts.Names Scripts.subscripts
    rw [htop]
    refine NameMap.mem_names.2 ?_
    by_cases hne : top = name
    · subst hne
      cases hname.symm.trans htop
      exact (himports sub hsub).1
    · have holdname := h.names top sub (hold top sub hne ⟨q, htop, hsub⟩)
      unfold Scripts.Names Scripts.subscripts at holdname
      rw [← hothers top hne, htop] at holdname
      exact NameMap.mem_names.1 holdname
  have hback : ¬Relation.TransGen w'.Imports name name := by
    intro hway
    obtain ⟨script, ⟨q, hq, hscript⟩, hrest⟩ := Relation.TransGen.head'_iff.1 hway
    cases hname.symm.trans hq
    obtain ⟨-, hne, hnot⟩ := himports script hscript
    have hreaches : Relation.TransGen w'.Imports script name :=
      (Relation.reflTransGen_iff_eq_or_transGen.1 hrest).resolve_left hne.symm
    -- up to where it comes back for the first time the way has been there before
    have hbefore : Relation.TransGen w.scripts.Names script name := by
      refine Relation.TransGen.mono ?_ _ _ (transGen_avoiding hreaches hne)
      exact fun top sub ⟨htop, hsub⟩ => h.names top sub (hold top sub htop hsub)
    exact absurd (Scripts.dependsOn_iff.2 hbefore) (by simp [hnot])
  refine ⟨hnames, fun other hway => ?_⟩
  rcases transGen_rerouted hold hway with hway | ⟨hto, hfrom⟩
  · exact h.acyclic other hway
  · exact hback (hfrom.trans_left hto)

theorem lasting_layered : Lasting Setting.compile (fun _ => True) Layered where
  new := by
    refine ⟨fun _ _ ⟨_, hp, _⟩ => (nomatch hp), fun name hway => ?_⟩
    obtain ⟨_, ⟨_, hp, _⟩, _⟩ := Relation.TransGen.head'_iff.1 hway
    cases hp
  fewer h _ hp := h.fewer hp
  addFunction _ h := h.fewer fun _ _ hp => hp
  compile {w name} hw hname h := by
    have hothers := (hw.keeps_compile Setting.sound_compile hname).programs
    rcases hw.program?_compile Setting.sound_compile hname with hold | ⟨source, p, hp, -, hnew⟩
    · refine h.fewer fun other p hp => ?_
      by_cases hother : other = name
      · rw [← hp, hother, hold]
      · rw [← hp, hothers other hother]
    · exact h.reprogram hnew hothers fun script =>
        Setting.imports_of_compile (hw.setting_ok name) hp

/-- Imports never form a cycle, whatever a host does and whatever scripts dispatch. -/
theorem imports_acyclic (h : Reachable Setting.compile w) (name : String) :
    ¬Relation.TransGen w.Imports name name :=
  (lasting_layered.of_reachable Setting.sound_compile h).acyclic name

/-- Two scripts depend on each other: the first dispatches the second, which imports from it. -/
def mutualScripts : Workspace :=
  ((new.perform Setting.compile (.setSource "a" "shared Natural x;")).perform Setting.compile
    (.setSource "b" "import x from a;")).perform Setting.compile
      (.setSource "a" "shared Natural x; dispatch(\"b\");")

theorem reachable_mutualScripts : Reachable Setting.compile mutualScripts :=
  .perform (.perform (.perform .new _) _) _

/-- The circle is one of names, not of imports. -/
theorem imports_acyclic_mutual : mutualScripts.scripts.dependsOn "b" "b" = true ∧
    mutualScripts.Imports "b" "a" ∧ ¬Relation.TransGen mutualScripts.Imports "b" "b" := by
  refine ⟨by decide +kernel, ?_, imports_acyclic reachable_mutualScripts "b"⟩
  have himports : ((mutualScripts.scripts.program? "b").map fun p => p.imports.contains "a") =
      some true := by decide +kernel
  obtain ⟨p, hp, himports⟩ := Option.map_eq_some_iff.1 himports
  exact ⟨p, hp, himports⟩

end VectorScript.Workspace
