import VectorScript.Proofs.Machine.Conduct
import VectorScript.Proofs.NameMap
import VectorScript.Workspace.Run

/-!
# Runs that compile nothing

A workspace is settled when each script has a program and none is stale. Then a run compiles nothing,
whichever scripts it dispatches, so it does not matter which compiler it is given.

    w.Settled → runWithin other depth name w = runWithin compiler depth name w  (Settled.runWithin_eq)
-/

namespace VectorScript.Workspace

/-- Every script has a program, and what it imports has not changed. -/
def Settled (w : Workspace) : Prop :=
  ∀ e ∈ w.scripts.entries, e.2.stale = false ∧ e.2.installed.isSome = true

instance (w : Workspace) : Decidable w.Settled :=
  inferInstanceAs (Decidable (∀ e ∈ w.scripts.entries, _))

variable {w w' : Workspace}

theorem Settled.congr (h : w.Settled) (hs : w'.scripts = w.scripts) : w'.Settled := by
  unfold Settled
  rw [hs]
  exact h

/-- Nor does it matter whether runners are out. -/
theorem Settled.modifyInstalled (h : w.Settled) (name : String) (f : Installed → Installed) :
    (w.modifyInstalled name f).Settled := by
  intro e he
  obtain ⟨⟨other, s⟩, hs, rfl⟩ := List.mem_map.1 he
  obtain ⟨hstale, hinstalled⟩ := h _ hs
  dsimp only
  split
  · exact ⟨hstale, by rw [Option.isSome_map]; exact hinstalled⟩
  · exact ⟨hstale, hinstalled⟩

theorem Settled.enter (h : w.Settled) (name : String) : (w.enter name).Settled :=
  Settled.modifyInstalled (w := w.note .started name) h name .withoutRunner

/-- Nothing that a program does but to dispatch scripts makes a script stale. -/
theorem Settled.steady {functions : List HostFunction}
    {run other : String → Workspace → Except Fault Unit × Workspace}
    (hrun : ∀ script (w : Workspace), w.Settled →
      other script w = run script w ∧ (run script w).2.Settled) (slots : Nat → Prop) :
    Callees.Steady ⟨functions, dispatchBy run⟩ ⟨functions, dispatchBy other⟩ slots
      fun _ w => w.Settled where
  functions := rfl
  dispatch script _ w h := by
    show dispatchBy other script w = dispatchBy run script w ∧ (dispatchBy run script w).2.Settled
    obtain ⟨heq, hafter⟩ := hrun script w h
    unfold dispatchBy
    rw [heq]
    refine ⟨rfl, ?_⟩
    split
    · exact h
    · split
      · exact h
      · exact hafter
  random _ w h := by
    obtain ⟨seed, hseed⟩ := w.random_snd
    exact h.congr (by rw [hseed])
  store _ w _ _ _ _ h := h.congr rfl

theorem Settled.engage_eq {run other : String → Workspace → Except Fault Unit × Workspace}
    (hw : w.Settled) (hrun : ∀ script (w : Workspace), w.Settled →
      other script w = run script w ∧ (run script w).2.Settled) (name : String) (r : Runner) :
    engage other name r w = engage run name r w ∧ (engage run name r w).2.Settled := by
  obtain ⟨heq, memory, w', hafter, hleave⟩ := alike_engage (Settled.steady hrun _) (hw.enter name)
  rw [hleave]
  exact ⟨heq, hafter.modifyInstalled name _⟩

/-- A script that runs need not be compiled first. -/
theorem Settled.refresh_eq (hw : w.Settled) {name : String} {s : Script}
    (hs : w.scripts.get? name = some s) (compiler : Compiler) :
    w.refresh compiler name s = (.ok (), w) := by
  obtain ⟨hstale, hinstalled⟩ := hw (name, s) (Entries.mem_of_find? hs)
  unfold refresh
  rw [hstale, ← Option.not_isSome, hinstalled]
  rfl

/-- No compiler is asked for anything. The induction is on how deep runs may still nest. -/
theorem Settled.runWithin_eq (hw : w.Settled) (compiler other : Compiler) (depth : Nat)
    (name : String) :
    runWithin other depth name w = runWithin compiler depth name w ∧
      (runWithin compiler depth name w).2.Settled := by
  induction depth generalizing w name with
  | zero => exact ⟨rfl, hw⟩
  | succ depth ih =>
    rw [runWithin, runWithin]
    cases hs : w.scripts.get? name with
    | none => exact ⟨rfl, hw⟩
    | some s =>
      simp only [hw.refresh_eq hs, hs, Option.bind_some]
      cases hr : s.runner? with
      | none => exact ⟨rfl, hw⟩
      | some r =>
        dsimp only
        exact Settled.engage_eq hw (fun script w' h => ih h script) name r

/-- A run is the same whatever compiler it is given. -/
theorem Settled.run_eq (hw : w.Settled) (name : String) (compiler other : Compiler) :
    w.run name other = w.run name compiler :=
  (hw.runWithin_eq compiler other _ name).1

end VectorScript.Workspace
