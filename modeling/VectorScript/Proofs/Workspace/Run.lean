import VectorScript.Proofs.Machine.Conduct
import VectorScript.Proofs.Workspace.Host

/-!
# Runs keep a workspace in order

Whatever a running program does, the workspace stays in order, its memory fits and the scripts that
are running keep their programs (`Callees.Keep.steady`): a dispatched script is none of them, and only
such a script is compiled. While a script runs its runner is out, and afterwards it is put back to
the program that it was taken from. A run within a given depth is by induction on the depth.

    w.Sound → compiler.Sound → w.Keeps (runWithin compiler depth name w).2 (· ∈ w.active)
-/

namespace VectorScript

namespace Workspace

variable {w : Workspace}

/-- What happens one after the other while the same scripts are running. -/
theorem Keeps.running {w' w'' : Workspace} (h : w.Keeps w' (· ∈ w.active))
    (h' : w'.Keeps w'' (· ∈ w'.active)) : w.Keeps w'' (· ∈ w.active) :=
  h.trans (h'.weaken fun _ hk => h.active ▸ hk)

theorem Sound.keeps_random (hw : w.Sound) (kept : String → Prop) : w.Keeps w.random.2 kept := by
  obtain ⟨seed, hseed⟩ := w.random_snd
  rw [hseed]
  exact ⟨hw.congr seed w.journal, .refl _, rfl, rfl, fun _ _ => rfl⟩

end Workspace

/-! ## Running a program -/

/-- Dispatching a script keeps the programs of those that run. -/
def Callees.Keep (callees : Callees) : Prop :=
  ∀ script (w : Workspace), w.Sound → w.Keeps (callees.dispatch script w).2 (· ∈ w.active)

/-- What a program does keeps the workspace in order, the programs of the running scripts and memory
that fits. -/
theorem Callees.Keep.steady {callees : Callees} (hc : callees.Keep) (w : Workspace)
    (slots : List Slot) (targets : Nat → Prop) :
    callees.Steady callees targets fun memory w' =>
      w.Keeps w' (· ∈ w.active) ∧ memory.Fits slots where
  functions := rfl
  dispatch script memory w' h := ⟨rfl, h.1.running (hc script w' h.1.sound), h.2⟩
  random memory w' h := ⟨h.1.running (h.1.sound.keeps_random _), h.2⟩
  store memory w' slot v path _ h := by
    have hrefilled := memory.refilled_store h.1.sound.sorted slot v path
    exact ⟨h.1.running (h.1.sound.keeps_refilled hrefilled _), Memory.fits_store h.2 _ slot v path⟩

/-- A run leaves memory with as many slots. -/
theorem Program.length_run (p : Program) (callees : Callees) (memory : Memory) (w : Workspace) :
    (p.run callees memory w).2.1.slots.length = memory.slots.length := by
  have hsteady : callees.Steady callees p.StoresTo fun later _ =>
      later.slots.length = memory.slots.length := {
    functions := rfl
    dispatch _ _ _ h := ⟨rfl, h⟩
    random _ _ h := h
    store later w' slot v path _ h := (later.length_store w'.table slot v path).trans h }
  exact (p.alike_run hsteady rfl).2

/-! ## Runners -/

namespace Workspace

variable {w : Workspace}

section

variable {name : String} {f : Installed → Installed}

theorem program?_modifyInstalled (hf : ∀ i, (f i).program = i.program) (other : String) :
    (w.modifyInstalled name f).scripts.program? other = w.scripts.program? other := by
  unfold modifyInstalled Scripts.program?
  dsimp only
  rw [NameMap.get?_modify]
  split
  · cases w.scripts.get? other with
    | none => rfl
    | some s =>
      show (s.installed.map f).map (·.program) = s.installed.map (·.program)
      rw [Option.map_map]
      congr 1
      exact funext hf
  · rfl

/-- The programs refer to the same shared variables. -/
theorem count_modifyInstalled (hf : ∀ i, (f i).program = i.program) (id : SharedId) :
    (w.modifyInstalled name f).scripts.count (·.refersTo id) =
      w.scripts.count (·.refersTo id) := by
  unfold modifyInstalled NameMap.modify
  dsimp only
  refine NameMap.count_map _ _ _ (fun other s => ?_) w.scripts
  unfold Script.refersTo Script.program?
  split
  · cases s.installed with
    | none => rfl
    | some i =>
      dsimp only [Option.map_some]
      rw [hf i]
  · rfl

/-- What is installed for a script afterwards. -/
theorem get?_modifyInstalled {other : String} {t : Script} {j : Installed}
    (ht : (w.modifyInstalled name f).scripts.get? other = some t) (hj : t.installed = some j) :
    ∃ s i, w.scripts.get? other = some s ∧ s.installed = some i ∧ t.stale = s.stale ∧
      (other = name ∧ j = f i ∨ other ≠ name ∧ j = i) := by
  unfold modifyInstalled at ht
  dsimp only at ht
  rw [NameMap.get?_modify] at ht
  split at ht
  · next h =>
    obtain ⟨s, hs, rfl⟩ := Option.map_eq_some_iff.1 ht
    obtain ⟨i, hi, rfl⟩ := Option.map_eq_some_iff.1 hj
    exact ⟨s, i, hs, hi, rfl, .inl ⟨h, rfl⟩⟩
  · next h => exact ⟨t, j, ht, hj, rfl, .inr ⟨h, rfl⟩⟩

/-- A runner may come or go, as long as it is out just while its script is running. -/
theorem Sound.modifyInstalled (hw : w.Sound) {active : List String}
    (hf : ∀ i, (f i).program = i.program)
    (hothers : ∀ other, other ≠ name → (other ∈ active ↔ other ∈ w.active))
    (hname : ∀ s i, w.scripts.get? name = some s → s.installed = some i →
      (f i).Manned (name ∈ active)) :
    { w.modifyInstalled name f with active := active }.Sound where
  sorted := hw.sorted
  shaped := hw.shaped
  refs e he := by
    rw [hw.refs e he]
    unfold holders
    congr 1
    exact (count_modifyInstalled hf e.id).symm
  globals := hw.globals
  shared := hw.shared
  linked other t j ht hj := by
    obtain ⟨s, i, hs, hi, -, ⟨-, rfl⟩ | ⟨-, rfl⟩⟩ := get?_modifyInstalled ht hj
    · rw [hf i]
      exact hw.linked other s i hs hi
    · exact hw.linked other s j hs hi
  manned other t j ht hj := by
    obtain ⟨s, i, hs, hi, -, ⟨rfl, rfl⟩ | ⟨hne, rfl⟩⟩ := get?_modifyInstalled ht hj
    · exact hname s i hs hi
    · obtain ⟨hout, hruns⟩ := hw.manned other s j hs hi
      exact ⟨hout.trans (hothers other hne).symm, hruns⟩
  current other t j ht hj hst := by
    obtain ⟨s, i, hs, hi, hstale, hcase⟩ := get?_modifyInstalled ht hj
    have hp : j.program = i.program := by
      rcases hcase with ⟨-, rfl⟩ | ⟨-, rfl⟩
      · exact hf i
      · rfl
    rw [hp]
    exact current_congr (program?_modifyInstalled hf)
      (hw.current other s i hs hi (hstale.symm.trans hst))
  held := hw.held

end

theorem mem_active_enter (w : Workspace) (name : String) : name ∈ (w.enter name).active :=
  List.mem_append_right _ List.mem_cons_self

theorem program?_enter (w : Workspace) (name other : String) :
    (w.enter name).scripts.program? other = w.scripts.program? other :=
  @program?_modifyInstalled (w.note .started name) name .withoutRunner (fun _ => rfl) other

/-- Starting to run a script. -/
theorem Sound.enter (hw : w.Sound) (name : String) : (w.enter name).Sound := by
  refine (hw.noted .started name).modifyInstalled (fun _ => rfl) (fun other hne => ?_)
    fun s i _ _ => ⟨⟨fun _ => mem_active_enter w name, fun _ => rfl⟩, fun r hr => nomatch hr⟩
  show other ∈ w.active ++ [name] ↔ other ∈ w.active
  rw [List.mem_append, List.mem_singleton, or_iff_left hne]

theorem program_putBack (r : Runner) (i : Installed) : (i.putBack r).program = i.program := by
  unfold Installed.putBack
  split <;> rfl

/-- The runner of a script that has run is put back. -/
theorem Sound.leave (hw : w.Sound) {active : List String} {name : String}
    (hactive : w.active = active ++ [name]) (hname : name ∉ active) {r : Runner}
    (hp : w.scripts.program? name = some r.program) (hm : r.memory.Fits r.program.slots) :
    (w.leave name r).Sound ∧ (w.leave name r).active = active := by
  have hlast : w.active.dropLast = active := by
    rw [hactive, List.dropLast_concat]
  refine ⟨hw.modifyInstalled (program_putBack r) (fun other hne => ?_) fun s i hs hi => ?_, hlast⟩
  · rw [hlast, hactive, List.mem_append, List.mem_singleton, or_iff_left hne]
  · have hout : i.runner = none := (hw.manned name s i hs hi).out.2 (by simp [hactive])
    have hprogram : i.program = r.program :=
      Option.some.inj ((Scripts.program?_eq hs hi).symm.trans hp)
    rw [hlast, Installed.putBack, hout]
    show Installed.Manned ⟨i.program, some r⟩ _
    rw [hprogram]
    refine ⟨⟨fun h => (nomatch h), fun h => absurd h hname⟩, fun r' hr' => ?_⟩
    cases hr'
    exact ⟨rfl, hm⟩

/-- The runner of a script that is not running is there, and has what it needs. -/
theorem Counted.runner_of (hw : w.Counted) {name : String} {r : Runner}
    (hr : (w.scripts.get? name).bind Script.runner? = some r) :
    w.scripts.program? name = some r.program ∧ r.memory.Fits r.program.slots := by
  obtain ⟨s, hs, hsr⟩ := Option.bind_eq_some_iff.1 hr
  obtain ⟨i, hi, hir⟩ := Option.bind_eq_some_iff.1 hsr
  obtain ⟨hprogram, hfits⟩ := (hw.manned name s i hs hi).runs r hir
  rw [← hprogram] at hfits
  exact ⟨hprogram ▸ Scripts.program?_eq hs hi, hfits⟩

/-! ## Scripts -/

/-- Dispatching keeps the programs of the running scripts if running a script that is not one of them
does. -/
theorem keep_dispatchBy {run : String → Workspace → Except Fault Unit × Workspace}
    (hrun : ∀ script (w : Workspace), w.Sound → script ∉ w.active →
      w.Keeps (run script w).2 (· ∈ w.active)) (functions : List HostFunction) :
    Callees.Keep ⟨functions, dispatchBy run⟩ := by
  intro script w hw
  show w.Keeps (dispatchBy run script w).2 _
  unfold dispatchBy
  split
  · exact .refl hw _
  · next hactive =>
    split
    · exact .refl hw _
    · exact hrun script w hw fun h => hactive (List.contains_iff_mem.2 h)

/-- What a runner comes to is what its program does in the workspace in which the script starts. -/
theorem engage_eq (run : String → Workspace → Except Fault Unit × Workspace) (name : String)
    (r : Runner) (w : Workspace) : engage run name r w =
      ((r.program.run ⟨r.program.functions, dispatchBy run⟩ r.memory (w.enter name)).1,
        (r.program.run ⟨r.program.functions, dispatchBy run⟩ r.memory (w.enter name)).2.2.leave name
          ⟨r.program,
            (r.program.run ⟨r.program.functions, dispatchBy run⟩ r.memory (w.enter name)).2.1⟩) := rfl

/-- A runner runs as a script that is not running yet. -/
theorem Sound.keeps_engage (hw : w.Sound)
    {run : String → Workspace → Except Fault Unit × Workspace}
    (hrun : ∀ script (w : Workspace), w.Sound → script ∉ w.active →
      w.Keeps (run script w).2 (· ∈ w.active))
    {name : String} (hname : name ∉ w.active) {r : Runner}
    (hr : (w.scripts.get? name).bind Script.runner? = some r) :
    w.Keeps (engage run name r w).2 (· ∈ w.active) := by
  obtain ⟨hp, hm⟩ := hw.runner_of hr
  have hsteady := (keep_dispatchBy hrun r.program.functions).steady (w.enter name) r.program.slots
    r.program.StoresTo
  obtain ⟨-, memory, after, ⟨h, hfits⟩, hleave⟩ :=
    alike_engage hsteady ⟨.refl (hw.enter name) _, hm⟩
  rw [hleave]
  have hprogram : after.scripts.program? name = some r.program := by
    rw [h.programs name (mem_active_enter w name), program?_enter]
    exact hp
  obtain ⟨hsound, hactive⟩ :=
    h.sound.leave (r := ⟨r.program, memory⟩) h.active hname hprogram hfits
  refine ⟨hsound, h.follows, hactive, h.globals, fun other hother => ?_⟩
  refine (program?_modifyInstalled (program_putBack _) other).trans ?_
  rw [h.programs other (List.mem_append_left _ hother), program?_enter]

/-- Compiling a script that is not running, if it has no current program. -/
theorem Sound.keeps_refresh (hw : w.Sound) {compiler : Compiler} (hcomp : compiler.Sound)
    {name : String} (hname : name ∉ w.active) (s : Script) :
    w.Keeps (w.refresh compiler name s).2 (· ∈ w.active) := by
  unfold refresh
  split
  · exact (hw.keeps_compile hcomp hname).weaken fun other h => by
      rintro rfl
      exact hname h
  · exact .refl hw _

/-- What an attempt to run a script comes to: there is no such script, its text does not compile, it is
running already, or its runner runs. -/
inductive Attempt (compiler : Compiler) (depth : Nat) (name : String) (w : Workspace) :
    Except Fault Unit × Workspace → Prop
  | unknown (hs : w.scripts.get? name = none) :
      Attempt compiler depth name w (.error (.about .dispatchNotFound name), w)
  | refused {s : Script} {e : Fault} (hs : w.scripts.get? name = some s)
      (hrefresh : (w.refresh compiler name s).1 = .error e) : Attempt compiler depth name w
        (.error ((Fault.about .compilationFailed name).because e.render),
          (w.refresh compiler name s).2)
  | running {s : Script} (hs : w.scripts.get? name = some s)
      (hrefresh : (w.refresh compiler name s).1 = .ok ())
      (hr : ((w.refresh compiler name s).2.scripts.get? name).bind Script.runner? = none) :
      Attempt compiler depth name w
        (.error (.about .cyclicDispatch name), (w.refresh compiler name s).2)
  | runs {s : Script} {r : Runner} (hs : w.scripts.get? name = some s)
      (hrefresh : (w.refresh compiler name s).1 = .ok ())
      (hr : ((w.refresh compiler name s).2.scripts.get? name).bind Script.runner? = some r) :
      Attempt compiler depth name w
        (engage (runWithin compiler depth) name r (w.refresh compiler name s).2)

theorem attempt_runWithin (compiler : Compiler) (depth : Nat) (name : String) (w : Workspace) :
    Attempt compiler depth name w (runWithin compiler (depth + 1) name w) := by
  cases hs : w.scripts.get? name with
  | none =>
    rw [runWithin, hs]
    exact .unknown hs
  | some s =>
    rw [runWithin, hs]
    dsimp only
    have hrefused := @Attempt.refused compiler depth name w s
    have hrunning := @Attempt.running compiler depth name w s
    have hruns := @Attempt.runs compiler depth name w s
    generalize w.refresh compiler name s = refreshed at hrefused hrunning hruns ⊢
    obtain ⟨e | _, w'⟩ := refreshed
    · exact hrefused hs rfl
    · dsimp only at hrunning hruns ⊢
      cases hr : (w'.scripts.get? name).bind Script.runner? with
      | none => exact hrunning hs rfl hr
      | some r => exact hruns hs rfl hr

/-- A script that is not running yet runs, compiled first if need be, and whatever it dispatches
runs in turn. The induction is on how deep runs may still nest. -/
theorem Sound.keeps_runWithin (hw : w.Sound) {compiler : Compiler} (hcomp : compiler.Sound)
    (depth : Nat) {name : String} (hname : name ∉ w.active) :
    w.Keeps (runWithin compiler depth name w).2 (· ∈ w.active) := by
  induction depth generalizing name w with
  | zero => exact .refl hw _
  | succ depth ih =>
    have hattempt := attempt_runWithin compiler depth name w
    have hk := hw.keeps_refresh hcomp hname
    generalize runWithin compiler (depth + 1) name w = result at hattempt ⊢
    cases hattempt with
    | unknown => exact .refl hw _
    | @refused s | @running s => exact hk s
    | @runs s _ _ _ hr =>
      exact (hk s).running ((hk s).sound.keeps_engage (fun script w hw h => ih hw h)
        ((hk s).active ▸ hname) hr)

/-- A script run on behalf of another. -/
theorem Sound.keeps_dispatch (hw : w.Sound) {compiler : Compiler} (hcomp : compiler.Sound)
    (script : String) : w.Keeps (w.dispatch script compiler).2 (· ∈ w.active) :=
  keep_dispatchBy (fun _ _ hw' h => hw'.keeps_runWithin hcomp (w.scripts.size + 1) h) [] script w hw

end Workspace

end VectorScript
