import VectorScript.Proofs.Workspace.Run

/-!
# The course of a run

While scripts run, a random number is drawn, a script that is not running is compiled, the innermost
script stores to one of its variables, or a script starts to run and comes to its end. A relation
between an earlier and a later workspace that each of these keeps (`Workspace.Course`) holds between
the workspaces before and after a whole run, however deep it nests and however it ends.

    Course compiler R → w.Sound → name ∉ w.active → R w (runWithin compiler depth name w).2
-/

namespace VectorScript.Workspace

/-- The relation holds across whatever may happen while scripts run. -/
structure Course (compiler : Compiler) (R : Workspace → Workspace → Prop) : Prop where
  refl : ∀ w, R w w
  trans : ∀ {a b c : Workspace}, a.Sound → a.Keeps b (· ∈ a.active) → b.Keeps c (· ∈ b.active) →
    R a b → R b c → R a c
  random : ∀ w, R w w.random.2
  compile : ∀ {w : Workspace} {name : String}, w.Sound → name ∉ w.active →
    R w (w.compile name compiler).2
  /-- The innermost script may store to the slots that its statements name. -/
  store : ∀ {w : Workspace} {name : String} {p : Program} {memory : Memory} {slot : Nat}
    (v : Value) (path : List Int32), w.Sound → w.active.getLast? = some name →
    w.scripts.program? name = some p → memory.Fits p.slots → p.StoresTo slot →
    R w { w with table := (memory.store w.table slot v path).2.2 }
  /-- A script starts, and ends when more has happened, with memory of the same size. -/
  run : ∀ {w w' : Workspace} {name : String} {r : Runner} (memory : Memory), w.Sound →
    name ∉ w.active → (w.scripts.get? name).bind Script.runner? = some r →
    memory.slots.length = r.memory.slots.length → (w.enter name).Keeps w' (· ∈ (w.enter name).active) → R (w.enter name) w' →
    R w (w'.leave name { r with memory := memory })

namespace Course

variable {compiler : Compiler} {R : Workspace → Workspace → Prop} {w : Workspace}

theorem dispatchBy (hR : Course compiler R)
    {run : String → Workspace → Except Fault Unit × Workspace}
    (hrun : ∀ script (w : Workspace), w.Sound → script ∉ w.active → R w (run script w).2)
    (hw : w.Sound) (script : String) : R w (Workspace.dispatchBy run script w).2 := by
  unfold Workspace.dispatchBy
  split
  · exact hR.refl w
  · next hactive =>
    split
    · exact hR.refl w
    · exact hrun script w hw fun h => hactive (List.contains_iff_mem.2 h)

/-- What a program does that stores to slots of its own. -/
theorem steady (hR : Course compiler R)
    {run : String → Workspace → Except Fault Unit × Workspace}
    (hkeeps : ∀ script (w : Workspace), w.Sound → script ∉ w.active →
      w.Keeps (run script w).2 (· ∈ w.active))
    (hrun : ∀ script (w : Workspace), w.Sound → script ∉ w.active → R w (run script w).2)
    (hw : w.Sound) {name : String} (hlast : w.active.getLast? = some name) {p : Program}
    (hp : w.scripts.program? name = some p) :
    Callees.Steady ⟨p.functions, Workspace.dispatchBy run⟩ ⟨p.functions, Workspace.dispatchBy run⟩
      p.StoresTo fun memory w' =>
        (w.Keeps w' (· ∈ w.active) ∧ memory.Fits p.slots) ∧ R w w' where
  functions := rfl
  dispatch script memory w' h := by
    obtain ⟨⟨hk, hm⟩, hr⟩ := h
    have hk' := keep_dispatchBy hkeeps p.functions script w' hk.sound
    exact ⟨rfl, ⟨hk.running hk', hm⟩,
      hR.trans hw hk hk' hr (hR.dispatchBy hrun hk.sound script)⟩
  random memory w' h := by
    obtain ⟨⟨hk, hm⟩, hr⟩ := h
    have hk' := hk.sound.keeps_random (· ∈ w'.active)
    exact ⟨⟨hk.running hk', hm⟩, hR.trans hw hk hk' hr (hR.random w')⟩
  store memory w' slot v path hslot h := by
    obtain ⟨⟨hk, hm⟩, hr⟩ := h
    have hk' := hk.sound.keeps_refilled (memory.refilled_store hk.sound.sorted slot v path)
      (· ∈ w'.active)
    have hp' := (hk.programs name (List.mem_of_getLast? hlast)).trans hp
    exact ⟨⟨hk.running hk', Memory.fits_store hm _ slot v path⟩, hR.trans hw hk hk' hr
      (hR.store v path hk.sound (hk.active ▸ hlast) hp' hm hslot)⟩

/-- A runner that runs ends in a workspace that is related to the one in which it has started. -/
theorem inside (hR : Course compiler R)
    {run : String → Workspace → Except Fault Unit × Workspace}
    (hkeeps : ∀ script (w : Workspace), w.Sound → script ∉ w.active →
      w.Keeps (run script w).2 (· ∈ w.active))
    (hrun : ∀ script (w : Workspace), w.Sound → script ∉ w.active → R w (run script w).2)
    (hw : w.Sound) {name : String} {r : Runner}
    (hr : (w.scripts.get? name).bind Script.runner? = some r) :
    ∃ memory w', (Workspace.engage run name r w).2 = w'.leave name { r with memory := memory } ∧
      memory.slots.length = r.memory.slots.length ∧
      (w.enter name).Keeps w' (· ∈ (w.enter name).active) ∧ R (w.enter name) w' := by
  obtain ⟨hp, hm⟩ := hw.runner_of hr
  have hlast : (w.enter name).active.getLast? = some name := List.getLast?_concat
  have hsteady := hR.steady hkeeps hrun (hw.enter name) hlast ((program?_enter w name name).trans hp)
  obtain ⟨-, ⟨hk, -⟩, h⟩ :=
    r.program.alike_run hsteady ⟨⟨.refl (hw.enter name) _, hm⟩, hR.refl _⟩
  exact ⟨_, _, rfl, r.program.length_run .., hk, h⟩

theorem engage (hR : Course compiler R)
    {run : String → Workspace → Except Fault Unit × Workspace}
    (hkeeps : ∀ script (w : Workspace), w.Sound → script ∉ w.active →
      w.Keeps (run script w).2 (· ∈ w.active))
    (hrun : ∀ script (w : Workspace), w.Sound → script ∉ w.active → R w (run script w).2)
    (hw : w.Sound) {name : String} (hname : name ∉ w.active) {r : Runner}
    (hr : (w.scripts.get? name).bind Script.runner? = some r) :
    R w (Workspace.engage run name r w).2 := by
  obtain ⟨memory, w', hleave, hsize, hk, h⟩ := hR.inside hkeeps hrun hw hr
  rw [hleave]
  exact hR.run memory hw hname hr hsize hk h

/-- A script may be compiled before it runs. -/
theorem refresh (hR : Course compiler R) (hw : w.Sound) {name : String} (hname : name ∉ w.active)
    (s : Script) : R w (w.refresh compiler name s).2 := by
  unfold Workspace.refresh
  split
  · exact hR.compile hw hname
  · exact hR.refl w

/-- The relation holds across a run. The induction is on how deep runs may still nest. -/
theorem runWithin (hR : Course compiler R) (hcomp : compiler.Sound) (depth : Nat) (hw : w.Sound)
    {name : String} (hname : name ∉ w.active) :
    R w (Workspace.runWithin compiler depth name w).2 := by
  induction depth generalizing name w with
  | zero => exact hR.refl w
  | succ depth ih =>
    have hattempt := attempt_runWithin compiler depth name w
    have hafter := hR.refresh hw hname
    generalize Workspace.runWithin compiler (depth + 1) name w = result at hattempt ⊢
    cases hattempt with
    | unknown => exact hR.refl w
    | @refused s | @running s => exact hafter s
    | @runs s _ _ _ hr =>
      have hk := hw.keeps_refresh hcomp hname s
      have hkeeps : ∀ script (w : Workspace), w.Sound → script ∉ w.active →
          w.Keeps (Workspace.runWithin compiler depth script w).2 (· ∈ w.active) :=
        fun _ _ hw h => hw.keeps_runWithin hcomp depth h
      have hname' : name ∉ (w.refresh compiler name s).2.active := hk.active ▸ hname
      exact hR.trans hw hk (hk.sound.keeps_engage hkeeps hname' hr) (hafter s)
        (hR.engage hkeeps (fun _ _ hw h => ih hw h) hk.sound hname' hr)

end Course

end VectorScript.Workspace
