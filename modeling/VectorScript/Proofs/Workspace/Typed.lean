import VectorScript.Proofs.Machine.Progress
import VectorScript.Proofs.Workspace.Run

/-!
# Typed workspaces

A workspace is typed when all its programs are made of typed and harmless statements and all
functions keep their types (`Workspace.Typed`). Whatever happens in it keeps it typed, as long as the
compiler lets only such programs through; and in a typed workspace runs proceed.

    w.Typed → compiler.Typed → name ∉ w.active →
      Proceeds (runWithin compiler depth name w).1                      (Typed.proceeds_runWithin)
-/

namespace VectorScript

/-! ## Programs -/

namespace Program

/-- The types of the variables of a program, and its functions. -/
def signature (p : Program) (t : SharedTable) : Signature := .ofSlots p.slots t p.functions

/-- The functions keep their types, and the statements are made of typed and harmless trees. -/
structure Secure (p : Program) (t : SharedTable) : Prop where
  functions : ∀ f ∈ p.functions, f.Sound
  statements : ∀ s ∈ p.statements, s.Typed (p.signature t)

/-- While a program is linked its variables do not change their types. -/
theorem Linked.signature_eq {p : Program} {owner : String} {t t' : SharedTable}
    (h : p.Linked owner t) (h' : p.Linked owner t') (hs : t.Sorted) (hs' : t'.Sorted)
    (hf : t.Follows t') : p.signature t' = p.signature t := by
  unfold signature Signature.ofSlots
  congr 1
  funext n
  cases hn : p.slots[n]? with
  | none => rfl
  | some slot =>
    cases slot with
    | «local» ty => rfl
    | shared id =>
      have hid := h.slots id (List.mem_of_getElem? hn)
      obtain ⟨e, he⟩ := h.references id hid
      obtain ⟨e', he'⟩ := h'.references id hid
      show (t'.get? id).map (·.ty) = (t.get? id).map (·.ty)
      rw [he, he', Option.map_some, Option.map_some, (hf.get?_eq hs hs' he he').1]

theorem Secure.later {p : Program} {owner : String} {t t' : SharedTable} (hp : p.Secure t)
    (h : p.Linked owner t) (h' : p.Linked owner t') (hs : t.Sorted) (hs' : t'.Sorted)
    (hf : t.Follows t') : p.Secure t' :=
  ⟨hp.functions, by rw [h.signature_eq h' hs hs' hf]; exact hp.statements⟩

end Program

/-- The compiler lets only typed and harmless programs through. -/
structure Compiler.Typed (compiler : Compiler) : Prop extends Compiler.Sound compiler where
  secure : ∀ s source p, s.Ok → (∀ f ∈ s.globals.functions, f.Sound) →
    (compiler s source).1 = .ok p → p.Secure (compiler s source).2

namespace Workspace

/-! ## The invariant -/

/-- Everything is in order and typed. -/
structure Typed (w : Workspace) : Prop extends Sound w where
  functions : ∀ f ∈ w.globals.functions, f.Sound
  secure : ∀ name p, w.scripts.program? name = some p → p.Secure w.table

variable {w w' : Workspace}

/-- What follows a typed workspace is typed if its programs are old ones or typed on their own. -/
theorem Typed.later (hw : w.Typed) (hw' : w'.Sound) (hf : w.table.Follows w'.table)
    (hfun : ∀ f ∈ w'.globals.functions, f.Sound)
    (hp : ∀ name p, w'.scripts.program? name = some p →
      w.scripts.program? name = some p ∨ p.Secure w'.table) : w'.Typed := by
  refine ⟨hw', hfun, fun name p hp' => ?_⟩
  rcases hp name p hp' with h | h
  · exact (hw.secure name p h).later (hw.toCounted.linked_program h)
      (hw'.toCounted.linked_program hp') hw.sorted hw'.sorted hf
  · exact h

/-- A step that keeps every program. -/
theorem Typed.keeps (hw : w.Typed) (h : w.Keeps w' fun _ => True) : w'.Typed := by
  refine hw.later h.sound h.follows (h.globals ▸ hw.functions) fun name p hp => .inl ?_
  rw [← h.programs name trivial]
  exact hp

/-- Runners may come and go. -/
theorem Typed.modifyInstalled (hw : w.Typed) {name : String} {f : Installed → Installed}
    {active : List String} (hf : ∀ i, (f i).program = i.program)
    (hsound : { w.modifyInstalled name f with active := active }.Sound) :
    { w.modifyInstalled name f with active := active }.Typed := by
  refine hw.later hsound (.refl _) hw.functions fun other p hp => .inl ?_
  rw [← program?_modifyInstalled hf other]
  exact hp

theorem Typed.enter (hw : w.Typed) (name : String) : (w.enter name).Typed :=
  Typed.modifyInstalled (w := w.note .started name)
    ⟨hw.toSound.noted .started name, hw.functions, hw.secure⟩ (fun _ => rfl)
    (hw.toSound.enter name)

/-! ## Compiling -/

section

variable {compiler : Compiler}

theorem Typed.compile (hw : w.Typed) (hcomp : compiler.Typed) {name : String}
    (hname : name ∉ w.active) : (w.compile name compiler).2.Typed := by
  have hkeeps := hw.keeps_compile hcomp.toSound hname
  refine hw.later hkeeps.sound hkeeps.follows (hkeeps.globals ▸ hw.functions) fun other p hp => ?_
  by_cases hother : other = name
  · subst hother
    rcases hw.program?_compile hcomp.toSound hname with h | ⟨source, q, hq, hfollows, h⟩
    · exact .inl (h ▸ hp)
    · rw [h] at hp
      cases hp
      have hok := hw.setting_ok other
      exact .inr ((hcomp.secure _ source p hok hw.functions hq).later
        (hcomp.linked _ source p hok hq) (hkeeps.sound.linked_program h)
        (hcomp.table _ source hok).sorted hkeeps.sound.sorted hfollows)
  · rw [hkeeps.programs other hother] at hp
    exact .inl hp

theorem Typed.setSource (hw : w.Typed) (hcomp : compiler.Typed) {name : String}
    (hname : name ∉ w.active) (source : String) :
    (w.setSource name source compiler).2.Typed := by
  unfold Workspace.setSource
  dsimp only
  split
  · exact hw
  · have h := hw.toSound.keeps_ages (ages_source w.scripts name source) fun _ => True
    exact (hw.keeps h).compile hcomp hname

theorem Typed.compileEach (hw : w.Typed) (hidle : w.active = []) (hcomp : compiler.Typed)
    (names : List String) : (w.compileEach compiler names).2.Typed := by
  induction names generalizing w with
  | nil => exact hw
  | cons name rest ih =>
    have hname : name ∉ w.active := by simp [hidle]
    have hactive := (hw.keeps_compile hcomp.toSound hname).active
    have h := ih (hw.compile hcomp hname) (hactive.trans hidle)
    unfold Workspace.compileEach
    dsimp only
    split <;> exact h

theorem Typed.retry (hw : w.Typed) (hidle : w.active = []) (hcomp : compiler.Typed) (rounds : Nat)
    (names : List String) : (w.retry compiler rounds names).2.Typed := by
  induction rounds generalizing w names with
  | zero => exact hw
  | succ rounds ih =>
    have h := hw.compileEach hidle hcomp names
    have hactive := (hw.keeps_compileEach hidle hcomp.toSound names).active
    unfold Workspace.retry
    dsimp only
    split
    · exact h
    · exact ih h (hactive.trans hidle) _

theorem Typed.recompileAll (hw : w.Typed) (hidle : w.active = []) (hcomp : compiler.Typed) :
    (w.recompileAll compiler).2.Typed := by
  unfold Workspace.recompileAll
  exact hw.retry hidle hcomp _ _

theorem Typed.refresh (hw : w.Typed) (hcomp : compiler.Typed) {name : String}
    (hname : name ∉ w.active) (s : Script) : (w.refresh compiler name s).2.Typed := by
  unfold Workspace.refresh
  split
  · exact hw.compile hcomp hname
  · exact hw

end

/-! ## The host -/

/-- The functions that every workspace starts with keep their types. -/
theorem sound_standard : ∀ f ∈ standardGlobals.functions, f.Sound :=
  fun f hf => Library.sound_library f (Globals.functions_standard f hf)

theorem typed_new : new.Typed :=
  ⟨sound_new, sound_standard, fun _ _ h => nomatch h⟩

theorem Typed.addConstant (hw : w.Typed) (name : String) (v : Value) :
    (w.addConstant name v).Typed :=
  ⟨hw.toSound.addConstant name v, hw.functions, hw.secure⟩

theorem Typed.addShared (hw : w.Typed) (name : String) (ty : Ty) :
    (w.addShared name ty).2.Typed := by
  obtain ⟨hfollows, -, hfunctions, hprograms⟩ := hw.toSound.addShared_spec name ty
  refine hw.later (hw.toSound.addShared name ty) hfollows ?_ fun other p hp => .inl ?_
  · rw [hfunctions]
    exact hw.functions
  · rw [← hprograms other]
    exact hp

theorem Typed.setShared (hw : w.Typed) (owner name : String) (v : Value) :
    (w.setShared owner name v).2.Typed :=
  hw.keeps (hw.toSound.keeps_setShared owner name v _)

theorem Typed.remove (hw : w.Typed) (name : String) : (w.remove name).2.Typed := by
  have h := hw.toSound.keeps_remove name
  exact hw.later h.sound h.follows (h.globals ▸ hw.functions) fun _ _ hp => .inl (program?_remove hp)

/-! ## Runs -/

/-- What a workspace may become while its scripts are running. -/
def Onward (w w' : Workspace) : Prop := w'.Typed ∧ w.Keeps w' (· ∈ w.active)

theorem Onward.refl (hw : w.Typed) : w.Onward w := ⟨hw, .refl hw.toSound _⟩

/-- The variables of a running script keep their types. -/
theorem Typed.kept (hw : w.Typed) {name : String} (hname : name ∈ w.active) {p : Program}
    (hp : w.scripts.program? name = some p) : (p.signature w.table).Kept p.slots w.Onward where
  sorted w' h := h.1.sorted
  shaped w' h := h.1.shaped
  slot w' h n t ht := by
    obtain ⟨hw', hkeeps⟩ := h
    have hlinked := hw'.toCounted.linked_program ((hkeeps.programs name hname).trans hp)
    rw [← (hw.toCounted.linked_program hp).signature_eq hlinked hw.sorted hw'.sorted
      hkeeps.follows] at ht
    obtain ⟨slot, hslot, hty⟩ := Option.bind_eq_some_iff.1 ht
    cases slot with
    | «local» u =>
      cases hty
      exact .inl hslot
    | shared id =>
      obtain ⟨e, he, rfl⟩ := Option.map_eq_some_iff.1 hty
      exact .inr ⟨id, e, hslot, he, rfl⟩
  refilled w' t h hrefilled := by
    have hkeeps := h.1.toSound.keeps_refilled hrefilled fun _ => True
    exact ⟨h.1.keeps hkeeps, h.2.trans (hkeeps.weaken fun _ _ => trivial)⟩

/-- A script that is dispatched proceeds if scripts that are not running do when they run. -/
theorem Onward.dispatchBy {run : String → Workspace → Except Fault Unit × Workspace}
    (hkeeps : ∀ script (w : Workspace), w.Sound → script ∉ w.active →
      w.Keeps (run script w).2 (· ∈ w.active))
    (hrun : ∀ script (w : Workspace), w.Typed → script ∉ w.active →
      Proceeds (run script w).1 ∧ (run script w).2.Typed)
    (script : String) (h : w.Onward w') :
    Proceeds (dispatchBy run script w').1 ∧ w.Onward (dispatchBy run script w').2 := by
  unfold Workspace.dispatchBy
  split
  · exact ⟨rfl, h⟩
  · next hactive =>
    split
    · exact ⟨rfl, h⟩
    · have hnew : script ∉ w'.active := fun hs => hactive (List.contains_iff_mem.2 hs)
      obtain ⟨hproceeds, htyped⟩ := hrun script w' h.1 hnew
      refine ⟨?_, htyped, h.2.running (hkeeps script w' h.1.toSound hnew)⟩
      dsimp only
      cases hr : (run script w').1 with
      | ok u => trivial
      | error e =>
        rw [hr] at hproceeds
        show Fault.cause (if e.position.isSome then e.inScript script else e) |>.isDynamic
        split <;> exact hproceeds

/-- What the program of a running script may call is sound. -/
theorem Typed.callees (hw : w.Typed) {run : String → Workspace → Except Fault Unit × Workspace}
    (hkeeps : ∀ script (w : Workspace), w.Sound → script ∉ w.active →
      w.Keeps (run script w).2 (· ∈ w.active))
    (hrun : ∀ script (w : Workspace), w.Typed → script ∉ w.active →
      Proceeds (run script w).1 ∧ (run script w).2.Typed)
    {name : String} {p : Program} (hp : w.scripts.program? name = some p) :
    Callees.Sound ⟨p.functions, dispatchBy run⟩ w.Onward where
  functions := (hw.secure name p hp).functions
  dispatch script _ h := h.dispatchBy hkeeps hrun script
  random w' h := by
    have hkeeps := h.1.toSound.keeps_random fun _ => True
    exact ⟨h.1.keeps hkeeps, h.2.trans (hkeeps.weaken fun _ _ => trivial)⟩

theorem Typed.proceeds_engage (hw : w.Typed)
    {run : String → Workspace → Except Fault Unit × Workspace}
    (hkeeps : ∀ script (w : Workspace), w.Sound → script ∉ w.active →
      w.Keeps (run script w).2 (· ∈ w.active))
    (hrun : ∀ script (w : Workspace), w.Typed → script ∉ w.active →
      Proceeds (run script w).1 ∧ (run script w).2.Typed)
    {name : String} (hname : name ∉ w.active) {r : Runner}
    (hr : (w.scripts.get? name).bind Script.runner? = some r) :
    Proceeds (engage run name r w).1 ∧ (engage run name r w).2.Typed := by
  obtain ⟨hp, hm⟩ := hw.runner_of hr
  have hw' := hw.enter name
  have hp' := (program?_enter w name name).trans hp
  have hname' := mem_active_enter w name
  obtain ⟨hproceeds, hfits, hafter⟩ := Program.proceeds_run rfl (hw'.callees hkeeps hrun hp')
    (hw'.kept hname' hp') (hw.secure name _ hp).statements hm (.refl hw')
  unfold engage
  dsimp only
  generalize r.program.run _ r.memory (w.enter name) = result at *
  obtain ⟨outcome, memory, after⟩ := result
  obtain ⟨htyped, hkept⟩ := hafter
  have hprogram : after.scripts.program? name = some r.program :=
    (hkept.programs name hname').trans hp'
  exact ⟨hproceeds, htyped.modifyInstalled (program_putBack ⟨r.program, memory⟩)
    (htyped.toSound.leave (r := ⟨r.program, memory⟩) hkept.active hname hprogram hfits).1⟩

/-- A run proceeds where the compiler lets only typed and harmless programs through. The induction
is on how deep runs may still nest. -/
theorem Typed.proceeds_runWithin (hw : w.Typed) {compiler : Compiler} (hcomp : compiler.Typed)
    (depth : Nat) {name : String} (hname : name ∉ w.active) :
    Proceeds (runWithin compiler depth name w).1 ∧ (runWithin compiler depth name w).2.Typed := by
  induction depth generalizing name w with
  | zero => exact ⟨rfl, hw⟩
  | succ depth ih =>
    have hattempt := attempt_runWithin compiler depth name w
    have hafter := hw.refresh hcomp hname
    generalize runWithin compiler (depth + 1) name w = result at hattempt ⊢
    cases hattempt with
    | unknown => exact ⟨rfl, hw⟩
    | @refused s | @running s => exact ⟨rfl, hafter s⟩
    | @runs s _ _ _ hr =>
      have hactive := (hw.keeps_refresh hcomp.toSound hname s).active
      exact (hafter s).proceeds_engage
        (fun _ _ hw' h => hw'.keeps_runWithin hcomp.toSound depth h)
        (fun _ _ hw' h => ih hw' h) (hactive ▸ hname) hr

/-- A script run on behalf of another proceeds too. -/
theorem Typed.proceeds_dispatch (hw : w.Typed) {compiler : Compiler} (hcomp : compiler.Typed)
    (script : String) :
    Proceeds (w.dispatch script compiler).1 ∧ (w.dispatch script compiler).2.Typed := by
  obtain ⟨hproceeds, hafter⟩ := (Onward.refl hw).dispatchBy
    (fun _ _ hw' h => hw'.keeps_runWithin hcomp.toSound (w.scripts.size + 1) h)
    (fun _ _ hw' h => hw'.proceeds_runWithin hcomp (w.scripts.size + 1) h) script
  exact ⟨hproceeds, hafter.1⟩

end Workspace

end VectorScript
