import VectorScript.Proofs.Workspace.Course
import VectorScript.Proofs.Workspace.Reachable

/-!
# Histories

A relation that each step of a run keeps (`Course`), and that each thing the host does keeps as far as
it is allowed, holds across every action (`History`). A property that hangs on the programs of the
scripts alone lasts if compiling a script keeps it (`Lasting`).

    History compiler allowed R → w.Sound → allowed w a → R w (w.perform compiler a)         (perform)
    Lasting compiler I → Reachable compiler w → I w                                    (of_reachable)
-/

namespace VectorScript.Workspace

variable {compiler : Compiler} {allowed : Workspace → Action → Prop}
  {R : Workspace → Workspace → Prop} {w : Workspace}

/-! ## While nothing is running -/

namespace Course

/-- What happens one after the other while nothing is running. -/
theorem idle_trans (hR : Course compiler R) {w' w'' : Workspace} (hw : w.Sound)
    (hidle : w.active = []) {kept kept' : String → Prop} (hk : w.Keeps w' kept)
    (hk' : w'.Keeps w'' kept') (h : R w w') (h' : R w' w'') : R w w'' := by
  refine hR.trans hw (hk.weaken fun name hname => ?_) (hk'.weaken fun name hname => ?_) h h'
  · rw [hidle] at hname
    cases hname
  · rw [hk.active, hidle] at hname
    cases hname

theorem compileEach (hR : Course compiler R) (hcomp : compiler.Sound) (hw : w.Sound)
    (hidle : w.active = []) (names : List String) : R w (w.compileEach compiler names).2 := by
  induction names generalizing w with
  | nil => exact hR.refl w
  | cons name rest ih =>
    have hname : name ∉ w.active := by simp [hidle]
    have hk := hw.keeps_compile hcomp hname
    have hidle' := hk.active.trans hidle
    have h := hR.idle_trans hw hidle hk (hk.sound.keeps_compileEach hidle' hcomp rest)
      (hR.compile hw hname) (ih hk.sound hidle')
    unfold Workspace.compileEach
    dsimp only
    split <;> exact h

theorem retry (hR : Course compiler R) (hcomp : compiler.Sound) (hw : w.Sound)
    (hidle : w.active = []) (rounds : Nat) (names : List String) :
    R w (w.retry compiler rounds names).2 := by
  induction rounds generalizing w names with
  | zero => exact hR.refl w
  | succ rounds ih =>
    have hk := hw.keeps_compileEach hidle hcomp names
    have hidle' := hk.active.trans hidle
    have hround := hR.compileEach hcomp hw hidle names
    unfold Workspace.retry
    dsimp only
    split
    · exact hround
    · exact hR.idle_trans hw hidle hk (hk.sound.keeps_retry hidle' hcomp rounds _) hround
        (ih hk.sound hidle' _)

end Course

/-! ## Actions -/

/-- The workspace with another text for a script, new or not, that is still to be compiled. -/
def withSource (w : Workspace) (name source : String) : Workspace :=
  w.setScript name { (w.scripts.get? name).getD {} with source := source }

theorem Sound.keeps_withSource (hw : w.Sound) (name source : String) (kept : String → Prop) :
    w.Keeps (w.withSource name source) kept := hw.keeps_ages (ages_source w.scripts name source) kept

theorem program?_withSource (w : Workspace) (name source other : String) :
    (w.withSource name source).scripts.program? other = w.scripts.program? other :=
  (ages_source w.scripts name source).program other

/-- A text whose outcome is known is not compiled again. -/
theorem setSource_eq_known {name source : String} {outcome : Except Fault Unit}
    (h : knownOutcome? ((w.scripts.get? name).getD {}) source = some outcome) (compiler : Compiler) :
    w.setSource name source compiler = (outcome, w) := by
  unfold setSource
  dsimp only
  rw [h]

theorem setSource_eq_compile {name source : String}
    (h : knownOutcome? ((w.scripts.get? name).getD {}) source = none) (compiler : Compiler) :
    w.setSource name source compiler = (w.withSource name source).compile name compiler := by
  unfold setSource
  dsimp only
  rw [h]
  rfl

/-- Neither leaves anything in the journal. -/
theorem journal_addShared (w : Workspace) (x : String) (ty : Ty) :
    (w.addShared x ty).2.journal = w.journal := by
  unfold Workspace.addShared
  dsimp only
  split
  · rfl
  · unfold replaceShared
    dsimp only
    split <;> rfl

theorem journal_remove (w : Workspace) (name : String) : (w.remove name).2.journal = w.journal := by
  unfold Workspace.remove
  split <;> rfl

/-- The relation holds across whatever a host does that is allowed. -/
structure History (compiler : Compiler) (allowed : Workspace → Action → Prop)
    (R : Workspace → Workspace → Prop) : Prop extends Course compiler R where
  /-- A script has another text, or there is a new one. -/
  source : ∀ {w : Workspace} {name source : String}, w.Sound → allowed w (.setSource name source) →
    R w (w.withSource name source)
  addFunction : ∀ {w : Workspace} {f : HostFunction}, w.Sound → allowed w (.addFunction f) →
    R w (w.addFunction f)
  addConstant : ∀ {w : Workspace} {name : String} {v : Value}, w.Sound →
    allowed w (.addConstant name v) → R w (w.addConstant name v)
  addShared : ∀ {w : Workspace} {name : String} {ty : Ty}, w.Sound →
    allowed w (.addShared name ty) → R w (w.addShared name ty).2
  setShared : ∀ {w : Workspace} {owner name : String} {v : Value}, w.Sound →
    allowed w (.setShared owner name v) → R w (w.setShared owner name v).2
  remove : ∀ {w : Workspace} {name : String}, w.Sound → allowed w (.remove name) →
    R w (w.remove name).2

namespace History

theorem setSource (hR : History compiler allowed R) (hcomp : compiler.Sound) (hw : w.Sound)
    (hidle : w.active = []) {name source : String} (ha : allowed w (.setSource name source)) :
    R w (w.setSource name source compiler).2 := by
  unfold Workspace.setSource
  dsimp only
  split
  · exact hR.refl w
  · have hk := hw.keeps_withSource name source fun _ => False
    have hname : name ∉ w.active := by simp [hidle]
    exact hR.idle_trans hw hidle hk (hk.sound.keeps_compile hcomp hname) (hR.source hw ha)
      (hR.compile hk.sound hname)

/-- The relation holds across an action. -/
theorem perform (hR : History compiler allowed R) (hcomp : compiler.Sound) (hw : w.Sound)
    (hidle : w.active = []) {a : Action} (ha : allowed w a) : R w (w.perform compiler a) := by
  have hnone : ∀ name, name ∉ w.active := by simp [hidle]
  cases a with
  | addFunction f => exact hR.addFunction hw ha
  | addConstant name v => exact hR.addConstant hw ha
  | addShared name ty => exact hR.addShared hw ha
  | setSource name source => exact hR.setSource hcomp hw hidle ha
  | compile name => exact hR.compile hw (hnone name)
  | recompileAll =>
    show R w (w.recompileAll compiler).2
    unfold recompileAll
    exact hR.retry hcomp hw hidle _ _
  | run name => exact hR.runWithin hcomp _ hw (hnone name)
  | dispatch script => exact hR.dispatchBy (fun _ _ hw h => hR.runWithin hcomp _ hw h) hw script
  | setShared owner name v => exact hR.setShared hw ha
  | remove name => exact hR.remove hw ha

end History

/-! ## Lasting properties -/

/-- The property holds of a new workspace, is kept when a script is compiled, and hangs on nothing but
the programs of the scripts, of which any may go, and the functions of the host. -/
structure Lasting (compiler : Compiler) (added : HostFunction → Prop) (I : Workspace → Prop) :
    Prop where
  new : I new
  fewer : ∀ {w w' : Workspace}, I w → w'.globals.functions = w.globals.functions →
    (∀ name p, w'.scripts.program? name = some p → w.scripts.program? name = some p) → I w'
  addFunction : ∀ {w : Workspace} {f : HostFunction}, added f → I w → I (w.addFunction f)
  compile : ∀ {w : Workspace} {name : String}, w.Sound → name ∉ w.active → I w →
    I (w.compile name compiler).2

namespace Lasting

variable {added : HostFunction → Prop} {I : Workspace → Prop}

theorem of_programs (hI : Lasting compiler added I) {w' : Workspace} (h : I w)
    (hglobals : w'.globals = w.globals)
    (hprograms : ∀ name, w'.scripts.program? name = w.scripts.program? name) : I w' :=
  hI.fewer h (congrArg _ hglobals) fun name _ hp => (hprograms name).symm.trans hp

theorem enter (hI : Lasting compiler added I) (name : String) (h : I w) : I (w.enter name) :=
  hI.of_programs h rfl (program?_enter w name)

theorem leave (hI : Lasting compiler added I) (name : String) (r : Runner) (h : I w) :
    I (w.leave name r) :=
  hI.of_programs h rfl (program?_modifyInstalled (program_putBack r))

theorem history (hI : Lasting compiler added I) :
    History compiler (fun _ a => ∀ f, a = .addFunction f → added f) fun w w' => I w → I w' where
  refl _ := id
  trans _ _ _ h h' := h' ∘ h
  random w h := by
    obtain ⟨seed, hseed⟩ := w.random_snd
    rw [hseed]
    exact hI.of_programs h rfl fun _ => rfl
  compile := hI.compile
  store _ _ _ _ _ _ _ h := hI.of_programs h rfl fun _ => rfl
  run _ _ _ _ _ _ h hw := hI.leave _ _ (h (hI.enter _ hw))
  source {w name source} _ _ h := hI.of_programs h rfl (program?_withSource w name source)
  addFunction _ hadded h := hI.addFunction (hadded _ rfl) h
  addConstant _ _ h := hI.fewer h rfl fun _ _ hp => hp
  addShared {w name ty} hw _ h := by
    obtain ⟨-, -, hfunctions, hprograms⟩ := hw.addShared_spec name ty
    exact hI.fewer h hfunctions fun other _ hp => (hprograms other).symm.trans hp
  setShared {w owner name v} hw _ h := by
    have hk := hw.keeps_setShared owner name v fun _ => True
    exact hI.of_programs h hk.globals fun other => hk.programs other trivial
  remove {w name} hw _ h :=
    hI.fewer h (congrArg _ (hw.keeps_remove name).globals) fun _ _ hp => program?_remove hp

theorem of_reachable (hI : Lasting compiler (fun _ => True) I) (hcomp : compiler.Sound)
    (h : Reachable compiler w) : I w := by
  induction h with
  | new => exact hI.new
  | perform h a ih =>
    obtain ⟨hw, hidle⟩ := sound_of_reachable hcomp h
    exact hI.history.perform hcomp hw hidle (fun _ _ => trivial) ih

end Lasting

end VectorScript.Workspace
