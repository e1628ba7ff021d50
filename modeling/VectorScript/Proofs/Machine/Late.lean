import VectorScript.Proofs.Machine.Conduct
import VectorScript.Proofs.Operation.Late

/-!
# Programs fail late

Whatever a program fails at, the fault is one of running scripts, as long as the functions it calls and
the scripts it dispatches fail late themselves. That does not hang on the program: code that no compiler
would make fails late too.

    callees.Late I → callees.Steady callees p.StoresTo I → I memory w →
      FailsLate (p.run callees memory w).1                                       (failsLate_run)
-/

namespace VectorScript

/-! ## Steps -/

/-- In a state with the property the step fails late, or the property holds of the next state. -/
def StepsLate {σ α : Type} (P : σ → Prop) (x : EStateM Fault σ α) : Prop :=
  ∀ s, P s → match x s with
    | .ok _ s' => P s'
    | .error e _ => e.isRuntime = true

namespace StepsLate

variable {σ α β : Type} {P : σ → Prop}

theorem bind {x : EStateM Fault σ α} {f : α → EStateM Fault σ β} (hx : StepsLate P x)
    (hf : ∀ a, StepsLate P (f a)) : StepsLate P (x >>= f) := by
  intro s hs
  have h := hx s hs
  simp only [Bind.bind, EStateM.bind]
  cases hr : x s with
  | ok a s' =>
    simp only [hr] at h
    exact hf a s' h
  | error e s' =>
    simp only [hr] at h
    exact h

theorem pure (a : α) : StepsLate P (Pure.pure a : EStateM Fault σ α) := fun _ hs => hs

theorem throw {e : Fault} (he : e.isRuntime = true) :
    StepsLate P (MonadExcept.throw e : EStateM Fault σ α) := fun _ _ => he

theorem get : StepsLate P (MonadState.get : EStateM Fault σ σ) := fun _ hs => hs

end StepsLate

namespace Stack

variable {α : Type}

theorem stepsLate_push (a : α) : StepsLate (fun _ => True) (push a) := by
  refine StepsLate.get.bind fun s => ?_
  split
  · exact .throw rfl
  · exact fun _ h => h

theorem stepsLate_pop : StepsLate (fun _ => True) (pop : StackStep α α) := by
  refine StepsLate.get.bind fun s => ?_
  split
  · exact .throw rfl
  · exact fun _ h => h

theorem stepsLate_popPair : StepsLate (fun _ => True) (popPair : StackStep α (α × α)) :=
  stepsLate_pop.bind fun _ => stepsLate_pop.bind fun _ => .pure _

theorem stepsLate_popMany (n : Nat) : StepsLate (fun _ => True) (popMany n : StackStep α (List α)) := by
  refine StepsLate.get.bind fun s => ?_
  split
  · exact fun _ h => h
  · exact .throw rfl

end Stack

/-! ## Calls -/

/-- What a program may call fails late, while memory and workspace have the property. -/
structure Callees.Late (callees : Callees) (I : Memory → Workspace → Prop) : Prop where
  functions : ∀ f ∈ callees.functions, f.Late
  dispatch : ∀ script memory w, I memory w → FailsLate (callees.dispatch script w).1

variable {callees : Callees} {slots : Nat → Prop} {I : Memory → Workspace → Prop}

/-- A conversation with the workspace. -/
theorem Call.Late.answer (hl : callees.Late I) (hc : callees.Steady callees slots I) {call : Call}
    (h : call.Late) {memory : Memory} {w : Workspace} (hw : I memory w) :
    FailsLate (call.answer (Exec.services callees) w).1 := by
  induction call generalizing w with
  | done result => exact h
  | dispatch script next ih =>
    rw [Call.answer]
    exact ih _ (h _ (hl.dispatch script memory w hw)) (hc.dispatch script memory w hw).2
  | random next ih =>
    rw [Call.answer]
    exact ih _ (h _) (hc.random memory w hw)

namespace Exec

/-- The property of memory and workspace, as one of machines. -/
def Of (I : Memory → Workspace → Prop) (m : Machine) : Prop := I m.memory m.workspace

theorem late_onStack {α : Type} {step : StackStep Value α} (h : StepsLate (fun _ => True) step) :
    StepsLate (Of I) (onStack step) := by
  intro m hm
  have h := h m.stack trivial
  unfold onStack EStateM.run
  cases hr : step m.stack with
  | ok a stack => exact hm
  | error e stack =>
    simp only [hr] at h
    exact h

theorem late_ofExcept {α : Type} {x : Except Fault α} (hx : FailsLate x) :
    StepsLate (Of I) (ofExcept x) := by
  cases x with
  | ok a => exact .pure a
  | error e => exact .throw (hx e rfl)

theorem late_push (v : Value) : StepsLate (Of I) (push v) := late_onStack (Stack.stepsLate_push v)

theorem late_pop : StepsLate (Of I) pop := late_onStack Stack.stepsLate_pop

theorem late_popPair : StepsLate (Of I) popPair := late_onStack Stack.stepsLate_popPair

theorem late_popMany (n : Nat) : StepsLate (Of I) (popMany n) :=
  late_onStack (Stack.stepsLate_popMany n)

theorem late_call (hl : callees.Late I) (hc : callees.Steady callees slots I) (index arity : Nat) :
    StepsLate (Of I) (call callees index arity) := by
  intro m hm
  cases hf : callees.functions[index]? with
  | none =>
    unfold call
    rw [hf]
    rfl
  | some f =>
    cases ha : m.stack.top? arity with
    | none =>
      unfold call
      rw [hf]
      simp only [Bind.bind, EStateM.bind, get_apply, ha]
      rfl
    | some args =>
      rw [call_eq hf ha]
      have hlate := ((hl.functions f (List.mem_of_getElem? hf)).execute args 0).answer hl hc hm
      have hsettle : StepsLate (Of I) (settle arity
          ((f.execute args 0).answer (services callees) m.workspace).1) :=
        (late_ofExcept hlate).bind fun v =>
          StepsLate.bind (fun _ h => h) fun _ => late_push v
      exact hsettle _ ((f.execute args 0).alike_answer hc hm).2

/-! ## Instructions -/

theorem late_fetch (slot : Nat) : StepsLate (Of I) (fetch slot) :=
  StepsLate.get.bind fun m => late_ofExcept (m.memory.failsLate_fetch m.workspace.table slot)

theorem failsLate_item (list index : Value) : FailsLate (item list index) := by
  refine (Value.failsLate_asInteger index).bind fun i => (Value.failsLate_asList list).bind
    fun items => ?_
  dsimp only
  split
  · exact .ok _
  · exact .error rfl

theorem failsLate_fieldOf (place : Nat) (record : Value) : FailsLate (fieldOf place record) := by
  refine (Value.failsLate_asList record).bind fun items => ?_
  split
  · exact .ok _
  · exact .error rfl

theorem failsLate_vectorOf (items : List Value) : FailsLate (vectorOf items) := by
  refine (FailsLate.mapM Value.failsLate_asReal items).bind fun xs => ?_
  split
  · exact .ok _
  · exact .error rfl

theorem failsLate_matrixOf (items : List Value) : FailsLate (matrixOf items) := by
  refine (FailsLate.mapM Value.failsLate_asVector items).bind fun vs => ?_
  split
  · exact .ok _
  · exact .error rfl

theorem late_instruction (hl : callees.Late I) (hc : callees.Steady callees slots I)
    (i : Instruction) : StepsLate (Of I) (instruction callees i) := by
  cases i with
  | immed => exact .pure ()
  | guard codeLength immediateCount => exact .pure ()
  | var slot => exact (late_fetch slot).bind late_push
  | call function arity => exact late_call hl hc function arity
  | member place =>
    exact late_pop.bind fun v => (late_ofExcept (failsLate_fieldOf place v)).bind late_push
  | index =>
    exact late_popPair.bind fun p => (late_ofExcept (failsLate_item p.1 p.2)).bind late_push
  | list length => exact (late_popMany length).bind fun items => late_push _
  | vector =>
    exact (late_popMany 4).bind fun items => (late_ofExcept (failsLate_vectorOf items)).bind late_push
  | matrix =>
    exact (late_popMany 4).bind fun items => (late_ofExcept (failsLate_matrixOf items)).bind late_push
  | unary op pair =>
    exact late_pop.bind fun v => (late_ofExcept (Kernel.failsLate_unary op pair v)).bind late_push
  | binary op pair =>
    exact late_popPair.bind fun p =>
      (late_ofExcept (Kernel.failsLate_binary op pair p.1 p.2)).bind late_push

theorem failsLate_decode (word : UInt32) (rest : List UInt32) :
    FailsLate (Instruction.decode word rest) := by
  unfold Instruction.decode Instruction.ofOpcode
  split
  · split <;> first
      | exact .ok _
      | exact .error rfl
  · exact .error rfl

/-- Working through any words, by induction on how many are left. -/
theorem late_run (hl : callees.Late I) (hc : callees.Steady callees slots I) (guarded : Bool)
    (immediates : List Value) (words : List UInt32) :
    StepsLate (Of I) (run callees guarded immediates words) := by
  induction guarded, immediates, words using run_induction with
  | finished =>
    rw [run_nil]
    exact late_pop
  | noValue =>
    rw [run_nil_guarded]
    exact .throw rfl
  | unreadable hd =>
    rw [run_of_decode_error callees hd]
    exact .throw (failsLate_decode _ _ _ hd)
  | missing hd =>
    rw [run_immed_nil callees hd]
    exact .throw rfl
  | immed hd ih =>
    rw [run_immed callees _ _ _ hd]
    exact (late_push _).bind fun _ => ih
  | guard hd ih ih' =>
    rw [run_guard callees _ _ hd]
    refine late_pop.bind fun v => (late_ofExcept v.failsLate_asInteger).bind fun condition => ?_
    split
    · exact ih
    · exact ih'
  | plain hd hplain ih =>
    rw [run_plain callees _ _ hd hplain]
    exact (late_instruction hl hc _).bind fun _ => ih

/-! ## Statements -/

theorem late_value (hl : callees.Late I) (hc : callees.Steady callees slots I) (s : Statement) :
    StepsLate (Of I) (value callees s) :=
  StepsLate.bind (fun _ h => h) fun _ => late_run hl hc _ _ _

theorem late_store (hc : callees.Steady callees slots I) {slot : Nat} (hslot : slots slot) (v : Value)
    (path : List Int32) : StepsLate (Of I) (store slot v path) := by
  intro m hm
  have h := late_ofExcept (I := I) (m.memory.failsLate_store m.workspace.table slot v path)
  exact h { m with
    memory := (m.memory.store m.workspace.table slot v path).2.1
    workspace := { m.workspace with
      table := (m.memory.store m.workspace.table slot v path).2.2 } }
    (hc.store _ _ slot v path hslot hm)

theorem late_statement (hl : callees.Late I) (hc : callees.Steady callees slots I) {s : Statement}
    (hs : ∀ slot pathLength, s.kind = .store slot pathLength → slots slot) :
    StepsLate (Of I) (statement callees s) := by
  have hvalue := late_value hl hc s
  unfold statement
  split
  · exact .pure _
  · refine hvalue.bind fun v => (late_ofExcept v.failsLate_asInteger).bind fun condition => ?_
    split <;> exact .pure _
  · exact (hvalue.bind fun _ => .pure _).bind fun _ => .pure _
  · next slot pathLength hkind =>
    refine hvalue.bind fun v => (late_popMany pathLength).bind fun path => ?_
    refine (late_ofExcept (FailsLate.mapM Value.failsLate_asInteger path)).bind fun indices => ?_
    exact (late_store hc (hs slot pathLength hkind) v indices).bind fun _ => .pure _

theorem late_placing {α : Type} {x : Exec α} (hx : StepsLate (Of I) x) (p : Position) :
    StepsLate (Of I) (placing p x) := by
  intro m hm
  have h := hx m hm
  unfold placing
  cases hr : x m with
  | ok a m' => simpa only [hr] using h
  | error e m' =>
    simp only [hr] at h
    exact h

/-- Statements in turn, by induction on those that are left. -/
theorem late_statements (hl : callees.Late I) (hc : callees.Steady callees slots I) (skip : Nat)
    {body : List Statement}
    (hbody : ∀ s ∈ body, ∀ slot pathLength, s.kind = .store slot pathLength → slots slot) :
    StepsLate (Of I) (statements callees skip body) := by
  induction body generalizing skip with
  | nil => exact .pure ()
  | cons s rest ih =>
    obtain ⟨hs, hrest⟩ := List.forall_mem_cons.1 hbody
    cases skip with
    | zero => exact (late_placing (late_statement hl hc hs) s.position).bind fun _ => ih _ hrest
    | succ skip => exact ih skip hrest

end Exec

/-- A program fails late if what it calls does. -/
theorem Program.failsLate_run {p : Program} (hl : callees.Late I)
    (hc : callees.Steady callees p.StoresTo I) {memory : Memory} {w : Workspace} (hw : I memory w) :
    FailsLate (p.run callees memory w).1 := by
  have h := Exec.late_statements hl hc 0 (fun s hs slot n hkind => ⟨s, hs, n, hkind⟩)
    ⟨.empty "evaluation stack" p.maxDepth, memory, w⟩ hw
  unfold run EStateM.run
  dsimp only
  split
  · exact .ok ()
  · next e m hr =>
    simp only [hr] at h
    exact .error h

end VectorScript
