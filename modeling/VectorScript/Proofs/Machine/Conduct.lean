import VectorScript.Proofs.Machine.Simulation
import VectorScript.Proofs.Tree.Layout
import VectorScript.Workspace.Run

/-!
# What a running program does to its surroundings

A program touches memory only by stores and the workspace only by stores, dispatched scripts and
random numbers; and it stores only to the slots that its statements name. So what these keep, a whole
run keeps; and two ways of dispatching that agree on all workspaces of that kind cannot be told apart
by running a program.

    callees.Steady other p.StoresTo I → I memory w →
      p.run other memory w = p.run callees memory w ∧
        I (p.run callees memory w).2.1 (p.run callees memory w).2.2                   (alike_run)
-/

namespace VectorScript

/-- Drawing a number changes nothing but the state of the generator. -/
theorem Workspace.random_snd (w : Workspace) : ∃ seed, w.random.2 = { w with seed := seed } :=
  ⟨_, rfl⟩

/-! ## Steady surroundings -/

/-- What a program may do that stores to some slots only keeps the property of memory and workspace,
and the others answer the same while it holds. -/
structure Callees.Steady (callees other : Callees) (slots : Nat → Prop)
    (I : Memory → Workspace → Prop) : Prop where
  functions : other.functions = callees.functions
  dispatch : ∀ script memory w, I memory w → other.dispatch script w = callees.dispatch script w ∧
    I memory (callees.dispatch script w).2
  random : ∀ memory w, I memory w → I memory w.random.2
  store : ∀ memory w slot v path, slots slot → I memory w → I (memory.store w.table slot v path).2.1
    { w with table := (memory.store w.table slot v path).2.2 }

/-- Others that answer the same as long as the property holds. -/
theorem Callees.Steady.other {callees other : Callees} {slots : Nat → Prop}
    {I : Memory → Workspace → Prop} (h : callees.Steady callees slots I)
    (hf : other.functions = callees.functions) (heq : ∀ script memory w, I memory w →
      other.dispatch script w = callees.dispatch script w) : callees.Steady other slots I :=
  ⟨hf, fun script memory w hI => ⟨heq script memory w hI, (h.dispatch script memory w hI).2⟩,
    h.random, h.store⟩

/-- A conversation with the workspace. -/
theorem Call.alike_answer {callees other : Callees} {slots : Nat → Prop}
    {I : Memory → Workspace → Prop} (hc : callees.Steady other slots I) (call : Call)
    {memory : Memory} {w : Workspace} (hw : I memory w) :
    call.answer (Exec.services other) w = call.answer (Exec.services callees) w ∧
      I memory (call.answer (Exec.services callees) w).2 := by
  induction call generalizing w with
  | done result => exact ⟨rfl, hw⟩
  | dispatch script next ih =>
    obtain ⟨heq, hw'⟩ := hc.dispatch script memory w hw
    show (next (other.dispatch script w).1).answer _ (other.dispatch script w).2 = _ ∧ _
    rw [heq]
    exact ih _ hw'
  | random next ih =>
    rw [answer, answer]
    exact ih _ (hc.random memory w hw)

namespace Exec

variable {α β : Type} {slots : Nat → Prop} {I : Memory → Workspace → Prop}
  {callees other : Callees}

/-- The machine after a step, whether it failed or not. -/
def after (x : Exec α) (m : Machine) : Machine :=
  match x m with
  | .ok _ m => m
  | .error _ m => m

/-- The steps do the same, and keep the property of memory and workspace. -/
def Alike (I : Memory → Workspace → Prop) (x y : Exec α) : Prop :=
  ∀ m : Machine, I m.memory m.workspace →
    y m = x m ∧ I (x.after m).memory (x.after m).workspace

theorem Alike.bind {x y : Exec α} {f g : α → Exec β} (hx : Alike I x y)
    (hf : ∀ a, Alike I (f a) (g a)) : Alike I (x >>= f) (y >>= g) := by
  intro m hm
  obtain ⟨heq, h⟩ := hx m hm
  unfold after at h ⊢
  simp only [Bind.bind, EStateM.bind, heq]
  cases hr : x m with
  | ok a m' =>
    simp only [hr] at h ⊢
    exact hf a m' h
  | error e m' =>
    simp only [hr] at h ⊢
    exact ⟨trivial, h⟩

/-- A step after which memory and workspace are the same. -/
theorem alike_of_same {x : Exec α}
    (h : ∀ m, (x.after m).workspace = m.workspace ∧ (x.after m).memory = m.memory) :
    Alike I x x := by
  intro m hm
  rw [(h m).1, (h m).2]
  exact ⟨rfl, hm⟩

theorem alike_pure (a : α) : Alike I (pure a : Exec α) (pure a) := alike_of_same fun _ => ⟨rfl, rfl⟩

theorem alike_throw (e : Fault) : Alike I (throw e : Exec α) (throw e) :=
  alike_of_same fun _ => ⟨rfl, rfl⟩

theorem alike_ofExcept (x : Except Fault α) : Alike I (ofExcept x) (ofExcept x) := by
  cases x with
  | ok a => exact alike_pure a
  | error e => exact alike_throw e

theorem alike_onStack (step : StackStep Value α) : Alike I (onStack step) (onStack step) := by
  refine alike_of_same fun m => ?_
  unfold after onStack
  cases step.run m.stack <;> exact ⟨rfl, rfl⟩

/-! ## Instructions -/

theorem alike_fetch (slot : Nat) : Alike I (fetch slot) (fetch slot) := by
  intro m hm
  exact alike_ofExcept (m.memory.fetch m.workspace.table slot) m hm

/-- What is left of a call once the function has answered. -/
def settle (arity : Nat) (result : Except Fault Value) : Exec Unit := do
  let v ← ofExcept result
  modify fun m => { m with stack := m.stack.drop arity }
  push v

theorem alike_settle (arity : Nat) (result : Except Fault Value) :
    Alike I (settle arity result) (settle arity result) :=
  (alike_ofExcept result).bind fun _ => (alike_of_same fun _ => ⟨rfl, rfl⟩).bind fun _ =>
    alike_onStack _

theorem call_eq {index arity : Nat} {f : HostFunction} {args : List Value} {m : Machine}
    (hf : callees.functions[index]? = some f) (ha : m.stack.top? arity = some args) :
    call callees index arity m =
      settle arity ((f.execute args 0).answer (services callees) m.workspace).1
        { m with workspace := ((f.execute args 0).answer (services callees) m.workspace).2 } := by
  unfold call
  rw [hf]
  simp only [Bind.bind, EStateM.bind, get_apply, ha]
  rfl

/-- A call without a function or without arguments does nothing. -/
theorem call_eq_error (callees : Callees) {index arity : Nat} {m : Machine}
    (h : callees.functions[index]? = none ∨ m.stack.top? arity = none) :
    ∃ e, ∀ other : Callees, other.functions = callees.functions →
      call other index arity m = .error e m := by
  cases hf : callees.functions[index]? with
  | none =>
    refine ⟨.internal "no such function", fun other ho => ?_⟩
    unfold call
    rw [ho, hf]
    rfl
  | some f =>
    refine ⟨.internal "stack underflow", fun other ho => ?_⟩
    have ha := h.resolve_left (by simp [hf])
    unfold call
    rw [ho, hf]
    simp only [Bind.bind, EStateM.bind, get_apply, ha]
    rfl

/-- A call of a host function, whatever it asks of the workspace. -/
theorem alike_call (hc : callees.Steady other slots I) (index arity : Nat) :
    Alike I (call callees index arity) (call other index arity) := by
  intro m hm
  cases hf : callees.functions[index]? with
  | none =>
    have hnone : callees.functions[index]? = none ∨ m.stack.top? arity = none := .inl hf
    obtain ⟨e, he⟩ := call_eq_error callees hnone
    unfold after
    rw [he other hc.functions, he callees rfl]
    exact ⟨rfl, hm⟩
  | some f =>
    cases ha : m.stack.top? arity with
    | none =>
      have hnone : callees.functions[index]? = none ∨ m.stack.top? arity = none := .inr ha
      obtain ⟨e, he⟩ := call_eq_error callees hnone
      unfold after
      rw [he other hc.functions, he callees rfl]
      exact ⟨rfl, hm⟩
    | some args =>
      obtain ⟨heq, hanswer⟩ := (f.execute args 0).alike_answer hc hm
      have hsettle := alike_settle arity
        ((f.execute args 0).answer (services callees) m.workspace).1 { m with
          workspace := ((f.execute args 0).answer (services callees) m.workspace).2 } hanswer
      unfold after at hsettle ⊢
      have hf' : other.functions[index]? = some f := by
        rw [hc.functions]
        exact hf
      rw [call_eq hf' ha, call_eq hf ha, heq]
      exact hsettle

theorem alike_store (hc : callees.Steady other slots I) {slot : Nat} (hslot : slots slot)
    (v : Value) (path : List Int32) : Alike I (store slot v path) (store slot v path) := by
  intro m hm
  have h : Alike I (ofExcept (m.memory.store m.workspace.table slot v path).1)
    (ofExcept (m.memory.store m.workspace.table slot v path).1) := alike_ofExcept _
  exact h { m with
    memory := (m.memory.store m.workspace.table slot v path).2.1
    workspace := { m.workspace with
      table := (m.memory.store m.workspace.table slot v path).2.2 } }
    (hc.store _ _ slot v path hslot hm)

theorem alike_instruction (hc : callees.Steady other slots I) (i : Instruction) :
    Alike I (instruction callees i) (instruction other i) := by
  cases i with
  | immed => exact alike_pure _
  | guard codeLength immediateCount => exact alike_pure _
  | var slot => exact (alike_fetch slot).bind fun v => alike_onStack _
  | call function arity => exact alike_call hc function arity
  | member place =>
    exact (alike_onStack _).bind fun v => (alike_ofExcept _).bind fun v => alike_onStack _
  | index =>
    exact (alike_onStack _).bind fun p => (alike_ofExcept _).bind fun v => alike_onStack _
  | list length => exact (alike_onStack _).bind fun items => alike_onStack _
  | vector =>
    exact (alike_onStack _).bind fun items => (alike_ofExcept _).bind fun v => alike_onStack _
  | matrix =>
    exact (alike_onStack _).bind fun items => (alike_ofExcept _).bind fun v => alike_onStack _
  | unary op pair =>
    exact (alike_onStack _).bind fun v => (alike_ofExcept _).bind fun v => alike_onStack _
  | binary op pair =>
    exact (alike_onStack _).bind fun p => (alike_ofExcept _).bind fun v => alike_onStack _

/-- Working through any words, by induction on how many are left. -/
theorem alike_run (hc : callees.Steady other slots I) (guarded : Bool) (immediates : List Value)
    (words : List UInt32) :
    Alike I (run callees guarded immediates words) (run other guarded immediates words) := by
  induction guarded, immediates, words using run_induction with
  | finished =>
    rw [run_nil, run_nil]
    exact alike_onStack _
  | noValue =>
    rw [run_nil_guarded, run_nil_guarded]
    exact alike_throw _
  | unreadable hd =>
    rw [run_of_decode_error other hd, run_of_decode_error callees hd]
    exact alike_throw _
  | missing hd =>
    rw [run_immed_nil other hd, run_immed_nil callees hd]
    exact alike_throw _
  | immed hd ih =>
    rw [run_immed other _ _ _ hd, run_immed callees _ _ _ hd]
    exact (alike_onStack _).bind fun _ => ih
  | guard hd ih ih' =>
    rw [run_guard other _ _ hd, run_guard callees _ _ hd]
    refine (alike_onStack _).bind fun v => (alike_ofExcept _).bind fun condition => ?_
    split
    · exact ih
    · exact ih'
  | plain hd hplain ih =>
    rw [run_plain other _ _ hd hplain, run_plain callees _ _ hd hplain]
    exact (alike_instruction hc _).bind fun _ => ih

/-! ## Statements -/

theorem alike_value (hc : callees.Steady other slots I) (s : Statement) :
    Alike I (value callees s) (value other s) :=
  (alike_of_same fun _ => ⟨rfl, rfl⟩).bind fun _ => alike_run hc _ _ _

theorem alike_statement (hc : callees.Steady other slots I) {s : Statement}
    (hs : ∀ slot pathLength, s.kind = .store slot pathLength → slots slot) :
    Alike I (statement callees s) (statement other s) := by
  unfold statement
  split
  · exact alike_pure _
  · refine (alike_value hc s).bind fun v => (alike_ofExcept _).bind fun condition => ?_
    split <;> exact alike_pure _
  · exact ((alike_value hc s).bind fun _ => alike_pure _).bind fun _ => alike_pure _
  · next slot pathLength hkind =>
    refine (alike_value hc s).bind fun v => (alike_onStack _).bind fun path => ?_
    refine (alike_ofExcept _).bind fun indices => ?_
    exact (alike_store hc (hs slot pathLength hkind) _ _).bind fun _ => alike_pure _

theorem alike_placing (p : Position) {x y : Exec α} (hx : Alike I x y) :
    Alike I (placing p x) (placing p y) := by
  intro m hm
  obtain ⟨heq, h⟩ := hx m hm
  unfold after at h ⊢
  unfold placing
  rw [heq]
  cases hr : x m <;> simpa only [hr, true_and] using h

/-- Running statements, by induction on the statements that are left. -/
theorem alike_statements (hc : callees.Steady other slots I) (skip : Nat) {body : List Statement}
    (hbody : ∀ s ∈ body, ∀ slot pathLength, s.kind = .store slot pathLength → slots slot) :
    Alike I (statements callees skip body) (statements other skip body) := by
  induction body generalizing skip with
  | nil => exact alike_pure _
  | cons s rest ih =>
    obtain ⟨hs, hrest⟩ := List.forall_mem_cons.1 hbody
    cases skip with
    | zero => exact (alike_placing _ (alike_statement hc hs)).bind fun distance => ih _ hrest
    | succ skip => exact ih skip hrest

end Exec

/-- A run keeps what stores, dispatched scripts and random numbers keep, and does the same where
dispatching does. -/
theorem Program.alike_run {callees other : Callees} {I : Memory → Workspace → Prop} {p : Program}
    (hc : callees.Steady other p.StoresTo I) {memory : Memory} {w : Workspace}
    (hw : I memory w) :
    p.run other memory w = p.run callees memory w ∧
      I (p.run callees memory w).2.1 (p.run callees memory w).2.2 := by
  obtain ⟨heq, h⟩ := Exec.alike_statements hc 0 (fun s hs slot n hkind => ⟨s, hs, n, hkind⟩)
    ⟨.empty "evaluation stack" p.maxDepth, memory, w⟩ hw
  unfold Exec.after at h
  unfold run EStateM.run
  dsimp only
  rw [heq]
  refine ⟨rfl, ?_⟩
  split at h <;> next hr => simpa only [hr] using h

/-- The same of a runner, between its start and its end. -/
theorem Workspace.alike_engage {run other : String → Workspace → Except Fault Unit × Workspace}
    {I : Memory → Workspace → Prop} {w : Workspace} {name : String} {r : Runner}
    (hc : Callees.Steady ⟨r.program.functions, dispatchBy run⟩
      ⟨r.program.functions, dispatchBy other⟩ r.program.StoresTo I)
    (hw : I r.memory (w.enter name)) :
    engage other name r w = engage run name r w ∧ ∃ memory w', I memory w' ∧
      (engage run name r w).2 = w'.leave name { r with memory := memory } := by
  obtain ⟨heq, h⟩ := r.program.alike_run hc hw
  unfold engage
  dsimp only
  rw [heq]
  exact ⟨rfl, _, _, h, rfl⟩

end VectorScript
