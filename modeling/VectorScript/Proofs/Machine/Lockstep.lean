import VectorScript.Proofs.Machine.Conduct
import Mathlib.Data.List.Nodup

/-!
# Runs side by side

A program whose calls ask for no service reads nothing of its workspace but what its variables hold
there. So in two workspaces that hold the same in them (`Reads`) it goes through the same values, ends
in the same way and leaves the same memory, however the workspaces differ elsewhere and whatever
dispatching would do in them.

    Reads I p.StoresTo → (∀ f, p.Calls f → f.Quiet) → I memory w w' →
      p.run in w' does what p.run does in w                                     (Program.lockstep)

`Exec.Lockstep` is the judgement on steps; it goes by the constructors of the machine's steps.
-/

namespace VectorScript

/-! ## Functions that ask for nothing -/

/-- Answers at once, without a service of its host. -/
def HostFunction.Quiet (f : HostFunction) : Prop := ∀ args, ∃ result, f.body args = .done result

theorem HostFunction.Quiet.execute {f : HostFunction} (h : f.Quiet) (values : List Value)
    (offset : Nat) : ∃ result, f.execute values offset = .done result := by
  unfold HostFunction.execute
  split
  · exact h _
  · exact ⟨_, rfl⟩

/-- Only two functions of the library need a service. -/
theorem Library.quiet : ∀ f ∈ functions, f.name ≠ dispatchName → f.name ≠ random.name → f.Quiet := by
  have hresult : ∀ name params ret result, (HostFunction.ofResult name params ret result).name ≠
      dispatchName → (HostFunction.ofResult name params ret result).name ≠ random.name →
        (HostFunction.ofResult name params ret result).Quiet :=
    fun _ _ _ _ _ _ _ => ⟨_, rfl⟩
  unfold functions realFunction
  simp only [List.forall_mem_cons, List.not_mem_nil, false_imp_iff, implies_true, and_true]
  iterate 29 refine ⟨hresult _ _ _ _, ?_⟩
  exact ⟨fun _ h => absurd rfl h, fun h => absurd rfl h⟩

/-- No two functions of the library have the same name. -/
theorem Library.eq_of_name {f g : HostFunction} (hf : f ∈ functions) (hg : g ∈ functions)
    (h : f.name = g.name) : f = g := by
  have hnodup : (functions.map HostFunction.name).Nodup := by decide
  exact List.inj_on_of_nodup_map hnodup hf hg h

/-- Only one function of the library runs scripts by their names. -/
theorem Library.eq_dispatch {f : HostFunction} (hf : f ∈ functions) (h : f.name = dispatchName) :
    f = dispatch :=
  eq_of_name hf (List.mem_of_getElem? (show functions[30]? = some dispatch from rfl)) h

/-! ## What code calls -/

/-- The function that the instruction calls. -/
def Instruction.callee? : Instruction → Option Nat
  | .call function _ => some function
  | _ => none

/-- The functions that code calls, whichever way its guards go. -/
def Exec.calls (words : List UInt32) : List Nat :=
  match words with
  | [] => []
  | word :: rest =>
    match h : Instruction.decode word rest with
    | .error _ => []
    | .ok (i, after) =>
      have : after.length ≤ rest.length := Instruction.length_decode h
      match i with
      | .guard codeLength _ => calls (after.take codeLength) ++ calls (after.drop codeLength)
      | i => i.callee?.toList ++ calls after
termination_by words.length
decreasing_by all_goals (simp; omega)

/-- The program has code that calls the function. -/
def Program.Calls (p : Program) (f : HostFunction) : Prop :=
  ∃ s ∈ p.statements, ∃ index ∈ Exec.calls s.code, p.functions[index]? = some f

/-! ## Workspaces side by side -/

/-- For a program that stores to some slots only, related workspaces hold the same in its variables,
also after it has stored a value. -/
structure Reads (I : Memory → Workspace → Workspace → Prop) (slots : Nat → Prop) : Prop where
  fetch : ∀ {memory : Memory} {w w' : Workspace} (slot : Nat), I memory w w' →
    memory.fetch w'.table slot = memory.fetch w.table slot
  store : ∀ {memory : Memory} {w w' : Workspace} {slot : Nat} (v : Value) (path : List Int32),
    slots slot → I memory w w' →
      (memory.store w'.table slot v path).1 = (memory.store w.table slot v path).1 ∧
      (memory.store w'.table slot v path).2.1 = (memory.store w.table slot v path).2.1 ∧
      I (memory.store w.table slot v path).2.1
        { w with table := (memory.store w.table slot v path).2.2 }
        { w' with table := (memory.store w'.table slot v path).2.2 }

/-- The same machine in another workspace. -/
def Machine.inside (w : Workspace) (m : Machine) : Machine := { m with workspace := w }

/-- What a step gives, in another workspace. -/
def Exec.resultInside {α : Type} (w : Workspace) :
    EStateM.Result Fault Machine α → EStateM.Result Fault Machine α
  | .ok a m => .ok a (m.inside w)
  | .error e m => .error e (m.inside w)

namespace Exec

variable {α β : Type} {I : Memory → Workspace → Workspace → Prop} {slots : Nat → Prop}
  {callees other : Callees}

/-- In related workspaces the steps give the same, but for the workspaces, which are related still. -/
def Lockstep (I : Memory → Workspace → Workspace → Prop) (x y : Exec α) : Prop :=
  ∀ (m : Machine) (w : Workspace), I m.memory m.workspace w → ∃ w',
    y (m.inside w) = resultInside w' (x m) ∧ I (x.after m).memory (x.after m).workspace w'

theorem Lockstep.bind {x y : Exec α} {f g : α → Exec β} (hx : Lockstep I x y)
    (hf : ∀ a, Lockstep I (f a) (g a)) : Lockstep I (x >>= f) (y >>= g) := by
  intro m w hm
  obtain ⟨w', heq, h⟩ := hx m w hm
  unfold after at h ⊢
  simp only [Bind.bind, EStateM.bind, heq]
  cases hr : x m with
  | ok a m' =>
    simp only [hr, resultInside] at h ⊢
    exact hf a m' w' h
  | error e m' =>
    simp only [hr, resultInside] at h ⊢
    exact ⟨w', rfl, h⟩

/-- A step that does not look at the workspace, and after which memory and workspace are the same. -/
theorem lockstep_of_same {x : Exec α} (hinside : ∀ m w, x (m.inside w) = resultInside w (x m))
    (hsame : ∀ m, (x.after m).workspace = m.workspace ∧ (x.after m).memory = m.memory) :
    Lockstep I x x := by
  intro m w hm
  refine ⟨w, hinside m w, ?_⟩
  rw [(hsame m).1, (hsame m).2]
  exact hm

theorem lockstep_pure (a : α) : Lockstep I (pure a : Exec α) (pure a) :=
  lockstep_of_same (fun _ _ => rfl) fun _ => ⟨rfl, rfl⟩

theorem lockstep_throw (e : Fault) : Lockstep I (throw e : Exec α) (throw e) :=
  lockstep_of_same (fun _ _ => rfl) fun _ => ⟨rfl, rfl⟩

theorem lockstep_ofExcept (x : Except Fault α) : Lockstep I (ofExcept x) (ofExcept x) := by
  cases x with
  | ok a => exact lockstep_pure a
  | error e => exact lockstep_throw e

theorem lockstep_onStack (step : StackStep Value α) : Lockstep I (onStack step) (onStack step) := by
  refine lockstep_of_same (fun m w => ?_) fun m => ?_
  · unfold onStack
    dsimp only [Machine.inside]
    cases step.run m.stack <;> rfl
  · unfold after onStack
    cases step.run m.stack <;> exact ⟨rfl, rfl⟩

/-! ## Instructions -/

theorem lockstep_fetch (hI : Reads I slots) (slot : Nat) : Lockstep I (fetch slot) (fetch slot) := by
  intro m w hm
  obtain ⟨w', heq, h⟩ := lockstep_ofExcept (m.memory.fetch m.workspace.table slot) m w hm
  refine ⟨w', ?_, h⟩
  show ofExcept (m.memory.fetch w.table slot) (m.inside w) = _
  rw [hI.fetch slot hm]
  exact heq

theorem lockstep_settle (arity : Nat) (result : Except Fault Value) :
    Lockstep I (settle arity result) (settle arity result) :=
  (lockstep_ofExcept result).bind fun _ =>
    (lockstep_of_same (fun _ _ => rfl) fun _ => ⟨rfl, rfl⟩).bind fun _ => lockstep_onStack _

/-- A call of a function that asks for nothing leaves the workspace out. -/
theorem call_quiet {index arity : Nat} {f : HostFunction} (hf : callees.functions[index]? = some f)
    (hquiet : f.Quiet) {m : Machine} {args : List Value} (ha : m.stack.top? arity = some args) :
    ∃ result, f.execute args 0 = .done result ∧ call callees index arity m = settle arity result m := by
  obtain ⟨result, hresult⟩ := hquiet.execute args 0
  refine ⟨result, hresult, ?_⟩
  rw [call_eq hf ha, hresult]
  rfl

theorem lockstep_call {index : Nat}
    (hquiet : ∀ f, callees.functions[index]? = some f → f.Quiet)
    (hfunctions : other.functions = callees.functions) (arity : Nat) :
    Lockstep I (call callees index arity) (call other index arity) := by
  intro m w hm
  cases hf : callees.functions[index]? with
  | none =>
    unfold call
    rw [hfunctions, hf]
    exact lockstep_throw _ m w hm
  | some f =>
    have hf' : other.functions[index]? = some f := by rw [hfunctions, hf]
    cases ha : m.stack.top? arity with
    | none =>
      have ha' : (m.inside w).stack.top? arity = none := ha
      unfold after call
      rw [hf, hf']
      simp only [Bind.bind, EStateM.bind, get_apply, ha, ha']
      exact ⟨w, rfl, hm⟩
    | some args =>
      have ha' : (m.inside w).stack.top? arity = some args := ha
      -- A quiet function has the same result without asking either workspace.
      obtain ⟨result, hresult, hcall⟩ := call_quiet hf (hquiet f hf) ha
      obtain ⟨result', hresult', hcall'⟩ := call_quiet hf' (hquiet f hf) ha'
      obtain rfl : result = result' := Call.done.inj (hresult.symm.trans hresult')
      unfold after
      rw [hcall, hcall']
      exact lockstep_settle arity result m w hm

theorem lockstep_store (hI : Reads I slots) {slot : Nat} (hslot : slots slot) (v : Value)
    (path : List Int32) : Lockstep I (store slot v path) (store slot v path) := by
  intro m w hm
  obtain ⟨houtcome, hmemory, hrelated⟩ := hI.store v path hslot hm
  have h := lockstep_ofExcept (m.memory.store m.workspace.table slot v path).1
    { m with
      memory := (m.memory.store m.workspace.table slot v path).2.1
      workspace := { m.workspace with
        table := (m.memory.store m.workspace.table slot v path).2.2 } }
    { w with table := (m.memory.store w.table slot v path).2.2 } hrelated
  obtain ⟨w', heq, h⟩ := h
  refine ⟨w', ?_, h⟩
  show ofExcept (m.memory.store w.table slot v path).1
    { m with
      memory := (m.memory.store w.table slot v path).2.1
      workspace := { w with table := (m.memory.store w.table slot v path).2.2 } } = _
  rw [houtcome, hmemory]
  exact heq

theorem lockstep_instruction (hI : Reads I slots) (hfunctions : other.functions = callees.functions)
    {i : Instruction} (hquiet : ∀ function arity, i = .call function arity →
      ∀ f, callees.functions[function]? = some f → f.Quiet) :
    Lockstep I (instruction callees i) (instruction other i) := by
  cases i with
  | immed => exact lockstep_pure _
  | guard codeLength immediateCount => exact lockstep_pure _
  | var slot => exact (lockstep_fetch hI slot).bind fun v => lockstep_onStack _
  | call function arity => exact lockstep_call (hquiet function arity rfl) hfunctions arity
  | member place =>
    exact (lockstep_onStack _).bind fun v => (lockstep_ofExcept _).bind fun v => lockstep_onStack _
  | index =>
    exact (lockstep_onStack _).bind fun p => (lockstep_ofExcept _).bind fun v => lockstep_onStack _
  | list length => exact (lockstep_onStack _).bind fun items => lockstep_onStack _
  | vector =>
    exact (lockstep_onStack _).bind fun items => (lockstep_ofExcept _).bind fun v =>
      lockstep_onStack _
  | matrix =>
    exact (lockstep_onStack _).bind fun items => (lockstep_ofExcept _).bind fun v =>
      lockstep_onStack _
  | unary op pair =>
    exact (lockstep_onStack _).bind fun v => (lockstep_ofExcept _).bind fun v => lockstep_onStack _
  | binary op pair =>
    exact (lockstep_onStack _).bind fun p => (lockstep_ofExcept _).bind fun v => lockstep_onStack _

/-! ## Code -/

theorem calls_guard {word : UInt32} {rest after : List UInt32} {codeLength count : Nat}
    (hd : Instruction.decode word rest = .ok (.guard codeLength count, after)) :
    calls (word :: rest) = calls (after.take codeLength) ++ calls (after.drop codeLength) := by
  rw [calls]
  split
  · next h => cases hd.symm.trans h
  · next h =>
    cases hd.symm.trans h
    rfl

/-- Any other instruction is a call itself, or what is called comes after it. -/
theorem mem_calls {word : UInt32} {rest after : List UInt32} {i : Instruction}
    (hd : Instruction.decode word rest = .ok (i, after)) (hi : ∀ n k, i ≠ .guard n k) :
    (∀ index ∈ calls after, index ∈ calls (word :: rest)) ∧
      ∀ function arity, i = .call function arity → function ∈ calls (word :: rest) := by
  rw [calls]
  split
  · next h => cases hd.symm.trans h
  · next h =>
    cases hd.symm.trans h
    split
    · next n k _ => exact absurd rfl (hi n k)
    · refine ⟨fun index hindex => List.mem_append_right _ hindex, fun function arity h => ?_⟩
      subst h
      exact List.mem_append_left _ List.mem_cons_self

/-- Working through any words, by induction on how many are left. -/
theorem lockstep_run (hI : Reads I slots) (hfunctions : other.functions = callees.functions)
    (guarded : Bool) (immediates : List Value) {words : List UInt32}
    (hquiet : ∀ index ∈ calls words, ∀ f, callees.functions[index]? = some f → f.Quiet) :
    Lockstep I (run callees guarded immediates words) (run other guarded immediates words) := by
  induction guarded, immediates, words using run_induction with
  | finished =>
    rw [run_nil, run_nil]
    exact lockstep_onStack _
  | noValue =>
    rw [run_nil_guarded, run_nil_guarded]
    exact lockstep_throw _
  | unreadable hd =>
    rw [run_of_decode_error other hd, run_of_decode_error callees hd]
    exact lockstep_throw _
  | missing hd =>
    rw [run_immed_nil other hd, run_immed_nil callees hd]
    exact lockstep_throw _
  | immed hd ih =>
    rw [run_immed other _ _ _ hd, run_immed callees _ _ _ hd]
    have hafter := (mem_calls hd (by simp)).1
    exact (lockstep_onStack _).bind fun _ => ih fun index hindex => hquiet index (hafter index hindex)
  | guard hd ih ih' =>
    rw [run_guard other _ _ hd, run_guard callees _ _ hd]
    rw [calls_guard hd] at hquiet
    refine (lockstep_onStack _).bind fun v => (lockstep_ofExcept _).bind fun condition => ?_
    split
    -- The calls of a guard are those of its branch and those behind it.
    · exact ih fun index hindex => hquiet index (List.mem_append_left _ hindex)
    · exact ih' fun index hindex => hquiet index (List.mem_append_right _ hindex)
  | @plain _ _ _ _ i _ hd hplain ih =>
    rw [run_plain other _ _ hd hplain, run_plain callees _ _ hd hplain]
    obtain ⟨hafter, hcall⟩ := mem_calls hd fun n k h => by
      rw [h] at hplain
      cases hplain
    have hcalls : ∀ function arity, i = .call function arity →
        ∀ f, callees.functions[function]? = some f → f.Quiet :=
      fun function arity h => hquiet function (hcall function arity h)
    exact (lockstep_instruction hI hfunctions hcalls).bind fun _ =>
      ih fun index hindex => hquiet index (hafter index hindex)

/-! ## Statements -/

section

variable {s : Statement}

theorem lockstep_value (hI : Reads I slots) (hfunctions : other.functions = callees.functions)
    (hquiet : ∀ index ∈ calls s.code, ∀ f, callees.functions[index]? = some f → f.Quiet) :
    Lockstep I (value callees s) (value other s) :=
  (lockstep_of_same (fun _ _ => rfl) fun _ => ⟨rfl, rfl⟩).bind fun _ =>
    lockstep_run hI hfunctions _ _ hquiet

theorem lockstep_statement (hI : Reads I slots) (hfunctions : other.functions = callees.functions)
    (hquiet : ∀ index ∈ calls s.code, ∀ f, callees.functions[index]? = some f → f.Quiet)
    (hs : ∀ slot pathLength, s.kind = .store slot pathLength → slots slot) :
    Lockstep I (statement callees s) (statement other s) := by
  have hvalue := lockstep_value hI hfunctions hquiet
  unfold statement
  split
  · exact lockstep_pure _
  · refine hvalue.bind fun v => (lockstep_ofExcept _).bind fun condition => ?_
    split <;> exact lockstep_pure _
  · exact (hvalue.bind fun _ => lockstep_pure _).bind fun _ => lockstep_pure _
  · next slot pathLength hkind =>
    refine hvalue.bind fun v => (lockstep_onStack _).bind fun path => ?_
    refine (lockstep_ofExcept _).bind fun indices => ?_
    exact (lockstep_store hI (hs slot pathLength hkind) _ _).bind fun _ => lockstep_pure _

theorem lockstep_placing (p : Position) {x y : Exec α} (hx : Lockstep I x y) :
    Lockstep I (placing p x) (placing p y) := by
  intro m w hm
  obtain ⟨w', heq, h⟩ := hx m w hm
  unfold after at h ⊢
  unfold placing
  rw [heq]
  refine ⟨w', ?_⟩
  cases hr : x m <;> simp only [hr, resultInside] at h ⊢ <;> exact ⟨trivial, h⟩

/-- Running statements, by induction on the statements that are left. -/
theorem lockstep_statements (hI : Reads I slots) (hfunctions : other.functions = callees.functions)
    (skip : Nat) {body : List Statement} (hquiet : ∀ s ∈ body, ∀ index ∈ calls s.code,
      ∀ f, callees.functions[index]? = some f → f.Quiet)
    (hbody : ∀ s ∈ body, ∀ slot pathLength, s.kind = .store slot pathLength → slots slot) :
    Lockstep I (statements callees skip body) (statements other skip body) := by
  induction body generalizing skip with
  | nil => exact lockstep_pure _
  | cons s rest ih =>
    obtain ⟨hs, hrest⟩ := List.forall_mem_cons.1 hbody
    obtain ⟨hquiet, hquiet'⟩ := List.forall_mem_cons.1 hquiet
    cases skip with
    | zero =>
      exact (lockstep_placing _ (lockstep_statement hI hfunctions hquiet hs)).bind fun distance =>
        ih _ hquiet' hrest
    | succ skip => exact ih skip hquiet' hrest

end

end Exec

/-- A program whose calls ask for nothing does the same in related workspaces, and leaves them
related. -/
theorem Program.lockstep {I : Memory → Workspace → Workspace → Prop} {p : Program}
    (hI : Reads I p.StoresTo) (hquiet : ∀ f, p.Calls f → f.Quiet)
    (dispatch dispatch' : String → Workspace → Except Fault Unit × Workspace) {memory : Memory}
    {w w' : Workspace} (hw : I memory w w') :
    (p.run ⟨p.functions, dispatch'⟩ memory w').1 = (p.run ⟨p.functions, dispatch⟩ memory w).1 ∧
      (p.run ⟨p.functions, dispatch'⟩ memory w').2.1 =
        (p.run ⟨p.functions, dispatch⟩ memory w).2.1 ∧
      I (p.run ⟨p.functions, dispatch⟩ memory w).2.1
        (p.run ⟨p.functions, dispatch⟩ memory w).2.2
        (p.run ⟨p.functions, dispatch'⟩ memory w').2.2 := by
  let callees : Callees := ⟨p.functions, dispatch⟩
  let other : Callees := ⟨p.functions, dispatch'⟩
  have hfunctions : other.functions = callees.functions := rfl
  have hlockstep : Exec.Lockstep I (Exec.statements callees 0 p.statements)
      (Exec.statements other 0 p.statements) :=
    Exec.lockstep_statements hI hfunctions 0
      (fun s hs index hindex f hf => hquiet f ⟨s, hs, index, hindex, hf⟩)
      fun s hs slot n hkind => ⟨s, hs, n, hkind⟩
  obtain ⟨w'', heq, h⟩ := hlockstep ⟨.empty "evaluation stack" p.maxDepth, memory, w⟩ w' hw
  unfold Machine.inside at heq
  unfold Exec.after at h
  unfold run EStateM.run
  dsimp only at heq h ⊢
  rw [heq]
  cases hr : Exec.statements callees 0 p.statements
      ⟨.empty "evaluation stack" p.maxDepth, memory, w⟩ <;>
    simp only [hr, Exec.resultInside] at h ⊢ <;> exact ⟨trivial, rfl, h⟩

end VectorScript
