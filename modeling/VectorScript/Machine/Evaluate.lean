import VectorScript.Machine.Stack
import VectorScript.Operation.Kernel
import VectorScript.Workspace.Basic

/-!
# Evaluating code

The machine works through the words of a statement, takes immediate values from their own list and
keeps everything else on the evaluation stack. A guard whose condition holds confines it to the
guarded words; otherwise it skips them with their immediates. A statement with guards of which none
holds has no value.
-/

namespace VectorScript

/-! ## Instructions -/

/-- An instruction with its operands. -/
inductive Instruction
  | immed
  | var (slot : Nat)
  | call (function arity : Nat)
  | guard (codeLength immediateCount : Nat)
  | member (place : Nat)
  | index
  | list (length : Nat)
  | vector
  | matrix
  | unary (op : Opcode) (pair : OperandPair)
  | binary (op : Opcode) (pair : OperandPair)
  deriving DecidableEq, Repr

namespace Instruction

def truncated : Fault := .internal "truncated instruction"

/-- The instruction of an opcode, and the words after its operands. -/
def ofOpcode (op : Opcode) (pair : OperandPair) (rest : List UInt32) :
    Except Fault (Instruction × List UInt32) :=
  match op, rest with
  | .immed, rest => .ok (immed, rest)
  | .index, rest => .ok (index, rest)
  | .vector, rest => .ok (vector, rest)
  | .matrix, rest => .ok (matrix, rest)
  | .var, a :: rest => .ok (var a.toNat, rest)
  | .member, a :: rest => .ok (member a.toNat, rest)
  | .list, a :: rest => .ok (list a.toNat, rest)
  | .fun, a :: b :: rest => .ok (call a.toNat b.toNat, rest)
  | .guard, a :: b :: rest => .ok (guard a.toNat b.toNat, rest)
  | .var, _ | .member, _ | .list, _ | .fun, _ | .guard, _ => .error truncated
  | op, rest => .ok (if op.isUnary then unary op pair else binary op pair, rest)

/-- Decodes the instruction that starts with a word. -/
def decode (word : UInt32) (rest : List UInt32) : Except Fault (Instruction × List UInt32) :=
  match Opcode.decode word with
  | some (op, pair) => ofOpcode op pair rest
  | none => .error (.internal "bad instruction")

theorem length_ofOpcode {op : Opcode} {pair : OperandPair} {rest after : List UInt32}
    {i : Instruction} (h : ofOpcode op pair rest = .ok (i, after)) :
    after.length ≤ rest.length := by
  unfold ofOpcode at h
  split at h <;> simp only [Except.ok.injEq, Prod.mk.injEq, reduceCtorEq] at h <;>
    (obtain ⟨_, rfl⟩ := h; grind)

theorem length_decode {word : UInt32} {rest after : List UInt32} {i : Instruction}
    (h : decode word rest = .ok (i, after)) : after.length ≤ rest.length := by
  unfold decode at h
  split at h
  · exact length_ofOpcode h
  · cases h

end Instruction

/-! ## The machine -/

/-- The state of a running program. -/
structure Machine where
  stack : Stack Value
  memory : Memory
  workspace : Workspace

/-- A step of the machine; a step that fails keeps what it has done. -/
abbrev Exec := EStateM Fault Machine

/-- What a running program can call. -/
structure Callees where
  functions : List HostFunction
  /-- Runs another script to completion. -/
  dispatch : String → Workspace → Except Fault Unit × Workspace

namespace Exec

/-- A step on the stack. -/
def onStack {α : Type} (step : StackStep Value α) : Exec α := fun m =>
  match step.run m.stack with
  | .ok a stack => .ok a { m with stack := stack }
  | .error e stack => .error e { m with stack := stack }

def push (v : Value) : Exec Unit := onStack (Stack.push v)

def pop : Exec Value := onStack Stack.pop

def popPair : Exec (Value × Value) := onStack Stack.popPair

def popMany (n : Nat) : Exec (List Value) := onStack (Stack.popMany n)

def ofExcept {α : Type} : Except Fault α → Exec α
  | .ok a => return a
  | .error e => throw e

/-- The services of the workspace, given how it runs other scripts. -/
def services (callees : Callees) : Services Workspace where
  dispatch := callees.dispatch
  random := Workspace.random

/-- Calls a host function on the topmost values and puts its result in their place. -/
def call (callees : Callees) (index arity : Nat) : Exec Unit := do
  let some f := callees.functions[index]? | throw (.internal "no such function")
  let m ← get
  let some args := m.stack.top? arity | throw (.internal "stack underflow")
  let (result, workspace) := (f.execute args 0).answer (services callees) m.workspace
  set { m with workspace := workspace }
  let v ← ofExcept result
  modify fun m => { m with stack := m.stack.drop arity }
  push v

def fetch (slot : Nat) : Exec Value := do
  let m ← get
  ofExcept (m.memory.fetch m.workspace.table slot)

/-- The item of a list value at an integer. -/
def item (list index : Value) : Except Fault Value := do
  let i ← index.asInteger
  let items ← list.asList
  let found := if 0 ≤ i.toInt then items[i.toInt.toNat]? else none
  match found with
  | some v => return v
  | none =>
    throw ((Fault.of .outOfRange).because
      ("index " ++ toString i.toInt ++ " of " ++ toString items.length))

def fieldOf (place : Nat) (record : Value) : Except Fault Value := do
  match (← record.asList)[place]? with
  | some v => return v
  | none => throw (.internal "no such field")

/-- Four numbers as a vector. -/
def vectorOf (items : List Value) : Except Fault Value := do
  match ← items.mapM Value.asReal with
  | [x, y, z, w] => return .vector ⟨x, y, z, w⟩
  | _ => throw (.internal "four components expected")

/-- Four vectors as a matrix. -/
def matrixOf (items : List Value) : Except Fault Value := do
  match ← items.mapM Value.asVector with
  | [a, b, c, d] => return .matrix ⟨a, b, c, d⟩
  | _ => throw (.internal "four components expected")

/-- Carries out an instruction that neither takes an immediate nor is a guard. -/
def instruction (callees : Callees) : Instruction → Exec Unit
  | .immed | .guard _ _ => return ()
  | .var slot => do push (← fetch slot)
  | .call function arity => call callees function arity
  | .member place => do push (← ofExcept (fieldOf place (← pop)))
  | .index => do
    let (list, index) ← popPair
    push (← ofExcept (item list index))
  | .list length => do push (.list (← popMany length))
  | .vector => do push (← ofExcept (vectorOf (← popMany 4)))
  | .matrix => do push (← ofExcept (matrixOf (← popMany 4)))
  | .unary op pair => do push (← ofExcept (Kernel.unary op pair (← pop)))
  | .binary op pair => do
    let (left, right) ← popPair
    push (← ofExcept (Kernel.binary op pair left right))

/-- Works through words and immediates and takes the value from the stack. `guarded` says that a
guard has been passed whose condition did not hold. -/
def run (callees : Callees) (guarded : Bool) (immediates : List Value) (words : List UInt32) :
    Exec Value :=
  match words with
  | [] => if guarded then throw (.of .noValue) else pop
  | word :: rest =>
    match h : Instruction.decode word rest with
    | .error e => throw e
    | .ok (i, after) =>
      have : after.length ≤ rest.length := Instruction.length_decode h
      match i with
      | .immed =>
        match immediates with
        | [] => throw (.internal "missing immediate")
        | v :: immediates => do
          push v
          run callees guarded immediates after
      | .guard codeLength immediateCount => do
        let condition ← ofExcept (← pop).asInteger
        if condition ≠ 0 then run callees false immediates (after.take codeLength)
        else run callees true (immediates.drop immediateCount) (after.drop codeLength)
      | i => do
        instruction callees i
        run callees guarded immediates after
termination_by words.length
decreasing_by all_goals (simp; omega)

/-! ## Statements and programs -/

/-- Evaluates the code of a statement on an empty stack. Path indices stay below the value. -/
def value (callees : Callees) (s : Statement) : Exec Value := do
  modify fun m => { m with stack := m.stack.clear }
  run callees false s.immediates s.code

/-- Stores a value in a variable. -/
def store (slot : Nat) (v : Value) (path : List Int32) : Exec Unit := do
  let m ← get
  let (outcome, memory, table) := m.memory.store m.workspace.table slot v path
  set { m with memory := memory, workspace := { m.workspace with table := table } }
  ofExcept outcome

/-- Runs a statement and gives how far to advance. -/
def statement (callees : Callees) (s : Statement) : Exec Nat :=
  match s.kind with
  | .jump distance => return distance
  | .unless distance => do
    let condition ← ofExcept (← value callees s).asInteger
    if condition ≠ 0 then return 1 else return distance
  | .discard => do
    discard (value callees s)
    return 1
  | .store slot pathLength => do
    let v ← value callees s
    let path ← popMany pathLength
    store slot v (← ofExcept (path.mapM Value.asInteger))
    return 1

/-- A step whose fault, if any, is put at a position. -/
def placing {α : Type} (p : Position) (step : Exec α) : Exec α := fun m =>
  match step m with
  | .ok a m => .ok a m
  | .error e m => .error (e.located p) m

/-- Runs statements from the top, passing over `skip` of them first. A fault is reported where its
statement stands. -/
def statements (callees : Callees) (skip : Nat) : List Statement → Exec Unit
  | [] => return ()
  | s :: rest =>
    match skip with
    | skip + 1 => statements callees skip rest
    | 0 => do
      let distance ← placing s.position (statement callees s)
      statements callees (distance - 1) rest

end Exec

/-- Runs a program on its memory. -/
def Program.run (p : Program) (callees : Callees) (memory : Memory) (workspace : Workspace) :
    Except Fault Unit × Memory × Workspace :=
  let machine : Machine := ⟨.empty "evaluation stack" p.maxDepth, memory, workspace⟩
  match EStateM.run (Exec.statements callees 0 p.statements) machine with
  | .ok () m => (.ok (), m.memory, m.workspace)
  | .error e m => (.error e, m.memory, m.workspace)

end VectorScript
