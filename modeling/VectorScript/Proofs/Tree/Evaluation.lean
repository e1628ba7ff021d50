import VectorScript.Machine.Evaluate
import VectorScript.Tree.Stmt

/-!
# Evaluating a tree

The value of an expression, read off its tree: operands and arguments from left to right, each
exactly once, then the operation on them. Nothing is skipped, and the first fault ends the
evaluation. An expression sees the memory of its script, which it cannot change, and the workspace,
which its calls may change. There is no stack here and no code.
-/

namespace VectorScript

/-- An evaluation: a value or a fault, with what calls have made of the workspace. -/
abbrev Eval := EStateM Fault Workspace

namespace Eval

def ofExcept {α : Type} : Except Fault α → Eval α
  | .ok a => return a
  | .error e => throw e

/-- Calls a host function by its index. -/
def call (callees : Callees) (function : Nat) (args : List Value) : Eval Value :=
  match callees.functions[function]? with
  | none => throw (.internal "no such function")
  | some f => fun w =>
    match (f.execute args 0).answer (Exec.services callees) w with
    | (.ok v, w) => .ok v w
    | (.error e, w) => .error e w

/-- The value of a variable. -/
def fetch (memory : Memory) (slot : Nat) : Eval Value := do
  ofExcept (memory.fetch (← get).table slot)

end Eval

namespace Expr

/-- The operand types that an instruction carries, integers if it has none. -/
def tag (pair : Option OperandPair) : OperandPair := pair.getD ⟨.integer, .integer⟩

variable (callees : Callees) (memory : Memory)

mutual

/-- The value of an expression. -/
def eval : Expr → Eval Value
  | literal v => return v
  | var slot => Eval.fetch memory slot
  | unary op pair e => do
    let v ← eval e
    Eval.ofExcept (Kernel.unary op.opcode (tag pair) v)
  | binary op pair l r => do
    let a ← eval l
    let b ← eval r
    Eval.ofExcept (Kernel.binary op.opcode (tag pair) a b)
  | element l i => do
    let a ← eval l
    let b ← eval i
    Eval.ofExcept (Exec.item a b)
  | field r place => do
    let v ← eval r
    Eval.ofExcept (Exec.fieldOf place v)
  | list items => do
    let vs ← evalAll items
    return .list vs
  | vector x y z w => do
    let a ← eval x
    let b ← eval y
    let c ← eval z
    let d ← eval w
    Eval.ofExcept (Exec.vectorOf [a, b, c, d])
  | matrix x y z w => do
    let a ← eval x
    let b ← eval y
    let c ← eval z
    let d ← eval w
    Eval.ofExcept (Exec.matrixOf [a, b, c, d])
  | call function args => do
    let vs ← evalAll args
    Eval.call callees function vs

/-- The values of expressions from left to right. -/
def evalAll : List Expr → Eval (List Value)
  | [] => return []
  | e :: rest => do
    let v ← eval e
    let vs ← evalAll rest
    return v :: vs

end

end Expr

namespace Rhs

variable (callees : Callees) (memory : Memory)

/-- The value of the first case whose condition holds. -/
def evalCases (otherwise : Option Expr) : List (Expr × Expr) → Eval Value
  | [] =>
    match otherwise with
    | some value => value.eval callees memory
    | none => throw (.of .noValue)
  | (condition, value) :: rest => do
    let c ← condition.eval callees memory
    let n ← Eval.ofExcept c.asInteger
    if n ≠ 0 then value.eval callees memory else evalCases otherwise rest

/-- The value of a right side. -/
def eval : Rhs → Eval Value
  | plain e => e.eval callees memory
  | guarded cases otherwise => evalCases callees memory otherwise cases

end Rhs

end VectorScript
