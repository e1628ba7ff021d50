import VectorScript.Code.Builder

/-!
# Expressions

A checked expression, with variables as slots, functions as indices and every operator with the
types of its operands, and the code that evaluates it: operands from left to right, then the
instruction that consumes them.
-/

namespace VectorScript

inductive Expr
  | literal (v : Value)
  | var (slot : Nat)
  | unary (op : Operation) (pair : Option OperandPair) (operand : Expr)
  | binary (op : Operation) (pair : Option OperandPair) (left right : Expr)
  /-- An element of an array. -/
  | element (list index : Expr)
  /-- A field of a record, by its place. -/
  | field (record : Expr) (place : Nat)
  | list (items : List Expr)
  | vector (x y z w : Expr)
  | matrix (c0 c1 c2 c3 : Expr)
  | call (function : Nat) (args : List Expr)
  deriving Inhabited

namespace Expr

mutual

/-- Adds the code of an expression. -/
def emit : Expr → Build Unit
  | literal v => Builder.immediate v
  | var slot => do
    Builder.push .var none 0 1
    Builder.operand slot
  | unary op pair e => do
    emit e
    Builder.push op.opcode pair 1 1
  | binary op pair l r => do
    emit l
    emit r
    Builder.push op.opcode pair 2 1
  | element l i => do
    emit l
    emit i
    Builder.push .index none 2 1
  | field r place => do
    emit r
    Builder.push .member none 1 1
    Builder.operand place
  | list items => do
    emitAll items
    Builder.push .list none items.length 1
    Builder.operand items.length
  | vector x y z w => do
    emit x
    emit y
    emit z
    emit w
    Builder.push .vector none 4 1
  | matrix c0 c1 c2 c3 => do
    emit c0
    emit c1
    emit c2
    emit c3
    Builder.push .matrix none 4 1
  | call function args => do
    emitAll args
    Builder.push .fun none args.length 1
    Builder.operand function
    Builder.operand args.length

def emitAll : List Expr → Build Unit
  | [] => pure ()
  | e :: rest => do
    emit e
    emitAll rest

end

/-- The text of a lone text literal. -/
def literalText? : Expr → Option String
  | literal (.text s) => some s
  | _ => none

end Expr

/-! ## Guarded values -/

/-- The right side of an assignment. -/
inductive Rhs
  | plain (e : Expr)
  /-- Conditions with their values, tried in order, and the value that needs no condition. -/
  | guarded (cases : List (Expr × Expr)) (otherwise : Option Expr)

namespace Rhs

/-- A condition, and its value under a guard; the stack is as it was before. -/
def emitCase (base : Nat) (condition value : Expr) : Build Unit := do
  condition.emit
  Builder.openGuard
  value.emit
  Builder.closeGuard
  Builder.setDepth base

/-- Adds the code of a right side. -/
def emit : Rhs → Build Unit
  | plain e => e.emit
  | guarded cases otherwise => do
    let base := (← get).depth
    cases.forM fun (condition, value) => emitCase base condition value
    match otherwise with
    | some value => emitCase base (.literal (.integer 1)) value
    | none => pure ()
    Builder.setDepth (base + 1)

end Rhs

end VectorScript
