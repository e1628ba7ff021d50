import VectorScript.Code.Builder
import VectorScript.Text.Position

/-!
# Compiled statements

A statement evaluates its code and then stores the value, drops it, or decides where to go on.
Jumps go forward by a number of statements.
-/

namespace VectorScript

inductive StatementKind
  /-- Stores the value in a variable along a path of indices that the code leaves below it. -/
  | store (slot pathLength : Nat)
  | discard
  /-- Goes to the next statement when the condition holds and else skips forward. -/
  | unless (distance : Nat)
  | jump (distance : Nat)
  deriving DecidableEq, Repr

structure Statement where
  kind : StatementKind
  code : List UInt32
  immediates : List Value
  /-- How high the evaluation stack gets. -/
  depth : Nat
  position : Position

/-- The statement made of finished code. -/
def Statement.ofBuilder (kind : StatementKind) (b : Builder) (position : Position) :
    Except Fault Statement := do
  let (code, immediates, depth) ← b.finish
  return { kind, code, immediates, depth, position }

end VectorScript
