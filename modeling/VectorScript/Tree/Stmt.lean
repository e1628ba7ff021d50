import VectorScript.Code.Statement
import VectorScript.Tree.Expr

/-!
# Statements

The structure of a script after checking: stores, dropped values and conditionals. `flatten` lays it
out as a list of statements in which a conditional jumps forward over what it does not run.
Declarations leave nothing here.
-/

namespace VectorScript

inductive Stmt
  /-- Stores a value in a variable, along a path of indices. -/
  | store (slot : Nat) (path : List Expr) (value : Rhs) (position : Position)
  | discard (e : Expr) (position : Position)
  | ifThen (condition : Expr) (position : Position) (body : List Stmt)
  /-- A conditional with two branches and the position of its second keyword. -/
  | ifElse (condition : Expr) (position : Position) (body : List Stmt) (elsePosition : Position)
      (otherwise : List Stmt)

namespace Stmt

/-- The statement made of a piece of code. -/
def assemble (kind : StatementKind) (code : Build Unit) (position : Position) :
    Except Fault Statement :=
  match code.run .empty with
  | .ok () b => Statement.ofBuilder kind b position
  | .error e _ => .error e

mutual

def flatten : Stmt → Except Fault (List Statement)
  | store slot path value position => do
    let code : Build Unit := do
      Expr.emitAll path
      value.emit
    return [← assemble (.store slot path.length) code position]
  | discard e position => return [← assemble .discard e.emit position]
  | ifThen condition position body => do
    let body ← flattenAll body
    return (← assemble (.unless (body.length + 1)) condition.emit position) :: body
  | ifElse condition position body elsePosition otherwise => do
    let body ← flattenAll body
    let otherwise ← flattenAll otherwise
    let branch ← assemble (.unless (body.length + 2)) condition.emit position
    let leap ← assemble (.jump (otherwise.length + 1)) (pure ()) elsePosition
    return branch :: body ++ leap :: otherwise

def flattenAll : List Stmt → Except Fault (List Statement)
  | [] => return []
  | s :: rest => do
    let first ← flatten s
    let rest ← flattenAll rest
    return first ++ rest

end

end Stmt

end VectorScript
