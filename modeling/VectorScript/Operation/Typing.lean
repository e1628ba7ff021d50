import VectorScript.Fault
import VectorScript.Ty

/-!
# Operations and their types

Every operation knows the operand types it accepts (`check`) and the type of its result
(`resultType`). A unary operation is checked with its operand given as both left and right.
-/

namespace VectorScript

inductive Operation
  | add | sub | mul | div | less | greater | lessEq | greaterEq | equal | notEqual
  | and | or | bitAnd | bitOr | negate | sign | not | take | member
  deriving DecidableEq, Repr

namespace Operation

def name : Operation → String
  | add => "+"
  | sub => "-"
  | mul => "*"
  | div => "/"
  | less => "<"
  | greater => ">"
  | lessEq => "<="
  | greaterEq => ">="
  | equal => "=="
  | notEqual => "!="
  | and => "&&"
  | or => "||"
  | bitAnd => "&"
  | bitOr => "|"
  | negate => "negation"
  | sign => "sign"
  | not => "!"
  | take => "[]"
  | member => "."

def isUnary : Operation → Bool
  | negate | sign | not => true
  | _ => false

/-! ## Operand types -/

/-- A fault about this operation, unless the condition holds. -/
def require (op : Operation) (cause : Cause) (condition : Bool) : Except Fault Unit :=
  if condition then .ok () else .error (.about cause op.name)

/-- An index must be an integer into a vector, a matrix or an array. -/
def checkTake (left right : Ty) : Except Fault Unit :=
  if right = .integer then
    match left with
    | .vector | .matrix | .array _ => .ok ()
    | _ => .error (.about .notIndexable left.render)
  else .error (.about .expectedInteger take.name)

/-- A member is a field of a record. -/
def checkMember (left right : Ty) : Except Fault Unit :=
  match right with
  | .selector name =>
    if (left.field? name).isSome then .ok () else .error (.about .noMember name)
  | _ => .error (.about .expressionMismatch member.name)

/-- The rule of an operation on two base types. -/
def checkBase (op : Operation) (left right : Ty) : Except Fault Unit :=
  let numeric := left.isNumeric && right.isNumeric
  match op with
  | less | greater | lessEq | greaterEq | div => op.require .expectedNumeric numeric
  | equal | notEqual => op.require .expressionMismatch (left = right || numeric)
  | and | or | bitAnd | bitOr | not =>
    op.require .expectedInteger (left = .integer && right = .integer)
  | add => op.require .expressionMismatch (left = right || numeric)
  | sub => op.require .expressionMismatch ((left = right && left ≠ .text) || numeric)
  | mul =>
    let texts := left = .text || right = .text
    let vectorFirst := left = .vector && (right = .vector || right = .matrix)
    op.require .expressionMismatch (!texts && !vectorFirst)
  | negate | sign => op.require .expressionMismatch (left ≠ .text)
  | take | member => .ok ()

/-- Whether the operation accepts operands of these types. -/
def check (op : Operation) (left right : Ty) : Except Fault Unit :=
  match op with
  | take => checkTake left right
  | member => checkMember left right
  | _ =>
    if left.isBase && right.isBase then op.checkBase left right
    else .error (.about .expectedBase op.name)

/-! ## Result types -/

/-- The type of the result on operands that the operation accepts. -/
def resultType (op : Operation) (left right : Ty) : Ty :=
  match op with
  | less | greater | lessEq | greaterEq | equal | notEqual | and | or | bitAnd | bitOr | not =>
    .integer
  | add | sub | div => if right = .real then .real else left
  | mul =>
    match left, right with
    | _, .vector | _, .matrix => right
    | .integer, .real | .real, .integer => .real
    | _, _ => left
  | negate | sign => left
  | take => left.element?.getD .null
  | member =>
    match right with
    | .selector name => ((left.field? name).map (·.2)).getD .null
    | _ => .null

end Operation

end VectorScript
