import VectorScript.Text.Position

/-!
# Faults

What can go wrong, when a script is compiled and when it runs. A `Fault` has a cause, may name an
item, may carry a detail, and may say where in a script it arose. Causes numbered from 100 arise
at run time only.
-/

namespace VectorScript

/-! ## Causes -/

inductive Cause
  | expected | alreadyDeclared | notDeclared | notVariable | assignmentMismatch
  | expressionMismatch | expectedInteger | expectedNumeric | expectedBase | notFunction
  | wrongArgumentCount | incompatibleArguments | notType | wrongComponents | duplicateDeclaration
  | noMember | notShared | assignToImport | notExported | scriptNotFound | cyclicImport
  | notConstant | notIndexable | unexpected | tooDeep | integerRange
  | divisionByZero | outOfRange | noValue | outOfBounds | pathTooLong | dispatchNotFound
  | cyclicDispatch | compilationFailed | hostFailure | stackOverflow | internalError
  deriving DecidableEq, Repr

namespace Cause

/-- The number of a cause. -/
def code : Cause → Nat
  | expected => 1 | alreadyDeclared => 2 | notDeclared => 3 | notVariable => 4
  | assignmentMismatch => 5 | expressionMismatch => 6 | expectedInteger => 7
  | expectedNumeric => 8 | expectedBase => 9 | notFunction => 10 | wrongArgumentCount => 11
  | incompatibleArguments => 12 | notType => 13 | wrongComponents => 14
  | duplicateDeclaration => 15 | noMember => 16 | notShared => 17 | assignToImport => 18
  | notExported => 19 | scriptNotFound => 20 | cyclicImport => 21 | notConstant => 22
  | notIndexable => 23 | unexpected => 24 | tooDeep => 25 | integerRange => 26
  | divisionByZero => 100 | outOfRange => 101 | noValue => 102 | outOfBounds => 103
  | pathTooLong => 104 | dispatchNotFound => 105 | cyclicDispatch => 106
  | compilationFailed => 107 | hostFailure => 108 | stackOverflow => 109 | internalError => 199

/-- The sentence for a cause, speaking about the given item. -/
def describe (item : String) : Cause → String
  | expected => "expected " ++ item
  | alreadyDeclared => item ++ " has been already declared."
  | notDeclared => item ++ " has not been declared."
  | notVariable => item ++ " is not a variable."
  | assignmentMismatch => "incompatible types in assignment to " ++ item ++ "."
  | expressionMismatch => "incompatible types in " ++ item ++ " expression."
  | expectedInteger => "expected integer in " ++ item ++ " expression."
  | expectedNumeric => "expected integer or real in " ++ item ++ " expression."
  | expectedBase => "expected base type in " ++ item ++ " expression."
  | notFunction => item ++ " is not a function."
  | wrongArgumentCount => "wrong number of arguments in " ++ item ++ "."
  | incompatibleArguments => "incompatible arguments in " ++ item ++ "."
  | notType => item ++ " is not a type."
  | wrongComponents => "wrong number of components in " ++ item ++ " expression."
  | duplicateDeclaration => "duplicate declaration of " ++ item ++ "."
  | noMember => item ++ " is not a member."
  | notShared => "symbol " ++ item ++ " is not a shared variable"
  | assignToImport => "cannot assign to imported variable " ++ item
  | notExported => "variable " ++ item ++ " has not been exported"
  | scriptNotFound => "script \"" ++ item ++ "\" not found"
  | cyclicImport => "script " ++ item ++ " depends on this script"
  | notConstant => item ++ " is not a constant expression."
  | notIndexable => item ++ " is not a vector or matrix."
  | unexpected => "unexpected " ++ item
  | tooDeep => "expression nested too deeply."
  | integerRange => "integer " ++ item ++ " is out of range."
  | divisionByZero => "division by zero error"
  | outOfRange => "out of range error"
  | noValue => "no value error"
  | outOfBounds => "out of bounds error"
  | pathTooLong => "path too long error"
  | dispatchNotFound => "script " ++ item ++ " not found"
  | cyclicDispatch => "cyclic dispatch of script " ++ item
  | compilationFailed => "compilation failed"
  | hostFailure => "host function " ++ item ++ " failed"
  | stackOverflow => "stack overflow"
  | internalError => "internal error"

end Cause

/-! ## Faults -/

/-- A failure: its cause, the item it is about, where it arose, and further detail. -/
structure Fault where
  cause : Cause
  item : Option String := none
  position : Option Position := none
  detail : String := ""
  deriving DecidableEq, Repr

namespace Fault

def of (cause : Cause) : Fault := { cause }

def about (cause : Cause) (item : String) : Fault := { cause, item := some item }

/-- A fault that no script can cause, with its reason. -/
def internal (detail : String) : Fault := { cause := .internalError, detail }

/-- Puts the fault at a position, whatever position it had. -/
def located (f : Fault) (p : Position) : Fault := { f with position := some p }

def because (f : Fault) (detail : String) : Fault := { f with detail }

def named (f : Fault) (item : String) : Fault := { f with item := some item }

/-- Whether the fault arises only when a script runs. -/
def isRuntime (f : Fault) : Bool := f.cause.code ≥ 100

/-- Joins two details, either of which may be empty. -/
def joinDetail (a b : String) : String := if a.isEmpty then b else a ++ "; " ++ b

/-- Moves the position into the detail, naming the script that failed there, so that the caller
can put the fault at a position of its own. -/
def inScript (f : Fault) (script : String) : Fault :=
  let trace := match f.position with
    | some p => "in script " ++ script ++ " at " ++ p.render
    | none => "in script " ++ script
  { f with position := none, detail := joinDetail f.detail trace }

/-- The message without its position. -/
def text (f : Fault) : String :=
  let sentence := f.cause.describe (f.item.getD "?")
  if f.detail.isEmpty then sentence else sentence ++ "; " ++ f.detail

def render (f : Fault) : String :=
  match f.position with
  | some p => f.text ++ " at " ++ p.render
  | none => f.text

end Fault

end VectorScript
