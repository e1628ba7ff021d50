import VectorScript.Code.Opcode
import VectorScript.Value

/-!
# Operations on values

A kernel carries an opcode out for one pair of operand types. Integer arithmetic wraps at 32 bits
and its division truncates toward zero; an integer beside a real widens; a number scales a vector or
a matrix from either side; conditions are the integers one and zero.
-/

namespace VectorScript.Kernel

/-! ## Building blocks -/

/-- One for true, zero for false. -/
def truth (b : Bool) : Value := .integer (if b then 1 else 0)

def integers (f : Int32 → Int32 → Value) (a b : Value) : Except Fault Value := do
  return f (← a.asInteger) (← b.asInteger)

def reals (f : Float32 → Float32 → Value) (a b : Value) : Except Fault Value := do
  return f (← a.asReal) (← b.asReal)

def vectors (f : Vec4 → Vec4 → Value) (a b : Value) : Except Fault Value := do
  return f (← a.asVector) (← b.asVector)

def matrices (f : Mat4 → Mat4 → Value) (a b : Value) : Except Fault Value := do
  return f (← a.asMatrix) (← b.asMatrix)

def texts (f : String → String → Value) (a b : Value) : Except Fault Value := do
  return f (← a.asText) (← b.asText)

/-- Chooses by operand types between integers and numbers of which one is real. -/
def numbers {α : Type} (onIntegers onReals : α) (pair : OperandPair) : Option α :=
  match pair with
  | ⟨.integer, .integer⟩ => some onIntegers
  | ⟨.integer, .real⟩ | ⟨.real, .integer⟩ | ⟨.real, .real⟩ => some onReals
  | _ => none

/-! ## Arithmetic -/

def divideIntegers (a b : Value) : Except Fault Value := do
  let x ← a.asInteger
  let y ← b.asInteger
  if y = 0 then throw (.of .divisionByZero) else return .integer (x / y)

def divideReals (a b : Value) : Except Fault Value := do
  let x ← a.asReal
  let y ← b.asReal
  if y == 0 then throw (.of .divisionByZero) else return .real (x / y)

/-- A number times a vector. -/
def scaleVector (a b : Value) : Except Fault Value := do
  let s ← a.asReal
  return .vector ((← b.asVector).scale s)

/-- A number times a matrix. -/
def scaleMatrix (a b : Value) : Except Fault Value := do
  let s ← a.asReal
  return .matrix ((← b.asMatrix).scale s)

def vectorScaled (a b : Value) : Except Fault Value := do
  return .vector ((← a.asVector).scale (← b.asReal))

def matrixScaled (a b : Value) : Except Fault Value := do
  return .matrix ((← a.asMatrix).scale (← b.asReal))

def transformVector (a b : Value) : Except Fault Value := do
  return .vector ((← a.asMatrix).mulVec (← b.asVector))

/-! ## Indexing -/

/-- The index of a component or a column. -/
def component (i : Int32) : Except Fault (Fin 4) :=
  let n := i.toInt.toNat
  if h : 0 ≤ i.toInt ∧ n < 4 then .ok ⟨n, h.2⟩
  else .error ((Fault.of .outOfRange).because ("index " ++ toString i.toInt))

def takeComponent (a b : Value) : Except Fault Value := do
  let v ← a.asVector
  return .real (v.get (← component (← b.asInteger)))

def takeColumn (a b : Value) : Except Fault Value := do
  let m ← a.asMatrix
  return .vector (m.get (← component (← b.asInteger)))

/-! ## Kernels by operand types -/

def add? (pair : OperandPair) : Option (Value → Value → Except Fault Value) :=
  match pair with
  | ⟨.vector, .vector⟩ => some (vectors fun a b => .vector (a.add b))
  | ⟨.matrix, .matrix⟩ => some (matrices fun a b => .matrix (a.add b))
  | ⟨.text, .text⟩ => some (texts fun a b => .text (a ++ b))
  | _ => numbers (integers fun a b => .integer (a + b)) (reals fun a b => .real (a + b)) pair

def sub? (pair : OperandPair) : Option (Value → Value → Except Fault Value) :=
  match pair with
  | ⟨.vector, .vector⟩ => some (vectors fun a b => .vector (a.sub b))
  | ⟨.matrix, .matrix⟩ => some (matrices fun a b => .matrix (a.sub b))
  | _ => numbers (integers fun a b => .integer (a - b)) (reals fun a b => .real (a - b)) pair

def mul? (pair : OperandPair) : Option (Value → Value → Except Fault Value) :=
  match pair with
  | ⟨.integer, .vector⟩ | ⟨.real, .vector⟩ => some scaleVector
  | ⟨.integer, .matrix⟩ | ⟨.real, .matrix⟩ => some scaleMatrix
  | ⟨.vector, .integer⟩ | ⟨.vector, .real⟩ => some vectorScaled
  | ⟨.matrix, .integer⟩ | ⟨.matrix, .real⟩ => some matrixScaled
  | ⟨.matrix, .vector⟩ => some transformVector
  | ⟨.matrix, .matrix⟩ => some (matrices fun a b => .matrix (a.mul b))
  | _ => numbers (integers fun a b => .integer (a * b)) (reals fun a b => .real (a * b)) pair

/-- Comparison of numbers. -/
def compare? (onIntegers : Int32 → Int32 → Bool) (onReals : Float32 → Float32 → Bool) :
    OperandPair → Option (Value → Value → Except Fault Value) :=
  numbers (integers fun a b => truth (onIntegers a b)) (reals fun a b => truth (onReals a b))

/-- Equality of two values of one base type, or of two numbers; `wanted` turns it around. -/
def equal? (wanted : Bool) (pair : OperandPair) : Option (Value → Value → Except Fault Value) :=
  match pair with
  | ⟨.vector, .vector⟩ => some (vectors fun a b => truth (a.equals b == wanted))
  | ⟨.matrix, .matrix⟩ => some (matrices fun a b => truth (a.equals b == wanted))
  | ⟨.text, .text⟩ => some (texts fun a b => truth (decide (a = b) == wanted))
  | _ => compare? (fun a b => decide (a = b) == wanted) (fun a b => (a == b) == wanted) pair

/-- An operation on integers only. -/
def integersOnly? (f : Int32 → Int32 → Value) (pair : OperandPair) :
    Option (Value → Value → Except Fault Value) :=
  match pair with
  | ⟨.integer, .integer⟩ => some (integers f)
  | _ => none

def take? (pair : OperandPair) : Option (Value → Value → Except Fault Value) :=
  match pair with
  | ⟨.vector, .integer⟩ => some takeComponent
  | ⟨.matrix, .integer⟩ => some takeColumn
  | _ => none

/-- The kernel of an opcode with two operands. -/
def binary? (op : Opcode) (pair : OperandPair) : Option (Value → Value → Except Fault Value) :=
  match op with
  | .add => add? pair
  | .sub => sub? pair
  | .mul => mul? pair
  | .div => numbers divideIntegers divideReals pair
  | .less => compare? (· < ·) (· < ·) pair
  | .greater => compare? (· > ·) (· > ·) pair
  | .lessEq => compare? (· ≤ ·) (· ≤ ·) pair
  | .greaterEq => compare? (· ≥ ·) (· ≥ ·) pair
  | .equal => equal? true pair
  | .notEqual => equal? false pair
  | .and => integersOnly? (fun a b => truth (a != 0 && b != 0)) pair
  | .or => integersOnly? (fun a b => truth (a != 0 || b != 0)) pair
  | .bitAnd => integersOnly? (fun a b => .integer (a &&& b)) pair
  | .bitOr => integersOnly? (fun a b => .integer (a ||| b)) pair
  | .take => take? pair
  | _ => none

/-- Negation by the type of the operand. -/
def negate? : Base → Option (Value → Except Fault Value)
  | .integer => some fun v => return .integer (-(← v.asInteger))
  | .real => some fun v => return .real (-(← v.asReal))
  | .vector => some fun v => return .vector (← v.asVector).neg
  | .matrix => some fun v => return .matrix (← v.asMatrix).neg
  | .text => none

/-- The kernel of an opcode with one operand, whose type stands on both sides of the pair. -/
def unary? (op : Opcode) (pair : OperandPair) : Option (Value → Except Fault Value) :=
  if pair.left = pair.right then
    match op with
    | .neg => negate? pair.left
    | .sign => if pair.left = .text then none else some .ok
    | .not =>
      if pair.left = .integer then some fun v => return truth ((← v.asInteger) == 0) else none
    | _ => none
  else none

/-- The fault of an instruction whose operand types have no kernel. -/
def missing (op : Opcode) (pair : OperandPair) : Fault :=
  .internal ("no " ++ op.mnemonic ++ " for " ++ pair.render)

/-- Applies the kernel of a binary opcode. -/
def binary (op : Opcode) (pair : OperandPair) (a b : Value) : Except Fault Value :=
  match binary? op pair with
  | some kernel => kernel a b
  | none => .error (missing op pair)

/-- Applies the kernel of a unary opcode. -/
def unary (op : Opcode) (pair : OperandPair) (v : Value) : Except Fault Value :=
  match unary? op pair with
  | some kernel => kernel v
  | none => .error (missing op pair)

end VectorScript.Kernel

namespace VectorScript

/-- Whether an opcode takes one operand from the stack and has a kernel. -/
def Opcode.isUnary : Opcode → Bool
  | neg | sign | not => true
  | _ => false

end VectorScript
