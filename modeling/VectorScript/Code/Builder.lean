import VectorScript.Code.Opcode
import VectorScript.Value

/-!
# Code under construction

A `Builder` collects the words and the immediate values of one statement and follows the height of
the evaluation stack. A guard is followed by two words, the lengths of the code and of the
immediates that it protects; they are filled in when the guard is closed, innermost first. A step
that fails leaves the words it has already added.
-/

namespace VectorScript

/-- An open guard: where its two words stand and where the guarded value began. -/
structure OpenGuard where
  words : Nat
  code : Nat
  immediates : Nat
  deriving Repr

structure Builder where
  code : Array UInt32
  immediates : Array Value
  depth : Nat
  maxDepth : Nat
  guards : List OpenGuard
  deriving Inhabited

/-- A step of building. -/
abbrev Build := EStateM Fault Builder

namespace Builder

def empty : Builder := ⟨#[], #[], 0, 0, []⟩

def size (b : Builder) : Nat := b.code.size

def withDepth (b : Builder) (depth : Nat) : Builder :=
  { b with depth := depth, maxDepth := max b.maxDepth depth }

/-- Adds a raw word. -/
def addWord (b : Builder) (word : UInt32) : Builder := { b with code := b.code.push word }

/-- The text of a lone text literal added since the code had a given length. -/
def literalSince? (b : Builder) (start : Nat) : Option String :=
  if b.code.size = start + 1 ∧ b.code[start]? = some (Opcode.immed.encode none) then
    match b.immediates.back? with
    | some (.text s) => some s
    | _ => none
  else none

/-! ## Steps -/

def setDepth (depth : Nat) : Build Unit := modify (·.withDepth depth)

/-- Adds an instruction that pops and pushes the given numbers of values. -/
def push (op : Opcode) (pair : Option OperandPair) (pops pushes : Nat) : Build Unit := do
  modify (·.addWord (op.encode pair))
  let depth := (← get).depth
  if pops ≤ depth then setDepth (depth - pops + pushes)
  else throw (.internal "stack depth underflow")

/-- Adds an operand word. -/
def operand (n : Nat) : Build Unit := modify (·.addWord (UInt32.ofNat n))

/-- Adds an instruction that pushes a value. -/
def immediate (v : Value) : Build Unit := do
  modify fun b => { b with immediates := b.immediates.push v }
  push .immed none 0 1

/-- Adds a guard, which takes the condition from the stack. -/
def openGuard : Build Unit := do
  push .guard none 1 0
  modify fun b =>
    let filled := (b.addWord 0).addWord 0
    { filled with guards := ⟨b.code.size, filled.code.size, b.immediates.size⟩ :: b.guards }

/-- Fills in the lengths of the innermost open guard. -/
def closeGuard : Build Unit := do
  let b ← get
  match b.guards with
  | [] => throw (.internal "no open guard")
  | g :: guards =>
    let code := b.code.setIfInBounds g.words (UInt32.ofNat (b.code.size - g.code))
    let code := code.setIfInBounds (g.words + 1) (UInt32.ofNat (b.immediates.size - g.immediates))
    set { b with code := code, guards := guards }

/-! ## Finished code -/

/-- The words, the immediates and the greatest height, when no guard is open. -/
def finish (b : Builder) : Except Fault (List UInt32 × List Value × Nat) :=
  if b.guards.isEmpty then .ok (b.code.toList, b.immediates.toList, b.maxDepth)
  else .error (.internal "unresolved guard")

end Builder

end VectorScript
