import VectorScript.Program.Basic

/-!
# Program listings

The compiled code in readable form: a line per statement, with its target and the height of its
stack, and below it a line per instruction.
-/

namespace VectorScript.Listing

/-- A number with leading zeros. -/
def padded (width n : Nat) : String :=
  let digits := toString n
  String.ofList (List.replicate (width - digits.length) '0') ++ digits

/-- What becomes of the value of a statement. -/
def target (p : Program) : StatementKind → String
  | .discard => "discard"
  | .store slot pathLength =>
    let name := (p.slotName? slot).getD ("$" ++ toString slot)
    if pathLength = 0 then "store " ++ name
    else "store " ++ name ++ " path " ++ toString pathLength
  | .unless distance => "unless +" ++ toString distance
  | .jump distance => "jump +" ++ toString distance

def header (p : Program) (place : Nat) (s : Statement) : String :=
  padded 4 place ++ " [" ++ s.position.render ++ "] " ++ target p s.kind
    ++ " (depth " ++ toString s.depth ++ ")\n"

/-- The name that an operand stands for. -/
def comment (p : Program) (op : Opcode) (operands : List UInt32) : String :=
  let name? := match op, operands with
    | .var, [slot] => p.slotName? slot.toNat
    | .fun, [index, _] => (p.functions[index.toNat]?).map (·.name)
    | _, _ => none
  match name? with
  | some name => " (" ++ name ++ ")"
  | none => ""

/-- The line of an instruction. -/
def line (p : Program) (place : Nat) (op : Opcode) (pair : OperandPair) (immediate : Option Value)
    (operands : List UInt32) : String :=
  let types := if op.isTyped then " " ++ pair.render else ""
  let value := if op = .immed then " " ++ (immediate.map Value.render).getD "?" else ""
  let words := String.join (operands.map fun w => " " ++ toString w.toNat)
  "    " ++ padded 3 place ++ " " ++ op.mnemonic ++ types ++ value ++ words
    ++ comment p op operands ++ "\n"

/-- The lines of a statement's instructions; `operands` words after an instruction are its own. -/
def code (p : Program) (place : Nat) (immediates : List Value) (words : List UInt32) :
    List String :=
  match words with
  | [] => []
  | w :: rest =>
    match Opcode.decode w with
    | none =>
      ("    " ++ padded 3 place ++ " ?? 0x" ++ String.ofList (Nat.toDigits 16 w.toNat) ++ "\n")
        :: code p (place + 1) immediates rest
    | some (op, pair) =>
      let after := if op = .immed then immediates.drop 1 else immediates
      line p place op pair immediates.head? (rest.take op.operands)
        :: code p (place + 1 + op.operands) after (rest.drop op.operands)
termination_by words.length
decreasing_by
  · exact Nat.lt_succ_self _
  · simp only [List.length_drop, List.length_cons]
    omega

def statement (p : Program) (place : Nat) (s : Statement) : String :=
  header p place s ++ String.join (code p 0 s.immediates s.code)

end VectorScript.Listing

namespace VectorScript

/-- The listing of a program. -/
def Program.listing (p : Program) : String :=
  String.join (p.statements.zipIdx.map fun (s, place) => Listing.statement p place s)

end VectorScript
