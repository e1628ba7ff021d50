import VectorScript.Operation.Typing

/-!
# Opcodes

An instruction is one 32-bit word: the opcode in the low 12 bits and the operand types in the next
eight. Some opcodes are followed by operand words.

    decode (op.encode (some p)) = some (op, p)                        (decode_encode)
-/

namespace VectorScript

inductive Opcode
  /-- Pushes the next immediate value. -/
  | immed
  | add | sub | mul | div
  | equal | notEqual | less | lessEq | greater | greaterEq
  | and | or | not
  /-- Operands: function index, argument count. -/
  | fun
  /-- Operand: variable slot. -/
  | var
  /-- Vector component or matrix column by an index. -/
  | take
  | neg
  /-- Operands: code length and immediate count of the guarded value. -/
  | guard
  | bitOr | bitAnd
  | sign
  /-- Operand: field index. -/
  | member
  /-- Array element by an index. -/
  | index
  /-- Operand: item count. -/
  | list
  | vector
  | matrix
  deriving DecidableEq, Repr

namespace Opcode

/-- Every opcode, in the order of its number. -/
def all : List Opcode :=
  [immed, add, sub, mul, div, equal, notEqual, less, lessEq, greater, greaterEq, and, or, not,
    «fun», var, take, neg, guard, bitOr, bitAnd, sign, member, index, list, vector, matrix]

/-- The number of an opcode, counted from one. -/
def bits (op : Opcode) : UInt32 := UInt32.ofNat (op.ctorIdx + 1)

def ofBits? (bits : UInt32) : Option Opcode := all.find? fun op => op.bits = bits

def mnemonic : Opcode → String
  | immed => "IMMED"
  | add => "ADD"
  | sub => "SUB"
  | mul => "MUL"
  | div => "DIV"
  | equal => "EQ"
  | notEqual => "NOTEQ"
  | less => "LT"
  | lessEq => "LTEQ"
  | greater => "GT"
  | greaterEq => "GTEQ"
  | and => "AND"
  | or => "OR"
  | not => "NOT"
  | «fun» => "FUN"
  | var => "VAR"
  | take => "TAKE"
  | neg => "NEG"
  | guard => "GUARD"
  | bitOr => "BOR"
  | bitAnd => "BAND"
  | sign => "SIGN"
  | member => "MEMBER"
  | index => "INDEX"
  | list => "LIST"
  | vector => "VECTOR"
  | matrix => "MATRIX"

/-- How many operand words follow the instruction. -/
def operands : Opcode → Nat
  | var | member | list => 1
  | «fun» | guard => 2
  | _ => 0

/-- Whether the operand types of the instruction mean anything. -/
def isTyped : Opcode → Bool
  | immed | «fun» | var | guard | member | index | list | vector | matrix => false
  | _ => true

def encode (op : Opcode) (pair : Option OperandPair) : UInt32 :=
  let types := UInt32.ofNat ((pair.map OperandPair.index).getD 0)
  (op.bits &&& (0xfff : UInt32)) ||| ((types &&& (0xff : UInt32)) <<< (12 : UInt32))

def decode (word : UInt32) : Option (Opcode × OperandPair) :=
  match ofBits? (word &&& (0xfff : UInt32)),
      OperandPair.ofIndex? ((word >>> (12 : UInt32)) &&& (0xff : UInt32)).toNat with
  | some op, some pair => some (op, pair)
  | _, _ => none

theorem mem_all (op : Opcode) : op ∈ all := by cases op <;> decide

theorem decode_encode_all : ∀ op ∈ all, ∀ l ∈ Base.all, ∀ r ∈ Base.all,
    decode (op.encode (some ⟨l, r⟩)) = some (op, ⟨l, r⟩) := by
  decide +kernel

theorem decode_encode (op : Opcode) (pair : OperandPair) :
    decode (op.encode (some pair)) = some (op, pair) :=
  decode_encode_all op op.mem_all _ pair.left.mem_all _ pair.right.mem_all

end Opcode

/-- The opcode that carries an operation out. -/
def Operation.opcode : Operation → Opcode
  | add => .add
  | sub => .sub
  | mul => .mul
  | div => .div
  | less => .less
  | greater => .greater
  | lessEq => .lessEq
  | greaterEq => .greaterEq
  | equal => .equal
  | notEqual => .notEqual
  | and => .and
  | or => .or
  | bitAnd => .bitAnd
  | bitOr => .bitOr
  | negate => .neg
  | sign => .sign
  | not => .not
  | take => .take
  | member => .member

end VectorScript
