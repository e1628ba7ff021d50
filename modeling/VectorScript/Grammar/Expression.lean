import VectorScript.Grammar.Reader
import VectorScript.Host.Library

/-!
# Reading expressions

Binary operators associate to the left and bind in eight levels, from `||` up to `*` and `/`; signs
before an operand bind tighter, indices and fields after it tightest. Every operator is checked
against the types of its operands as soon as both are read. A minus directly before an integer
literal belongs to the literal.
-/

namespace VectorScript

/-- A checked expression with its type. -/
structure Typed where
  expr : Expr
  ty : Ty

namespace Parse

/-! ## Operators -/

/-- Checks an operation, whose faults arise at the given place. -/
def checkOperation (op : Operation) (left right : Ty) (p : Position) : Parse Unit :=
  match op.check left right with
  | .ok () => return ()
  | .error e => throw (e.located p)

/-- The binary operators that bind at a level, the loosest first. -/
def binaryOperation? : Nat → Operator → Option Operation
  | 0, .orOr => some .or
  | 1, .andAnd => some .and
  | 2, .or => some .bitOr
  | 3, .and => some .bitAnd
  | 4, .equal => some .equal
  | 4, .notEqual => some .notEqual
  | 5, .less => some .less
  | 5, .greater => some .greater
  | 5, .lessEqual => some .lessEq
  | 5, .greaterEqual => some .greaterEq
  | 6, .plus => some .add
  | 6, .minus => some .sub
  | 7, .star => some .mul
  | 7, .slash => some .div
  | _, _ => none

/-- How many levels of binary operators there are. -/
def binaryLevels : Nat := 8

/-- Operands joined by the operators of a level, from left to right. -/
def chain (level : Nat) (operand : Parse Typed) : Parse Typed := do
  let first ← operand
  loop first fun left => do
    match ← peek? with
    | some (.operator sign) =>
      match binaryOperation? level sign with
      | some op =>
        let p ← position
        skip
        let right ← operand
        checkOperation op left.ty right.ty p
        return .inl ⟨.binary op (Ty.pair? left.ty right.ty) left.expr right.expr,
          op.resultType left.ty right.ty⟩
      | none => return .inr left
    | _ => return .inr left

/-- Operators of the tightest levels, as many as given. -/
def binaryFrom (operand : Parse Typed) : Nat → Parse Typed
  | 0 => operand
  | levels + 1 => chain (binaryLevels - (levels + 1)) (binaryFrom operand levels)

def binary (operand : Parse Typed) : Parse Typed := binaryFrom operand binaryLevels

def signOperation? : Operator → Option Operation
  | .minus => some .negate
  | .plus => some .sign
  | .bang => some .not
  | _ => none

/-- The operation that a token stands for before an operand. -/
def signToken? : Token → Option Operation
  | .operator sign => signOperation? sign
  | _ => none

/-- An operand with the operators before it. The operand of an operator is read by `inner`, one
level deeper; without an operator it is `bare`. -/
def signed (inner bare : Parse Typed) : Parse Typed := do
  match (← peek?).bind signToken? with
  | none => bare
  | some op =>
    let p ← position
    skip
    match op, ← peek? with
    | .negate, some (.integer n) =>
      let literal ← position
      skip
      return ⟨.literal (.integer (← integer (-n) literal)), .integer⟩
    | _, _ =>
      let e ← inner
      checkOperation op e.ty e.ty p
      return ⟨.unary op (Ty.pair? e.ty e.ty) e.expr, op.resultType e.ty e.ty⟩

/-! ## Primary expressions -/

/-- The name of a variable or a constant. -/
def nameValue (name : String) (p : Position) : Parse Typed := do
  match ← lookup? name with
  | some (.var v) => return ⟨.var v.slot, v.ty⟩
  | some (.constant v) => return ⟨.literal v, v.ty⟩
  | some _ => failAbout .notVariable name p
  | none => failAbout .notDeclared name p

/-- Four numbers make a vector, four vectors a matrix. -/
def components (expression : Parse Typed) (p : Position) : Parse Typed := do
  let items ← separated expression
  expectMark .rightBracket
  match items with
  | [a, b, c, d] =>
    if items.all fun e => e.ty.isNumeric then
      return ⟨.vector a.expr b.expr c.expr d.expr, .vector⟩
    else if items.all fun e => e.ty = .vector then
      return ⟨.matrix a.expr b.expr c.expr d.expr, .matrix⟩
    else failAbout .expressionMismatch "[]" p
  | _ => failAbout .wrongComponents "[]" p

/-- A list literal has the record type of its items; the empty one is null. -/
def listLiteral (expression : Parse Typed) : Parse Typed := do
  if ← acceptMark .rightBrace then return ⟨.list [], .null⟩
  let items ← separated expression
  expectMark .rightBrace
  return ⟨.list (items.map (·.expr)), .ofList (items.map (·.ty))⟩

/-- The arguments of a call with their positions. -/
def arguments (expression : Parse Typed) : Parse (List (Typed × Position)) := do
  expectMark .leftParen
  if ← acceptMark .rightParen then return []
  let args ← separated do
    let p ← position
    return (← expression, p)
  expectMark .rightParen
  return args

/-- Every argument must be assignable to its parameter. -/
def checkArguments (name : String) : List Ty → List (Typed × Position) → Parse Unit
  | param :: params, (arg, p) :: args => do
    if param.assignable arg.ty then checkArguments name params args
    else failAbout .incompatibleArguments name p
  | _, _ => return ()

/-- Notes the script that a call of `dispatch` names literally. -/
def noteSubscript (f : HostFunction) (args : List (Typed × Position)) : Parse Unit := do
  if f.name = Library.dispatchName then
    match args.head?.bind fun (arg, _) => arg.expr.literalText? with
    | some script =>
      if script ≠ (← read).name then
        modify fun d => { d with subscripts := d.subscripts.add script }
    | none => return ()

/-- A call of a host function. -/
def call (expression : Parse Typed) (name : String) (p : Position) : Parse Typed := do
  match ← lookup? name with
  | some (.function index f) =>
    let args ← arguments expression
    if f.params.length ≠ args.length then failAbout .wrongArgumentCount name p
    checkArguments name f.params args
    noteSubscript f args
    return ⟨.call index (args.map fun a => a.1.expr), f.ret⟩
  | some _ => failAbout .notFunction name p
  | none => failAbout .notDeclared name p

def primary (expression : Parse Typed) : Parse Typed := do
  let p ← position
  match ← next? with
  | none => failAbout .expected "expression" p
  | some (token, _) =>
    match token with
    | .integer n => return ⟨.literal (.integer (← integer n p)), .integer⟩
    | .real x => return ⟨.literal (.real x), .real⟩
    | .text s => return ⟨.literal (.text s), .text⟩
    | .mark .leftParen =>
      let e ← expression
      expectMark .rightParen
      return e
    | .mark .leftBracket => components expression p
    | .mark .leftBrace => listLiteral expression
    | .ident name =>
      if (← peek?) = some (.mark .leftParen) then call expression name p else nameValue name p
    | token => failAbout .unexpected token.render p

/-! ## Indices and fields -/

/-- One index after an operand: an element of an array, a component or a column. -/
def indexed (e index : Typed) (p : Position) : Parse Typed := do
  checkOperation .take e.ty index.ty p
  let result := Operation.take.resultType e.ty index.ty
  match e.ty with
  | .array _ => return ⟨.element e.expr index.expr, result⟩
  | _ => return ⟨.binary .take (Ty.pair? e.ty index.ty) e.expr index.expr, result⟩

/-- A field after an operand. -/
def selected (e : Typed) (name : String) (p : Position) : Parse Typed := do
  checkOperation .member e.ty (.selector name) p
  match e.ty.field? name with
  | some (place, ty) => return ⟨.field e.expr place, ty⟩
  | none => failAbout .noMember name p

/-- A primary expression with the indices and fields after it. -/
def suffixed (expression : Parse Typed) : Parse Typed := do
  let first ← primary expression
  loop first fun e => do
    let p ← position
    match ← peek? with
    | some (.mark .leftBracket) =>
      skip
      let index ← expression
      expectMark .rightBracket
      return .inl (← indexed e index p)
    | some (.mark .dot) =>
      skip
      let (name, place) ← ident
      return .inl (← selected e name place)
    | _ => return .inr e

/-! ## Nested expressions -/

/-- An operand within an expression that leaves room for so many levels. -/
def operandIn : Nat → Parse Typed
  | 0 => signed tooDeep (suffixed tooDeep)
  | room + 1 => signed (operandIn room) (suffixed (binary (operandIn room)))

/-- An expression, which opens a level itself. -/
def expression : Nat → Parse Typed
  | 0 => tooDeep
  | room + 1 => binary (operandIn room)

end Parse

end VectorScript
