import VectorScript.Grammar.Script

/-!
# A reader that counts

The reader again, with a stack of the constructs that are open. An expression, the operand of a
prefix operator, a block, the body of a conditional and the fields of a record type are entered and
left (`nested`), and one too many is refused where it is entered. Nothing else limits this reader:
a loop goes on as long as each round reads a token (`rounds`), and a recursion that is deeper than
its bound ends as `exhausted`, which is no fault.

    nested c p := enter c, then p, then leave
    statement (n + 1) reads what is inside it by statement n, within `nested` only
-/

namespace VectorScript

/-! ## State -/

/-- What counts towards the nesting of a text. -/
inductive Construct
  | expression | prefixOperator | block | body | recordType
  deriving DecidableEq, Repr

/-- A draft with the constructs that are open, the innermost first, and with how many have been open
at most. -/
structure Reading where
  draft : Draft
  opened : List Construct
  deepest : Nat
  bound : opened.length ≤ deepest

namespace Reading

/-- Before anything is read nothing is open. -/
def start (d : Draft) : Reading := ⟨d, [], 0, Nat.le_refl 0⟩

def enter (c : Construct) (r : Reading) : Reading where
  draft := r.draft
  opened := c :: r.opened
  deepest := max r.deepest (r.opened.length + 1)
  bound := Nat.le_max_right _ _

def leave (r : Reading) : Reading where
  draft := r.draft
  opened := r.opened.tail
  deepest := r.deepest
  bound := by
    rw [List.length_tail]
    exact Nat.le_trans (Nat.sub_le _ _) r.bound

end Reading

/-- Why the reader stops before its end: for a fault of the text, because a loop went on and had
read nothing, or because the recursion was deeper than its bound. -/
inductive Stop
  | fault (e : Fault)
  | stalled
  | exhausted

/-- A step of reading and counting. -/
abbrev Counting := ReaderT Surroundings (EStateM Stop Reading)

namespace Counting

open Parse

/-- A step that enters and leaves nothing. -/
def lift {α : Type} (p : Parse α) : Counting α := fun s r =>
  match p s r.draft with
  | .ok a d => .ok a { r with draft := d }
  | .error e d => .error (.fault e) { r with draft := d }

instance (priority := low) : MonadLift Parse Counting := ⟨lift⟩

/-! ## Nesting and loops -/

/-- Opens a construct, unless too many are open then. -/
def enter (c : Construct) : Counting Unit := do
  modify (Reading.enter c)
  if maxNesting < (← get).opened.length then tooDeep

def leave : Counting Unit := modify Reading.leave

def nested {α : Type} (c : Construct) (p : Counting α) : Counting α := do
  enter c
  let a ← p
  leave
  return a

/-- Repeats a step until it gives a result, as long as each round leaves fewer tokens than there
have been. -/
def rounds {α β : Type} (step : α → Counting (α ⊕ β)) (tokens : Nat) (a : α) : Counting β := do
  match ← step a with
  | .inr b => return b
  | .inl a =>
    let r ← get
    if _h : r.draft.tokens.length < tokens then rounds step r.draft.tokens.length a
    else throw .stalled
termination_by tokens

def loop {α β : Type} (a : α) (step : α → Counting (α ⊕ β)) : Counting β := do
  rounds step (← get).draft.tokens.length a

def separatedAfter {α : Type} (item : List α → Counting α) : Counting (List α) :=
  loop [] fun before => do
    let a ← item before
    if ← acceptMark .comma then return .inl (a :: before) else return .inr (a :: before).reverse

def separated {α : Type} (item : Counting α) : Counting (List α) := separatedAfter fun _ => item

/-! ## Expressions -/

def chain (level : Nat) (operand : Counting Typed) : Counting Typed := do
  let first ← operand
  loop first fun left => do
    match ← peek? with
    | some (.operator sign) =>
      match binaryOperation? level sign with
      | some op =>
        let p ← position
        skip
        let right ← operand
        checkOperation op left.ty right.ty p
        return .inl ⟨.binary op (Ty.pair? left.ty right.ty) left.expr right.expr,
          op.resultType left.ty right.ty⟩
      | none => return .inr left
    | _ => return .inr left

def binaryFrom (operand : Counting Typed) : Nat → Counting Typed
  | 0 => operand
  | levels + 1 => chain (binaryLevels - (levels + 1)) (binaryFrom operand levels)

def binary (operand : Counting Typed) : Counting Typed := binaryFrom operand binaryLevels

/-- A minus before an integer belongs to the literal, and opens nothing. -/
def signed (inner bare : Counting Typed) : Counting Typed := do
  match (← peek?).bind signToken? with
  | none => bare
  | some op =>
    let p ← position
    skip
    match op, ← peek? with
    | .negate, some (.integer n) =>
      let literal ← position
      skip
      return ⟨.literal (.integer (← integer (-n) literal)), .integer⟩
    | _, _ =>
      let e ← inner
      checkOperation op e.ty e.ty p
      return ⟨.unary op (Ty.pair? e.ty e.ty) e.expr, op.resultType e.ty e.ty⟩

def components (expression : Counting Typed) (p : Position) : Counting Typed := do
  let items ← separated expression
  expectMark .rightBracket
  match items with
  | [a, b, c, d] =>
    if items.all fun e => e.ty.isNumeric then
      return ⟨.vector a.expr b.expr c.expr d.expr, .vector⟩
    else if items.all fun e => e.ty = .vector then
      return ⟨.matrix a.expr b.expr c.expr d.expr, .matrix⟩
    else failAbout .expressionMismatch "[]" p
  | _ => failAbout .wrongComponents "[]" p

def listLiteral (expression : Counting Typed) : Counting Typed := do
  if ← acceptMark .rightBrace then return ⟨.list [], .null⟩
  let items ← separated expression
  expectMark .rightBrace
  return ⟨.list (items.map (·.expr)), .ofList (items.map (·.ty))⟩

def argument (expression : Counting Typed) : Counting (Typed × Position) := do
  let p ← position
  return (← expression, p)

def arguments (expression : Counting Typed) : Counting (List (Typed × Position)) := do
  expectMark .leftParen
  if ← acceptMark .rightParen then return []
  let args ← separated (argument expression)
  expectMark .rightParen
  return args

def call (expression : Counting Typed) (name : String) (p : Position) : Counting Typed := do
  match ← lookup? name with
  | some (.function index f) =>
    let args ← arguments expression
    if f.params.length ≠ args.length then failAbout .wrongArgumentCount name p
    checkArguments name f.params args
    noteSubscript f args
    return ⟨.call index (args.map fun a => a.1.expr), f.ret⟩
  | some _ => failAbout .notFunction name p
  | none => failAbout .notDeclared name p

def primary (expression : Counting Typed) : Counting Typed := do
  let p ← position
  match ← next? with
  | none => failAbout .expected "expression" p
  | some (token, _) =>
    match token with
    | .integer n => return ⟨.literal (.integer (← integer n p)), .integer⟩
    | .real x => return ⟨.literal (.real x), .real⟩
    | .text s => return ⟨.literal (.text s), .text⟩
    | .mark .leftParen =>
      let e ← expression
      expectMark .rightParen
      return e
    | .mark .leftBracket => components expression p
    | .mark .leftBrace => listLiteral expression
    | .ident name =>
      if (← peek?) = some (.mark .leftParen) then call expression name p else nameValue name p
    | token => failAbout .unexpected token.render p

def suffixed (expression : Counting Typed) : Counting Typed := do
  let first ← primary expression
  loop first fun e => do
    let p ← position
    match ← peek? with
    | some (.mark .leftBracket) =>
      skip
      let index ← expression
      expectMark .rightBracket
      return .inl (← indexed e index p)
    | some (.mark .dot) =>
      skip
      let (name, place) ← ident
      return .inl (← selected e name place)
    | _ => return .inr e

/-- An operand. What is inside it is read by operands of a smaller bound, in a construct each. -/
def operand : Nat → Counting Typed
  | 0 => throw .exhausted
  | n + 1 => signed (nested .prefixOperator (operand n))
      (suffixed (nested .expression (binary (operand n))))

def expression (n : Nat) : Counting Typed := nested .expression (binary (operand n))

/-! ## Declarations -/

def arrayOf (ty : Ty) : Counting Ty :=
  loop ty fun ty => do
    if ← acceptMark .leftBracket then
      expectMark .rightBracket
      return .inl (.array ty)
    else return .inr ty

def fieldSpec (typeSpec : Counting Ty) (before : List (String × Ty)) : Counting (String × Ty) := do
  let ty ← typeSpec
  let (name, p) ← ident
  if before.any fun field => field.1 = name then failAbout .duplicateDeclaration name p
  return (name, ty)

/-- The fields of a record up to the parenthesis after them. -/
def fieldSpecs (typeSpec : Counting Ty) : Counting (List (String × Ty)) := do
  let fields ← separatedAfter (fieldSpec typeSpec)
  expectMark .rightParen
  return fields

def typeSpec : Nat → Counting Ty
  | 0 => throw .exhausted
  | n + 1 => do
    if ← acceptWord .recordWord then
      expectMark .leftParen
      let fields ← nested .recordType (fieldSpecs (typeSpec n))
      arrayOf (.record fields)
    else arrayOf (← namedType)

def assigned (n : Nat) (target : Ty) (name : String) : Counting Expr := do
  let p ← position
  let e ← expression n
  if target.assignable e.ty then return e.expr else failAbout .assignmentMismatch name p

def conditionFor (n : Nat) (construct : String) : Counting Expr := do
  let p ← position
  let e ← expression n
  if e.ty = .integer then return e.expr else failAbout .expectedInteger construct p

def rhs (n : Nat) (target : Ty) (name : String) : Counting Rhs := do
  if (← peek?) ≠ some (.word .whenWord) then
    return .plain (← assigned n target name)
  let cases ← loop [] fun cases => do
    if ← acceptWord .whenWord then
      let condition ← conditionFor n "when"
      expectMark .colon
      let value ← assigned n target name
      return .inl ((condition, value) :: cases)
    else return .inr cases.reverse
  if ← acceptWord .elseWord then
    return .guarded cases (some (← assigned n target name))
  else return .guarded cases none

def declarator (n : Nat) (isShared : Bool) (ty : Ty) : Counting (List Stmt) := do
  let (name, p) ← ident
  checkFresh name p
  let slot ← declareVariable isShared ty name
  if ← acceptMark .assign then
    return [.store slot [] (← rhs n ty name) p]
  else return []

def declaration (n : Nat) (isShared : Bool) : Counting (List Stmt) := do
  let ty ← typeSpec n
  let stores ← separated (declarator n isShared ty)
  expectMark .semicolon
  return stores.flatten

def typedef (n : Nat) : Counting Unit := do
  skip
  let (name, p) ← ident
  checkFresh name p
  expectMark .assign
  let ty ← typeSpec n
  expectMark .semicolon
  declare name (.typedef ty)

def constant (n : Nat) : Counting Unit := do
  skip
  let ty ← typeSpec n
  let (name, p) ← ident
  checkFresh name p
  expectMark .assign
  let valuePosition ← position
  let v ← constantValue
  if !(ty.isBase && ty.assignable v.ty) then failAbout .assignmentMismatch name valuePosition
  expectMark .semicolon
  declare name <| .constant <| match ty, v with
    | .real, .integer k => .real (Value.widen k)
    | _, v => v

/-- Binds the imported names and notes the script that they come from. -/
def bindImports (names : List (String × Position)) (from? : Option (String × Position)) :
    Parse Unit := do
  names.forM fun (name, p) => importName from? name p
  match from? with
  | some (script, _) =>
    modify fun d =>
      { d with imports := d.imports.add script, subscripts := d.subscripts.add script }
  | none => return ()

def importNames : Counting Unit := do
  skip
  let names ← separatedAfter fun before => importedName before
  let from? ← if ← acceptWord .fromWord then some <$> ident else pure none
  expectMark .semicolon
  bindImports names from?

/-! ## Statements -/

def assignmentPath (n : Nat) (name : String) (ty : Ty) : Counting (List Expr × Ty) :=
  loop ([], ty) fun (path, ty) => do
    let p ← position
    match ← peek? with
    | some (.mark .leftBracket) =>
      skip
      let index ← conditionFor n "[]"
      expectMark .rightBracket
      match ty.element? with
      | some elem => return .inl (index :: path, elem)
      | none => failAbout .notIndexable name p
    | some (.mark .dot) =>
      skip
      let (field, fieldPosition) ← ident
      match ty.field? field with
      | some (place, fieldType) =>
        return .inl (.literal (.integer (Int32.ofNat place)) :: path, fieldType)
      | none => failAbout .noMember field fieldPosition
    | _ => return .inr (path.reverse, ty)

def assignment (n : Nat) : Counting Stmt := do
  let (name, p) ← ident
  match ← lookup? name with
  | some (.var v) =>
    if v.imported then failAbout .assignToImport name p
    let (path, ty) ← assignmentPath n name v.ty
    expectMark .assign
    let value ← rhs n ty name
    expectMark .semicolon
    return .store v.slot path value p
  | some _ => failAbout .notVariable name p
  | none => failAbout .notDeclared name p

def expressionStatement (n : Nat) : Counting Stmt := do
  let p ← position
  let e ← expression n
  expectMark .semicolon
  if e.ty = .integer then return .store 0 [] (.plain e.expr) p else return .discard e.expr p

/-- The statements of a block and the brace after them. -/
def blockRest (statement : Counting (List Stmt)) : Counting (List Stmt) := do
  let parts ← loop [] fun parts => do
    match ← peek? with
    | some (.mark .rightBrace) => return .inr parts.reverse
    | none => unexpected (Token.mark .rightBrace).render
    | some _ => return .inl ((← statement) :: parts)
  expectMark .rightBrace
  return parts.flatten

def block (statement : Counting (List Stmt)) : Counting (List Stmt) := do
  expectMark .leftBrace
  nested .block (blockRest statement)

/-- The body of a conditional and what is read instead. -/
def branches (condition : Expr) (p : Position) (statement : Counting (List Stmt)) :
    Counting Stmt := do
  let body ← statement
  let elsePosition ← position
  if ← acceptWord .elseWord then
    return .ifElse condition p body elsePosition (← statement)
  else return .ifThen condition p body

def conditional (n : Nat) (statement : Counting (List Stmt)) : Counting Stmt := do
  let p ← position
  skip
  expectMark .leftParen
  let condition ← conditionFor n "if"
  expectMark .rightParen
  nested .body (branches condition p statement)

def namedStatement (n : Nat) (name : String) : Counting (List Stmt) := do
  let ahead := assignmentFollows 0 ((← get).draft.tokens.drop 1)
  match ← lookup? name with
  | some (.typedef _) => declaration n false
  | some (.var _) | none =>
    if ahead then return [← assignment n] else return [← expressionStatement n]
  | some _ => return [← expressionStatement n]

def statementWith (n : Nat) (inner : Counting (List Stmt)) : Counting (List Stmt) := do
  match ← peek? with
  | none => unexpected "statement"
  | some token =>
    match token with
    | .mark .semicolon => do
      skip
      return []
    | .mark .leftBrace => block inner
    | .word .sharedWord => do
      skip
      declaration n true
    | .word .recordWord => declaration n false
    | .word .typeWord => do
      typedef n
      return []
    | .word .constWord => do
      constant n
      return []
    | .word .importWord => do
      importNames
      return []
    | .word .ifWord => return [← conditional n inner]
    | .ident name => namedStatement n name
    | _ => return [← expressionStatement n]

/-- A statement. What is inside it is read by statements of a smaller bound, in a construct each. -/
def statement : Nat → Counting (List Stmt)
  | 0 => throw .exhausted
  | n + 1 => statementWith (n + 1) (statement n)

def script (n : Nat) : Counting (List Stmt) := do
  let parts ← loop [] fun parts => do
    if (← peek?).isNone then return .inr parts.reverse
    else return .inl ((← statement n) :: parts)
  return parts.flatten

end Counting

/-- Reads a text and counts, with such a bound on the recursion. -/
def Setting.count (s : Setting) (n : Nat) (source : String) :
    EStateM.Result Stop Reading (List Stmt) :=
  let tokens := Lexer.tokens source
  Counting.script n (s.surroundings source tokens) (.start (.start tokens s.table))

end VectorScript
