import VectorScript.Grammar.Declaration

/-!
# Reading statements and whole scripts

`Parse.statement` reads one statement; blocks and the bodies of conditionals are one level deeper.
`compile` reads a text to its end and makes the program, and `declaredNames` gives the names that a
text declares up to its first fault.
-/

namespace VectorScript

namespace Parse

/-! ## Assignments -/

/-- Whether index and field steps and then an assignment mark follow. `depth` counts the brackets
that are open. -/
def assignmentFollows (depth : Nat) : List (Token × Position) → Bool
  | [] => false
  | (token, _) :: rest =>
    match token, depth with
    | .mark .leftBracket, _ => assignmentFollows (depth + 1) rest
    | .mark .rightBracket, depth + 1 => assignmentFollows depth rest
    | _, _ + 1 => assignmentFollows depth rest
    | .mark .assign, 0 => true
    | .mark .dot, 0 =>
      match rest with
      | (.ident _, _) :: rest => assignmentFollows 0 rest
      | _ => false
    | _, 0 => false

/-- The steps from a variable to the place assigned to, with the type there. -/
def assignmentPath (room : Nat) (name : String) (ty : Ty) : Parse (List Expr × Ty) :=
  loop ([], ty) fun (path, ty) => do
    let p ← position
    match ← peek? with
    | some (.mark .leftBracket) =>
      skip
      let index ← conditionFor room "[]"
      expectMark .rightBracket
      match ty.element? with
      | some elem => return .inl (index :: path, elem)
      | none => failAbout .notIndexable name p
    | some (.mark .dot) =>
      skip
      let (field, fieldPosition) ← ident
      match ty.field? field with
      | some (place, fieldType) =>
        return .inl (.literal (.integer (Int32.ofNat place)) :: path, fieldType)
      | none => failAbout .noMember field fieldPosition
    | _ => return .inr (path.reverse, ty)

/-- A value stored in a variable that is not imported. -/
def assignment (room : Nat) : Parse Stmt := do
  let (name, p) ← ident
  match ← lookup? name with
  | some (.var v) =>
    if v.imported then failAbout .assignToImport name p
    let (path, ty) ← assignmentPath room name v.ty
    expectMark .assign
    let value ← rhs room ty name
    expectMark .semicolon
    return .store v.slot path value p
  | some _ => failAbout .notVariable name p
  | none => failAbout .notDeclared name p

/-- An expression on its own; an integer becomes the result. -/
def expressionStatement (room : Nat) : Parse Stmt := do
  let p ← position
  let e ← expression room
  expectMark .semicolon
  if e.ty = .integer then return .store 0 [] (.plain e.expr) p else return .discard e.expr p

/-! ## Blocks and conditionals -/

/-- Statements between braces. -/
def block (inner : Option (Parse (List Stmt))) : Parse (List Stmt) := do
  expectMark .leftBrace
  match inner with
  | none => tooDeep
  | some statement =>
    let parts ← loop [] fun parts => do
      match ← peek? with
      | some (.mark .rightBrace) => return .inr parts.reverse
      | none => unexpected (Token.mark .rightBrace).render
      | some _ => return .inl ((← statement) :: parts)
    expectMark .rightBrace
    return parts.flatten

/-- A conditional; both branches are one level deeper. -/
def conditional (room : Nat) (inner : Option (Parse (List Stmt))) : Parse Stmt := do
  let p ← position
  skip
  expectMark .leftParen
  let condition ← conditionFor room "if"
  expectMark .rightParen
  match inner with
  | none => tooDeep
  | some statement =>
    let body ← statement
    let elsePosition ← position
    if ← acceptWord .elseWord then
      return .ifElse condition p body elsePosition (← statement)
    else return .ifThen condition p body

/-! ## Statements -/

/-- A statement that starts with an identifier. -/
def namedStatement (room : Nat) (name : String) : Parse (List Stmt) := do
  let ahead := assignmentFollows 0 ((← get).tokens.drop 1)
  match ← lookup? name with
  | some (.typedef _) => declaration room false
  | some (.var _) | none =>
    if ahead then return [← assignment room] else return [← expressionStatement room]
  | some _ => return [← expressionStatement room]

/-- A statement. What it holds in blocks and bodies is read by `inner`. -/
def statementWith (room : Nat) (inner : Option (Parse (List Stmt))) : Parse (List Stmt) := do
  match ← peek? with
  | none => unexpected "statement"
  | some token =>
    match token with
    | .mark .semicolon => do
      skip
      return []
    | .mark .leftBrace => block inner
    | .word .sharedWord => do
      skip
      declaration room true
    | .word .recordWord => declaration room false
    | .word .typeWord => do
      typedef room
      return []
    | .word .constWord => do
      constant room
      return []
    | .word .importWord => do
      importNames
      return []
    | .word .ifWord => return [← conditional room inner]
    | .ident name => namedStatement room name
    | _ => return [← expressionStatement room]

/-- A statement where so many levels are left. -/
def statement : Nat → Parse (List Stmt)
  | 0 => statementWith 0 none
  | room + 1 => statementWith (room + 1) (some (statement room))

/-- Every statement of a text. -/
def script : Parse (List Stmt) := do
  let parts ← loop [] fun parts => do
    if (← peek?).isNone then return .inr parts.reverse
    else return .inl ((← statement maxNesting) :: parts)
  return parts.flatten

end Parse

/-! ## Compilation -/

/-- Where a text is compiled: its name, the names of the host, the other scripts and the shared
variables. -/
structure Setting where
  name : String
  globals : Globals
  scripts : Scripts
  table : SharedTable

namespace Setting

def surroundings (s : Setting) (source : String) (tokens : List (Token × Position)) :
    Surroundings where
  name := s.name
  globals := s.globals
  scripts := s.scripts
  endPosition := Lexer.endPosition source
  rounds := tokens.length + 1

/-- Reads a text with a parser. -/
def parse {α : Type} (s : Setting) (parser : Parse α) (source : String) :
    EStateM.Result Fault Draft α :=
  let tokens := Lexer.tokens source
  (parser.run (s.surroundings source tokens)).run (.start tokens s.table)

/-- Compiles a text. The table has the shared variables that were declared, whether the text
compiled or not. -/
def compile (s : Setting) (source : String) : Except Fault Program × SharedTable :=
  match s.parse Parse.script source with
  | .ok body d => ((Stmt.flattenAll body).map (d.program s.globals), d.table)
  | .error e d => (.error e, d.table)

/-- The names that a text declares up to its first fault. -/
def declaredNames (s : Setting) (source : String) : List String :=
  match s.parse Parse.script source with
  | .ok _ d | .error _ d => d.symbols.names

end Setting

end VectorScript
