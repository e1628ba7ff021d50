import VectorScript.Grammar.Expression

/-!
# Reading declarations

Types, variables, type names, constants and imports. A variable may be declared together with its
first value; the other declarations leave no statement.
-/

namespace VectorScript

namespace Parse

/-! ## Types -/

/-- The array brackets after a type. -/
def arrayOf (ty : Ty) : Parse Ty :=
  loop ty fun ty => do
    if ← acceptMark .leftBracket then
      expectMark .rightBracket
      return .inl (.array ty)
    else return .inr ty

/-- A field of a record: a type and a name that no earlier field has. -/
def fieldSpec (typeSpec : Parse Ty) (before : List (String × Ty)) : Parse (String × Ty) := do
  let ty ← typeSpec
  let (name, p) ← ident
  if before.any fun field => field.1 = name then failAbout .duplicateDeclaration name p
  return (name, ty)

/-- The name of a type. -/
def namedType : Parse Ty := do
  let (name, p) ← ident
  match ← lookup? name with
  | some (.typedef ty) => return ty
  | some _ => failAbout .notType name p
  | none => failAbout .notDeclared name p

/-- A type; the fields of a record are one level deeper. -/
def typeSpec : Nat → Parse Ty
  | 0 => do
    if ← acceptWord .recordWord then
      expectMark .leftParen
      tooDeep
    else arrayOf (← namedType)
  | room + 1 => do
    if ← acceptWord .recordWord then
      expectMark .leftParen
      let fields ← separatedAfter (fieldSpec (typeSpec room))
      expectMark .rightParen
      arrayOf (.record fields)
    else arrayOf (← namedType)

/-! ## Right sides -/

/-- An expression whose value may be stored in a variable of the target type. -/
def assigned (room : Nat) (target : Ty) (name : String) : Parse Expr := do
  let p ← position
  let e ← expression room
  if target.assignable e.ty then return e.expr else failAbout .assignmentMismatch name p

/-- An expression that must be an integer, for the named construct. -/
def conditionFor (room : Nat) (construct : String) : Parse Expr := do
  let p ← position
  let e ← expression room
  if e.ty = .integer then return e.expr else failAbout .expectedInteger construct p

/-- A plain expression or a chain of guarded values. -/
def rhs (room : Nat) (target : Ty) (name : String) : Parse Rhs := do
  if (← peek?) ≠ some (.word .whenWord) then
    return .plain (← assigned room target name)
  let cases ← loop [] fun cases => do
    if ← acceptWord .whenWord then
      let condition ← conditionFor room "when"
      expectMark .colon
      let value ← assigned room target name
      return .inl ((condition, value) :: cases)
    else return .inr cases.reverse
  if ← acceptWord .elseWord then
    return .guarded cases (some (← assigned room target name))
  else return .guarded cases none

/-! ## Variables -/

/-- Declares a variable; a shared one is declared in the table and exported. -/
def declareVariable (isShared : Bool) (ty : Ty) (name : String) : Parse Nat := do
  let id? ← if isShared then do
      let d ← get
      let (id, table) := d.table.declare (← read).name name ty
      set { d with
        table := table
        exports := d.exports.insert name id
        references := d.references.push id }
      pure (some id)
    else pure none
  let slot ← addSlot <| match id? with
    | some id => .shared id
    | none => .local ty
  declare name (.var { ty := ty, slot := slot, shared := id?, imported := false })
  return slot

/-- A name in a declaration, with the store of its first value. -/
def declarator (room : Nat) (isShared : Bool) (ty : Ty) : Parse (List Stmt) := do
  let (name, p) ← ident
  checkFresh name p
  let slot ← declareVariable isShared ty name
  if ← acceptMark .assign then
    return [.store slot [] (← rhs room ty name) p]
  else return []

def declaration (room : Nat) (isShared : Bool) : Parse (List Stmt) := do
  let ty ← typeSpec room
  let stores ← separated (declarator room isShared ty)
  expectMark .semicolon
  return stores.flatten

/-! ## Types and constants -/

/-- A name for a type. -/
def typedef (room : Nat) : Parse Unit := do
  skip
  let (name, p) ← ident
  checkFresh name p
  expectMark .assign
  let ty ← typeSpec room
  expectMark .semicolon
  declare name (.typedef ty)

/-- A literal or the name of a constant. -/
def constantTerm (start : Position) (negative : Bool) : Parse Value := do
  match ← next? with
  | some (.integer n, p) => return .integer (← integer (if negative then -n else n) p)
  | some (.real x, _) => return .real (if negative then -x else x)
  | some (.text s, _) =>
    if negative then failAbout .notConstant (Value.text s).render start else return .text s
  | some (.ident name, p) =>
    match ← lookup? name with
    | some (.constant v) =>
      if negative then
        match v with
        | .integer n => return .integer (-n)
        | .real x => return .real (-x)
        | v => failAbout .notConstant v.render start
      else return v
    | _ => failAbout .notConstant name p
  | some (token, p) => failAbout .notConstant token.render p
  | none => failAbout .expected "constant" start

/-- The value of a constant: a term with an optional minus. -/
def constantValue : Parse Value := do
  let start ← position
  let negative ← accept (.operator .minus)
  constantTerm start negative

/-- A constant of a base type. -/
def constant (room : Nat) : Parse Unit := do
  skip
  let ty ← typeSpec room
  let (name, p) ← ident
  checkFresh name p
  expectMark .assign
  let valuePosition ← position
  let v ← constantValue
  if !(ty.isBase && ty.assignable v.ty) then failAbout .assignmentMismatch name valuePosition
  expectMark .semicolon
  declare name <| .constant <| match ty, v with
    | .real, .integer n => .real (Value.widen n)
    | _, v => v

/-! ## Imports -/

/-- A name in an import that no earlier one repeats. -/
def importedName (before : List (String × Position)) : Parse (String × Position) := do
  let (name, p) ← ident
  if before.any fun earlier => earlier.1 = name then failAbout .duplicateDeclaration name p
  return (name, p)

/-- The entry that another script exports under a name. A script must not import from itself or
from one that depends on it. -/
def exported (script : String) (scriptPosition : Position) (name : String) (p : Position) :
    Parse SharedId := do
  let s ← read
  if script = s.name || s.scripts.dependsOn script s.name then
    failAbout .cyclicImport script scriptPosition
  if !s.scripts.contains script then failAbout .scriptNotFound script scriptPosition
  match (s.scripts.exports? script).bind fun exports => exports.get? name with
  | some id => return id
  | none => failAbout .notExported name p

/-- The entry of a shared variable of the host. -/
def hostShared (name : String) (p : Position) : Parse SharedId := do
  let globals := (← read).globals
  match globals.shared.get? name with
  | some id => return id
  | none =>
    if globals.contains name then failAbout .notShared name p else failAbout .notExported name p

/-- Binds an imported name. -/
def importName (from? : Option (String × Position)) (name : String) (p : Position) :
    Parse Unit := do
  if (← get).symbols.contains name then failAbout .alreadyDeclared name p
  let id ← match from? with
    | some (script, scriptPosition) => exported script scriptPosition name p
    | none => hostShared name p
  match (← get).table.get? id with
  | none => throw (((Fault.of .internalError).located p).named name)
  | some entry =>
    let slot ← addSlot (.shared id)
    addReference id
    declare name (.var { ty := entry.ty, slot := slot, shared := some id, imported := true })

/-- Imports from another script, or from the host if no script is named. -/
def importNames : Parse Unit := do
  skip
  let names ← separatedAfter importedName
  let from? ← if ← acceptWord .fromWord then some <$> ident else pure none
  expectMark .semicolon
  names.forM fun (name, p) => importName from? name p
  match from? with
  | some (script, _) =>
    modify fun d =>
      { d with imports := d.imports.add script, subscripts := d.subscripts.add script }
  | none => return ()

end Parse

end VectorScript
