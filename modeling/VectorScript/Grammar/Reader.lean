import VectorScript.Token.Lexer
import VectorScript.Tree.Stmt
import VectorScript.Workspace.Script

/-!
# Reading a script

The state of a compilation, and the steps that read tokens from it. What has been declared stays
declared when a step fails: shared variables are declared in the table right away, and completion
offers the names declared before a fault. Nesting is limited: `room` counts the levels that are
left, and only a construct that opens a level passes less of it on. Loops take at most one round
per token of the text.
-/

namespace VectorScript

/-- The variable that integer expression statements leave their value in. -/
def resultName : String := "gl_result"

/-- Expressions, prefix operators, blocks, bodies and record types nest at most so deep. -/
def maxNesting : Nat := 64

/-! ## State -/

/-- What a compilation knows about its surroundings. -/
structure Surroundings where
  /-- The script being compiled. -/
  name : String
  globals : Globals
  scripts : Scripts
  /-- The place after the last character of the text. -/
  endPosition : Position
  /-- How many rounds a loop may take: one more than there are tokens. -/
  rounds : Nat

/-- The tokens still to read and what has been declared so far. -/
structure Draft where
  tokens : List (Token × Position)
  table : SharedTable
  slots : Array Slot
  symbols : NameMap Symbol
  exports : NameMap SharedId
  imports : NameSet
  subscripts : NameSet
  references : Array SharedId

/-- A step of reading. -/
abbrev Parse := ReaderT Surroundings (EStateM Fault Draft)

namespace Draft

/-- The draft before anything is read; the first slot is for results. -/
def start (tokens : List (Token × Position)) (table : SharedTable) : Draft where
  tokens := tokens
  table := table
  slots := #[.local .integer]
  symbols := NameMap.empty.insert resultName
    (.var { ty := .integer, slot := 0, shared := none, imported := false })
  exports := .empty
  imports := .empty
  subscripts := .empty
  references := #[]

/-- The program of a draft with the given statements. -/
def program (d : Draft) (globals : Globals) (statements : List Statement) : Program where
  statements := statements
  slots := d.slots.toList
  symbols := d.symbols
  functions := globals.functions
  exports := d.exports
  imports := d.imports
  subscripts := d.subscripts
  references := d.references.toList

end Draft

namespace Parse

/-! ## Tokens -/

def fail {α : Type} (cause : Cause) (position : Position) : Parse α :=
  throw ((Fault.of cause).located position)

def failAbout {α : Type} (cause : Cause) (item : String) (position : Position) : Parse α :=
  throw ((Fault.about cause item).located position)

/-- The next token, unread. -/
def peek? : Parse (Option Token) := return (← get).tokens.head?.map (·.1)

/-- The position of the next token, or the end of the text. -/
def position : Parse Position := do
  match (← get).tokens with
  | (_, p) :: _ => return p
  | [] => return (← read).endPosition

/-- Reads the next token. -/
def next? : Parse (Option (Token × Position)) := do
  match (← get).tokens with
  | t :: rest =>
    modify fun d => { d with tokens := rest }
    return some t
  | [] => return none

/-- Drops the next token. -/
def skip : Parse Unit := modify fun d => { d with tokens := d.tokens.drop 1 }

/-- Reads a token if it is the next one. -/
def accept (t : Token) : Parse Bool := do
  if (← peek?) = some t then
    skip
    return true
  else return false

/-- Fails because something else was wanted. -/
def unexpected {α : Type} (wanted : String) : Parse α := do
  let p ← position
  match ← peek? with
  | some t => throw (((Fault.about .unexpected t.render).located p).because ("expected " ++ wanted))
  | none => failAbout .expected wanted p

def expect (t : Token) : Parse Unit := do
  if ← accept t then return () else unexpected t.render

def expectMark (m : Mark) : Parse Unit := expect (.mark m)

def acceptMark (m : Mark) : Parse Bool := accept (.mark m)

def acceptWord (w : Word) : Parse Bool := accept (.word w)

/-- Reads an identifier. -/
def ident : Parse (String × Position) := do
  let p ← position
  match ← peek? with
  | some (.ident name) =>
    skip
    return (name, p)
  | _ => unexpected "identifier"

/-! ## Nesting and loops -/

def tooDeep {α : Type} : Parse α := do fail .tooDeep (← position)

/-- The fault of a loop that has used up its rounds; every round reads a token, so none does. -/
def noProgress {α : Type} : Parse α := throw (.internal "no progress")

/-- Repeats a step until it gives a result. -/
def iterate {α β : Type} (step : α → Parse (α ⊕ β)) : Nat → α → Parse β
  | 0, _ => noProgress
  | rounds + 1, a => do
    match ← step a with
    | .inl a => iterate step rounds a
    | .inr b => return b

/-- Repeats a step, at most once per token. -/
def loop {α β : Type} (a : α) (step : α → Parse (α ⊕ β)) : Parse β := do
  iterate step (← read).rounds a

/-- One item or more, separated by commas. Each item is told those before it, the last one first. -/
def separatedAfter {α : Type} (item : List α → Parse α) : Parse (List α) :=
  loop [] fun before => do
    let a ← item before
    if ← acceptMark .comma then return .inl (a :: before) else return .inr (a :: before).reverse

/-- One item or more, separated by commas. -/
def separated {α : Type} (item : Parse α) : Parse (List α) := separatedAfter fun _ => item

/-! ## Names -/

/-- What a name stands for: a symbol of the script before one of the host. -/
def lookup? (name : String) : Parse (Option Symbol) := do
  match (← get).symbols.get? name with
  | some symbol => return some symbol
  | none => return (← read).globals.symbols.get? name

def declare (name : String) (symbol : Symbol) : Parse Unit :=
  modify fun d => { d with symbols := d.symbols.insert name symbol }

/-- A name can be declared once, and not at all if the host uses it. -/
def checkFresh (name : String) (p : Position) : Parse Unit := do
  if (← get).symbols.contains name || (← read).globals.contains name then
    failAbout .alreadyDeclared name p

/-- Adds a slot and gives its number. -/
def addSlot (slot : Slot) : Parse Nat := do
  let n := (← get).slots.size
  modify fun d => { d with slots := d.slots.push slot }
  return n

def addReference (id : SharedId) : Parse Unit :=
  modify fun d => { d with references := d.references.push id }

/-! ## Integers -/

/-- An integer of 32 bits. -/
def integer (n : Int) (p : Position) : Parse Int32 :=
  if Int32.minValue.toInt ≤ n ∧ n ≤ Int32.maxValue.toInt then return Int32.ofInt n
  else failAbout .integerRange (toString n) p

end Parse

end VectorScript
