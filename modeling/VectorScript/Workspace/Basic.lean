import VectorScript.Host.Library
import VectorScript.Workspace.Script

/-!
# Workspaces

A workspace owns every script, the names of the host that they compile against and the table of
shared variables through which they exchange values. Scripts refer to each other by name. A journal
tells which scripts it has compiled and run, and on whose behalf.
-/

namespace VectorScript

/-! ## What a workspace does -/

/-- What is done with a script. -/
inductive Deed
  /-- Its text has become a program. -/
  | compiled
  /-- Its text did not compile. -/
  | refused
  /-- Its program has started to run. -/
  | started
  deriving DecidableEq, Repr

/-- A deed, and the scripts that were running at that time, the outermost first. -/
structure Event where
  deed : Deed
  script : String
  chain : List String
  deriving DecidableEq, Repr

/-! ## Workspaces -/

structure Workspace where
  globals : Globals
  table : SharedTable
  scripts : Scripts
  /-- The scripts that are running, the outermost first. -/
  active : List String
  /-- The state of the random number generator. -/
  seed : UInt64
  /-- What has been done with scripts, the latest first. -/
  journal : List Event

namespace Workspace

/-- The names that every workspace starts with. -/
def standardGlobals : Globals :=
  let types := [("Natural", Ty.integer), ("Real", .real), ("Vector", .vector), ("Matrix", .matrix),
    ("Text", .text)]
  let constants := [("true", Value.integer 1), ("false", .integer 0),
    ("pi", .real (Float32.ofBits 0x40490fdb))]
  let g := types.foldl (fun g (name, ty) => g.addTypedef name ty) Globals.empty
  let g := constants.foldl (fun g (name, v) => g.addConstant name v) g
  Library.functions.foldl Globals.addFunction g

/-- A workspace without scripts. -/
def new : Workspace where
  globals := standardGlobals
  table := .empty
  scripts := .empty
  active := []
  seed := 0
  journal := []

instance : Inhabited Workspace := ⟨new⟩

/-- Draws a number from zero up to but not including one: the high bits of a linear congruential
generator. -/
def random (w : Workspace) : Float32 × Workspace :=
  let seed := w.seed * 6364136223846793005 + 1442695040888963407
  (Float32.ofNat (seed >>> 40).toNat / 16777216, { w with seed := seed })

/-- Enters a deed in the journal. -/
def note (w : Workspace) (deed : Deed) (script : String) : Workspace :=
  { w with journal := ⟨deed, script, w.active⟩ :: w.journal }

/-- Sets the mark of every script that the condition holds of. -/
def markStale (w : Workspace) (condition : String → Script → Bool) : Workspace :=
  { w with scripts := w.scripts.map fun name s =>
      if condition name s then { s with stale := true } else s }

/-! ## Registering what the host offers -/

def addFunction (w : Workspace) (f : HostFunction) : Workspace :=
  { w with globals := w.globals.addFunction f }

def addConstant (w : Workspace) (name : String) (v : Value) : Workspace :=
  { w with globals := w.globals.addConstant name v }

/-- The owner of the host's shared variables. -/
def hostOwner : String := ""

/-- Puts an entry in the place of an older one that a host name stood for; scripts that refer to the
old entry are stale. -/
def replaceShared (w : Workspace) (previous : Option SharedId) (id : SharedId) : Workspace :=
  let w := { w with table := w.table.acquire [id] }
  match previous with
  | none => w
  | some old =>
    { w with table := (w.table.release [old]).sweep }.markStale fun _ s => s.refersTo old

/-- Registers a shared variable of the host, to which the workspace holds a reference. Registered
again with the same type it keeps its value. -/
def addShared (w : Workspace) (name : String) (ty : Ty) : SharedId × Workspace :=
  let previous := w.globals.shared.get? name
  let (id, table) := w.table.declare hostOwner name ty
  let w := { w with table := table }
  let w := if previous = some id then w else w.replaceShared previous id
  (id, { w with globals := w.globals.addShared name id })

/-- A workspace with the shared variables that a renderer provides. -/
def forRenderer : Workspace :=
  [("camera", Ty.matrix), ("projection", .matrix), ("time", .integer)].foldl
    (fun w (name, ty) => (w.addShared name ty).2) new

end Workspace

end VectorScript
