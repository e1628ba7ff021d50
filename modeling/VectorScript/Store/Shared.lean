import VectorScript.Store.Cell

/-!
# Shared variables

Storage that outlives a compilation. An entry belongs to a declaring owner and a name; several
generations of one name may be alive at once, and the key of the name tells which one it stands for:
the one declared last, until that is removed. Every compiled program holds one reference per shared
variable that it declares or imports, and `sweep` removes the entries that nobody refers to. Entries
stand in increasing order of their ids.
-/

namespace VectorScript

/-- Names a shared variable for as long as it lives. Ids are never given out twice. -/
structure SharedId where
  index : Nat
  deriving DecidableEq, Inhabited, Repr

def SharedId.render (id : SharedId) : String := "#" ++ toString id.index

structure SharedEntry where
  id : SharedId
  owner : String
  name : String
  ty : Ty
  cell : Cell
  refs : Nat

/-- Whether the entry belongs to an owner and a name. -/
def SharedEntry.isFor (owner name : String) (e : SharedEntry) : Bool :=
  e.owner = owner && e.name = name

structure SharedTable where
  /-- The id of the next entry. -/
  next : Nat
  entries : List SharedEntry
  /-- The entries that the names of owners stand for. -/
  keys : List ((String × String) × SharedId)

namespace SharedTable

def empty : SharedTable := ⟨0, [], []⟩

instance : Inhabited SharedTable := ⟨empty⟩

/-! ## Looking up -/

def get? (t : SharedTable) (id : SharedId) : Option SharedEntry :=
  t.entries.find? fun e => e.id = id

/-- The id that an owner's name stands for. -/
def lookup (t : SharedTable) (owner name : String) : Option SharedId :=
  (t.keys.find? fun k => k.1 = (owner, name)).map (·.2)

/-- The entry that an owner's name stands for. -/
def current? (t : SharedTable) (owner name : String) : Option SharedEntry :=
  (t.lookup owner name).bind t.get?

/-- How many references the entry of a name has. -/
def refs? (t : SharedTable) (owner name : String) : Option Nat :=
  (t.current? owner name).map (·.refs)

def value? (t : SharedTable) (id : SharedId) : Option Value := (t.get? id).map (·.cell.value)

def size (t : SharedTable) : Nat := t.entries.length

/-! ## Changing -/

/-- Changes one entry. -/
def modify (t : SharedTable) (id : SharedId) (f : SharedEntry → SharedEntry) : SharedTable :=
  { t with entries := t.entries.map fun e => if e.id = id then f e else e }

/-- Lets an owner's name stand for an entry, or for none. -/
def setKey (t : SharedTable) (owner name : String) (id? : Option SharedId) : SharedTable :=
  let others := t.keys.filter fun k => k.1 ≠ (owner, name)
  { t with keys := match id? with
      | some id => ((owner, name), id) :: others
      | none => others }

/-- Adds an entry that nobody refers to yet. Its name stands for it from now on. -/
def append (t : SharedTable) (owner name : String) (ty : Ty) : SharedId × SharedTable :=
  let entry : SharedEntry :=
    { id := ⟨t.next⟩, owner := owner, name := name, ty := ty, cell := .create ty, refs := 0 }
  let grown := { t with next := t.next + 1, entries := t.entries ++ [entry] }
  (entry.id, grown.setKey owner name entry.id)

/-- The entry for a declaration: the one that the name stands for while the type is the same, so
that its value carries over, and else a new one. -/
def declare (t : SharedTable) (owner name : String) (ty : Ty) : SharedId × SharedTable :=
  match t.current? owner name with
  | some e => if e.ty = ty then (e.id, t) else t.append owner name ty
  | none => t.append owner name ty

/-- Adds one reference per listed id. -/
def acquire (t : SharedTable) (ids : List SharedId) : SharedTable :=
  ids.foldl (fun t id => t.modify id fun e => { e with refs := e.refs + 1 }) t

/-- Takes one reference per listed id away. -/
def release (t : SharedTable) (ids : List SharedId) : SharedTable :=
  ids.foldl (fun t id => t.modify id fun e => { e with refs := e.refs - 1 }) t

/-- The entries that nobody refers to. -/
def dead (t : SharedTable) : List SharedEntry := t.entries.filter fun e => e.refs = 0

/-- The newest entry of an owner and a name. -/
def newest? (t : SharedTable) (owner name : String) : Option SharedEntry :=
  t.entries.reverse.find? fun e => e.isFor owner name

/-- Removes an entry. If its name stood for it, it stands for the newest that is left. -/
def remove (t : SharedTable) (e : SharedEntry) : SharedTable :=
  let left := { t with entries := t.entries.filter fun a => a.id ≠ e.id }
  if t.lookup e.owner e.name = some e.id then
    left.setKey e.owner e.name ((left.newest? e.owner e.name).map (·.id))
  else left

/-- Removes the entries that nobody refers to, the oldest first. -/
def sweep (t : SharedTable) : SharedTable := t.dead.foldl remove t

/-- Removes the entries of the ids, as far as they are there, and reports owner and name of each. -/
def removeReporting (t : SharedTable) : List SharedId → List (String × String) × SharedTable
  | [] => ([], t)
  | id :: ids =>
    match t.get? id with
    | none => t.removeReporting ids
    | some e =>
      let (report, left) := (t.remove e).removeReporting ids
      ((e.owner, e.name) :: report, left)

/-- A sweep that reports what it removes. -/
def sweepReporting (t : SharedTable) : List (String × String) × SharedTable :=
  t.removeReporting (t.dead.map (·.id))

/-- Stores a value in the cell of an entry, if the entry is there. -/
def store? (t : SharedTable) (id : SharedId) (v : Value) (path : List Int32) :
    Option (Except Fault Unit × SharedTable) :=
  (t.get? id).map fun e =>
    let (outcome, cell) := e.cell.set v path
    (outcome, t.modify id fun e => { e with cell })

end SharedTable

end VectorScript
