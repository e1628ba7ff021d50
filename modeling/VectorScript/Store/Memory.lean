import VectorScript.Store.Shared

/-!
# Variable memory

Each variable of a program has a slot. A local variable has a cell of its own, fresh for every
compiled program; a shared one names an entry of the shared table.
-/

namespace VectorScript

/-- Where a variable lives. -/
inductive Slot
  | local (ty : Ty)
  | shared (id : SharedId)
  deriving DecidableEq, Inhabited

/-- The storage of a slot. -/
inductive Storage
  | local (cell : Cell)
  | shared (id : SharedId)
  deriving Inhabited

structure Memory where
  slots : List Storage
  deriving Inhabited

namespace Memory

def size (m : Memory) : Nat := m.slots.length

def missingEntry (id : SharedId) : Fault := .internal ("no shared " ++ id.render)

def missingSlot (slot : Nat) : Fault := .internal ("no variable in slot " ++ toString slot)

def storageFor (table : SharedTable) : Slot → Except Fault Storage
  | .local ty => .ok (.local (.create ty))
  | .shared id => if (table.get? id).isSome then .ok (.shared id) else .error (missingEntry id)

/-- Fresh memory for the slots of a program. -/
def create (slots : List Slot) (table : SharedTable) : Except Fault Memory :=
  (slots.mapM (storageFor table)).map Memory.mk

def fetch (m : Memory) (table : SharedTable) (slot : Nat) : Except Fault Value :=
  match m.slots[slot]? with
  | some (.local cell) => .ok cell.value
  | some (.shared id) =>
    match table.value? id with
    | some v => .ok v
    | none => .error (missingEntry id)
  | none => .error (missingSlot slot)

/-- Stores a value along a path, in the slot's own cell or in the shared table. -/
def store (m : Memory) (table : SharedTable) (slot : Nat) (v : Value) (path : List Int32) :
    Except Fault Unit × Memory × SharedTable :=
  match m.slots[slot]? with
  | some (.local cell) =>
    let (outcome, cell) := cell.set v path
    (outcome, ⟨m.slots.set slot (.local cell)⟩, table)
  | some (.shared id) =>
    match table.store? id v path with
    | some (outcome, table) => (outcome, m, table)
    | none => (.error (missingEntry id), m, table)
  | none => (.error (missingSlot slot), m, table)

end Memory

end VectorScript
