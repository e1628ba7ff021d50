import VectorScript.Workspace.Basic

/-!
# Looking into a workspace

The variables of a script with their values, what it exports, and the shared variables that the host
can read and set.
-/

namespace VectorScript.Workspace

/-- The values of a script's variables, its own and shared ones alike. -/
def values (w : Workspace) (name : String) : List (String × Value) :=
  match (w.scripts.get? name).bind Script.installed with
  | none => []
  | some i => i.program.symbols.entries.filterMap fun (name, symbol) =>
    match symbol with
    | .var v =>
      match i.memory.fetch w.table v.slot with
      | .ok value => some (name, value)
      | .error _ => none
    | _ => none

/-- The shared variables that a script declares, with their types. -/
def exports (w : Workspace) (name : String) : List (String × Ty) :=
  ((w.scripts.exports? name).map fun exports => exports.entries.filterMap fun (name, id) =>
    (w.table.get? id).map fun e => (name, e.ty)).getD []

/-- The value of a shared variable. -/
def getShared (w : Workspace) (owner name : String) : Option Value :=
  (w.table.lookup owner name).bind w.table.value?

/-- Stores a value in a shared variable whose type takes it. -/
def setShared (w : Workspace) (owner name : String) (v : Value) : Except Fault Unit × Workspace :=
  match w.table.current? owner name with
  | none => (.error (.about .notDeclared name), w)
  | some e =>
    if !e.ty.assignable v.ty then (.error (.about .assignmentMismatch name), w)
    else
      match w.table.store? e.id v [] with
      | some (outcome, table) => (outcome, { w with table := table })
      | none => (.error (.about .notDeclared name), w)

end VectorScript.Workspace
