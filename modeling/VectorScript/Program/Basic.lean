import VectorScript.Code.Statement
import VectorScript.Program.Symbol
import VectorScript.Store.Memory

/-!
# Programs

Everything that one successful compilation produces. A program never changes; compiling again makes
a new one.
-/

namespace VectorScript

structure Program where
  statements : List Statement
  slots : List Slot
  symbols : NameMap Symbol
  /-- The host functions as they were when the script was compiled. -/
  functions : List HostFunction
  /-- The shared variables that the script declares. -/
  exports : NameMap SharedId
  /-- The scripts it imports from. -/
  imports : NameSet
  /-- The scripts it imports from or dispatches by a literal name. -/
  subscripts : NameSet
  /-- One entry per shared variable declared or imported. -/
  references : List SharedId

namespace Program

/-- The greatest height of the evaluation stack in any statement. -/
def maxDepth (p : Program) : Nat := p.statements.foldl (fun d s => max d s.depth) 0

/-- The name of the variable in a slot. -/
def slotName? (p : Program) (slot : Nat) : Option String :=
  p.symbols.entries.findSome? fun (name, symbol) =>
    match symbol with
    | .var v => if v.slot = slot then some name else none
    | _ => none

end Program

end VectorScript
