import VectorScript.Program.Basic

/-!
# Scripts

A named script has a text, the last program that compiled together with the runner that executes it,
the fault of its most recent compilation if that failed, and a mark that something it imports has
changed. `dependsOn` says whether one script imports or dispatches another, directly or through
others.
-/

namespace VectorScript

/-- Executes a program on memory of its own. -/
structure Runner where
  program : Program
  memory : Memory

/-- A compiled program and its runner, which is out while the script runs. -/
structure Installed where
  program : Program
  runner : Option Runner

namespace Installed

/-- A program that is to run on the given memory. -/
def of (program : Program) (memory : Memory) : Installed := ⟨program, some ⟨program, memory⟩⟩

/-- What the runner keeps, nothing while it is out. -/
def memory (i : Installed) : Memory := (i.runner.map (·.memory)).getD ⟨[]⟩

def withoutRunner (i : Installed) : Installed := { i with runner := none }

/-- Puts a runner back, unless another one has taken its place. -/
def putBack (r : Runner) (i : Installed) : Installed :=
  if i.runner.isNone then { i with runner := some r } else i

end Installed

structure Script where
  source : String := ""
  installed : Option Installed := none
  error : Option Fault := none
  stale : Bool := false

instance : Inhabited Script := ⟨{}⟩

namespace Script

/-- The last program that compiled. -/
def program? (s : Script) : Option Program := s.installed.map (·.program)

/-- What executes it, unless it is running. -/
def runner? (s : Script) : Option Runner := s.installed.bind (·.runner)

/-- Whether the program imports from a script. -/
def importsFrom (s : Script) (name : String) : Bool :=
  (s.program?.map fun p => p.imports.contains name).getD false

/-- Whether the program refers to a shared variable. -/
def refersTo (s : Script) (id : SharedId) : Bool :=
  (s.program?.map fun p => p.references.contains id).getD false

end Script

/-- The scripts of a workspace by name. -/
abbrev Scripts := NameMap Script

namespace Scripts

def program? (scripts : Scripts) (name : String) : Option Program :=
  (scripts.get? name).bind Script.program?

/-- The shared variables that a script with a program declares. -/
def exports? (scripts : Scripts) (name : String) : Option (NameMap SharedId) :=
  (scripts.program? name).map (·.exports)

def subscripts (scripts : Scripts) (name : String) : List String :=
  ((scripts.program? name).map fun p => p.subscripts.names).getD []

/-- Searches the subscripts of the names still to visit. Every name is visited at most once, so as
many steps as there are subscripts in all suffice. -/
def search (scripts : Scripts) (sub : String) : Nat → List String → NameSet → Bool
  | 0, _, _ => false
  | _ + 1, [], _ => false
  | steps + 1, name :: todo, seen =>
    let next := scripts.subscripts name
    let fresh := next.filter fun n => !seen.contains n
    if next.contains sub then true
    else search scripts sub steps (fresh ++ todo) (fresh.foldl NameMap.add seen)

/-- Whether `top` imports or dispatches `sub`, directly or through others. -/
def dependsOn (scripts : Scripts) (top sub : String) : Bool :=
  let edges := scripts.names.foldl (fun n name => n + (scripts.subscripts name).length) 0
  scripts.search sub (edges + 1) [top] .empty

end Scripts

end VectorScript
