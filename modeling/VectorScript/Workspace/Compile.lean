import VectorScript.Grammar.Script
import VectorScript.Workspace.Basic

/-!
# Compiling in a workspace

A successful compilation installs the new program: references to its shared variables are taken
before those of the old program are given up, so a variable that both have survives with its value.
A failed one leaves nothing behind but the fault. Scripts that import from a newly compiled one are
stale. Every operation that compiles may be given a compiler other than the usual one.
-/

namespace VectorScript

/-- Makes a program of a text in a setting and gives the table with the shared variables declared on
the way. -/
abbrev Compiler := Setting → String → Except Fault Program × SharedTable

namespace Workspace

def setScript (w : Workspace) (name : String) (s : Script) : Workspace :=
  { w with scripts := w.scripts.insert name s }

/-- The setting in which a script of the workspace is compiled. -/
def setting (w : Workspace) (name : String) : Setting := ⟨name, w.globals, w.scripts, w.table⟩

/-- Puts a new program in place of a script's old one. -/
def install (w : Workspace) (name : String) (s : Script) (program : Program) :
    Except Fault Unit × Workspace :=
  let acquired := w.table.acquire program.references
  let released := match s.program? with
    | some old => acquired.release old.references
    | none => acquired
  let w := { w with table := released.sweep }
  match Memory.create program.slots w.table with
  | .error e => (.error e, w.setScript name { s with installed := none })
  | .ok memory =>
    let s := { s with installed := some (.of program memory), error := none, stale := false }
    (.ok (), (w.setScript name s).markStale fun other t => other ≠ name && t.importsFrom name)

/-- Compiles the text of a script. -/
def compile (w : Workspace) (name : String) (compiler : Compiler := Setting.compile) :
    Except Fault Unit × Workspace :=
  match w.scripts.get? name with
  | none => (.error (.about .scriptNotFound name), w)
  | some s =>
    let (result, table) := compiler (w.setting name) s.source
    let w := { w with table := table }
    match result with
    | .ok program => (w.note .compiled name).install name s program
    | .error e =>
      let w := { w with table := table.sweep }.note .refused name
      (.error e, w.setScript name { s with error := some e })

/-- What compiling a script gave, if its text is the given one and nothing it imports has changed
since. -/
def knownOutcome? (s : Script) (source : String) : Option (Except Fault Unit) :=
  if s.source = source && !s.stale then
    match s.error with
    | some e => some (.error e)
    | none => if s.installed.isSome then some (.ok ()) else none
  else none

/-- Stores the text of a script and compiles it, unless the outcome is known. -/
def setSource (w : Workspace) (name source : String) (compiler : Compiler := Setting.compile) :
    Except Fault Unit × Workspace :=
  let s := (w.scripts.get? name).getD {}
  match knownOutcome? s source with
  | some outcome => (outcome, w)
  | none => (w.setScript name { s with source := source }).compile name compiler

/-- Compiles scripts one after the other and lists those that fail. -/
def compileEach (compiler : Compiler) (w : Workspace) : List String → List String × Workspace
  | [] => ([], w)
  | name :: rest =>
    let (outcome, w) := w.compile name compiler
    let (failed, w) := compileEach compiler w rest
    match outcome with
    | .ok () => (failed, w)
    | .error _ => (name :: failed, w)

/-- Compiles the pending scripts until all compile or a round makes no progress. -/
def retry (compiler : Compiler) (w : Workspace) : Nat → List String → List String × Workspace
  | 0, pending => (pending, w)
  | rounds + 1, pending =>
    let (failed, w) := w.compileEach compiler pending
    if failed.isEmpty || failed.length = pending.length then (failed, w)
    else retry compiler w rounds failed

/-- The scripts without a current program. -/
def pending (w : Workspace) : List String :=
  (w.scripts.entries.filter fun (_, s) => s.installed.isNone || s.error.isSome || s.stale).map (·.1)

/-- Compiles every script that has no current program and lists those that still fail. -/
def recompileAll (w : Workspace) (compiler : Compiler := Setting.compile) :
    List (String × Fault) × Workspace :=
  let pending := w.pending
  let (failed, w) := w.retry compiler (pending.length + 1) pending
  let faults := failed.filterMap fun name =>
    ((w.scripts.get? name).bind Script.error).map fun e => (name, e)
  (faults, w)

/-- Removes a script and says whether there was one. Those that import from it are stale. -/
def remove (w : Workspace) (name : String) : Bool × Workspace :=
  match w.scripts.get? name with
  | none => (false, w)
  | some s =>
    let released := match s.program? with
      | some program => w.table.release program.references
      | none => w.table
    let w := { w with scripts := w.scripts.erase name, table := released.sweep }
    (true, w.markStale fun _ t => t.importsFrom name)

end Workspace

end VectorScript
