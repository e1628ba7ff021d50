import VectorScript.Machine.Evaluate
import VectorScript.Workspace.Compile

/-!
# Running scripts

A script runs to completion, compiled first if something it imports has changed. A running script
may dispatch others but none that is running already, so runs nest no deeper than there are scripts.
-/

namespace VectorScript.Workspace

/-- Changes what is installed for a script. -/
def modifyInstalled (w : Workspace) (name : String) (f : Installed → Installed) : Workspace :=
  { w with scripts := w.scripts.modify name fun s => { s with installed := s.installed.map f } }

/-- The workspace in which a script starts to run: it is the innermost one, and its runner is out. -/
def enter (w : Workspace) (name : String) : Workspace :=
  { (w.note .started name).modifyInstalled name Installed.withoutRunner with
    active := w.active ++ [name] }

/-- The workspace when the innermost script has run and its runner is put back. -/
def leave (w : Workspace) (name : String) (r : Runner) : Workspace :=
  { w.modifyInstalled name (Installed.putBack r) with active := w.active.dropLast }

/-- Compiles a script if it has no current program. -/
def refresh (compiler : Compiler) (w : Workspace) (name : String) (s : Script) :
    Except Fault Unit × Workspace :=
  if s.stale || s.installed.isNone then w.compile name compiler else (.ok (), w)

/-- Dispatches a script, given how scripts run. A fault with a position leaves a trace of where the
script failed. -/
def dispatchBy (run : String → Workspace → Except Fault Unit × Workspace) (script : String)
    (w : Workspace) : Except Fault Unit × Workspace :=
  if w.active.contains script then (.error (.about .cyclicDispatch script), w)
  else if !w.scripts.contains script then (.error (.about .dispatchNotFound script), w)
  else
    let (outcome, w) := run script w
    let traced := outcome.mapError fun e => if e.position.isSome then e.inScript script else e
    (traced, w)

/-- Lets a runner run as the named script. -/
def engage (run : String → Workspace → Except Fault Unit × Workspace) (name : String)
    (r : Runner) (w : Workspace) : Except Fault Unit × Workspace :=
  let callees : Callees := ⟨r.program.functions, dispatchBy run⟩
  let (outcome, memory, after) := r.program.run callees r.memory (w.enter name)
  (outcome, after.leave name { r with memory := memory })

/-- Runs a script where at most so many runs may nest. -/
def runWithin (compiler : Compiler) : Nat → String → Workspace → Except Fault Unit × Workspace
  | 0, name, w => (.error (.about .cyclicDispatch name), w)
  | depth + 1, name, w =>
    match w.scripts.get? name with
    | none => (.error (.about .dispatchNotFound name), w)
    | some s =>
      match w.refresh compiler name s with
      | (.error e, w) => (.error ((Fault.about .compilationFailed name).because e.render), w)
      | (.ok (), w) =>
        match (w.scripts.get? name).bind Script.runner? with
        | none => (.error (.about .cyclicDispatch name), w)
        | some r => engage (runWithin compiler depth) name r w

/-- Runs a script to completion. -/
def run (w : Workspace) (name : String) (compiler : Compiler := Setting.compile) :
    Except Fault Unit × Workspace :=
  runWithin compiler (w.scripts.size + 1) name w

/-- Runs a script on behalf of another. -/
def dispatch (w : Workspace) (script : String) (compiler : Compiler := Setting.compile) :
    Except Fault Unit × Workspace :=
  dispatchBy (runWithin compiler (w.scripts.size + 1)) script w

end VectorScript.Workspace
