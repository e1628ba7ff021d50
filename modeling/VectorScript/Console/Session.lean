import VectorScript.Console.Command
import VectorScript.Console.FileName
import VectorScript.Console.Report
import VectorScript.Program.Listing
import VectorScript.Workspace.Query
import VectorScript.Workspace.Run

/-!
# Console sessions

A session edits one script at a time: every line that is no command is appended to its text, which
is compiled anew. Files and the clock are reached through a `Terminal`.
-/

namespace VectorScript

/-- Why a file could not be read or written. -/
inductive FileFault
  | notFound (message : String)
  | other (message : String)
  deriving DecidableEq, Repr

namespace FileFault

def message : FileFault → String
  | notFound m | other m => m

/-- A file that is not there counts as a missing script. -/
def ofReading (file : String) : FileFault → Fault
  | notFound m => (Fault.about .scriptNotFound file).because m
  | other m => .internal m

def ofWriting (e : FileFault) : Fault := .internal e.message

end FileFault

/-- What a session needs from the world. -/
structure Terminal (m : Type → Type) where
  read : String → m (Except FileFault String)
  write : String → String → m (Except FileFault Unit)
  /-- Waits for the next frame of an animation and gives the milliseconds since its start, or
  nothing when it is to stop. -/
  nextFrame : m (Option Int32)

structure Session where
  workspace : Workspace
  /-- The script that lines are appended to. -/
  editing : String

/-- What a line brings about: output, and perhaps the end of the session. -/
structure Reply where
  output : String
  ended : Bool := false

namespace Session

def new : Session := ⟨.forRenderer, "main"⟩

/-! ## Showing things -/

def source? (s : Session) (name : String) : Option String :=
  (s.workspace.scripts.get? name).map (·.source)

/-- The report of a fault in a script. -/
def report (s : Session) (name : String) (e : Fault) : String := Report.fault (s.source? name) e

/-- What there is to show of an outcome. -/
def reportOutcome (s : Session) (name : String) : Except Fault Unit → String
  | .ok () => ""
  | .error e => s.report name e

def lines (texts : List String) : String := String.join (texts.map (· ++ "\n"))

def showVars (s : Session) (name : String) : String :=
  lines ((s.workspace.values name).map fun (var, v) => var ++ " = " ++ v.render)

def showExports (s : Session) (name : String) : String :=
  lines ((s.workspace.exports name).map fun (var, ty) => ty.render ++ " " ++ var)

def showListing (s : Session) (name : String) : String :=
  match s.workspace.scripts.program? name with
  | some p => p.listing
  | none => Report.message (.about .scriptNotFound name)

/-- The state of a script in one word. -/
def stateOf (s : Script) : String :=
  if s.error.isSome then "error"
  else if s.stale then "stale"
  else if s.installed.isSome then "ok"
  else "empty"

/-- A name filled up with blanks to a width. -/
def padded (width : Nat) (name : String) : String :=
  name ++ String.ofList (List.replicate (width - name.length) ' ')

def showScripts (s : Session) : String :=
  lines (s.workspace.scripts.entries.map fun (name, script) =>
    padded 16 name ++ " " ++ stateOf script)

/-! ## Changing scripts -/

def setSource (s : Session) (name source : String) : Except Fault Unit × Session :=
  let (outcome, workspace) := s.workspace.setSource name source
  (outcome, { s with workspace := workspace })

/-- Stores the text of a script and shows the fault if it does not compile. -/
def submit (s : Session) (name source : String) : String × Session :=
  let (outcome, s) := s.setSource name source
  (s.reportOutcome name outcome, s)

/-- Appends a line to the script being edited. -/
def append (s : Session) (line : String) : String × Session :=
  s.submit s.editing ((s.source? s.editing).getD "" ++ line ++ "\n")

def edit (s : Session) (name : String) : String × Session :=
  let (output, s) := match s.source? name with
    | some _ => ("", s)
    | none =>
      let (outcome, s) := s.setSource name ""
      match outcome with
      | .ok () => ("", s)
      | .error e => (Report.message e, s)
  (output, { s with editing := name })

def run (s : Session) (name : String) : String × Session :=
  let (outcome, workspace) := s.workspace.run name
  let s := { s with workspace := workspace }
  (s.reportOutcome name outcome, s)

def remove (s : Session) (name : String) : String × Session :=
  let (found, workspace) := s.workspace.remove name
  let s := { s with workspace := workspace }
  (if found then "" else Report.message (.about .scriptNotFound name), s)

/-! ## Animation -/

/-- The shared variable that tells scripts the time. -/
def timeName : String := "time"

/-- Runs a script for one frame and gives the report of a fault, if there is one. -/
def frame (s : Session) (name : String) (elapsed : Int32) : Option String × Session :=
  match s.workspace.setShared Workspace.hostOwner timeName (.integer elapsed) with
  | (.error e, workspace) => (some (Report.message e), { s with workspace := workspace })
  | (.ok (), workspace) =>
    let (outcome, workspace) := workspace.run name
    let s := { s with workspace := workspace }
    match outcome with
    | .ok () => (none, s)
    | .error e => (some (s.report name e), s)

/-- Frames that an animation can have, far more than a clock of 32 bits can tell apart. -/
def maxFrames : Nat := 4611686018427387904

/-- Runs frames until one fails or the terminal stops the animation, at most as many as are left. -/
def frames {m : Type → Type} [Monad m] (t : Terminal m) (name : String) :
    Nat → Nat → Session → m (String × Session)
  | 0, done, s => return (toString done ++ " frames\n", s)
  | left + 1, done, s => do
    match ← t.nextFrame with
    | none => return (toString done ++ " frames\n", s)
    | some elapsed =>
      match s.frame name elapsed with
      | (some report, s) => return (report ++ toString done ++ " frames\n", s)
      | (none, s) => frames t name left (done + 1) s

/-! ## Lines -/

variable {m : Type → Type} [Monad m]

def load (t : Terminal m) (s : Session) (name file : String) : m (String × Session) := do
  match ← t.read file with
  | .ok source => return s.submit name source
  | .error e => return (Report.message (e.ofReading file), s)

def save (t : Terminal m) (s : Session) (name file : String) : m String := do
  match s.source? name with
  | none => return Report.message (.about .scriptNotFound name)
  | some source =>
    match ← t.write file source with
    | .ok () => return ""
    | .error e => return Report.message e.ofWriting

/-- Carries a command out. -/
def command (t : Terminal m) (s : Session) (c : Command) : m (Reply × Session) := do
  let reply (r : String × Session) : Reply × Session := (⟨r.1, false⟩, r.2)
  match c with
  | .quit => return (⟨"", true⟩, s)
  | .help => return (⟨Command.helpText ++ "\n", false⟩, s)
  | .load name file => return reply (← s.load t name file)
  | .save name file => return (⟨← s.save t name file, false⟩, s)
  | .needsNameAndFile => return (⟨Report.message (.about .expected "NAME FILE"), false⟩, s)
  | .new name => return reply (s.edit name)
  | .run name => return reply (s.run name)
  | .animate name => return reply (← frames t name maxFrames 0 s)
  | .list name => return (⟨s.showListing name, false⟩, s)
  | .vars name => return (⟨s.showVars name, false⟩, s)
  | .exports name => return (⟨s.showExports name, false⟩, s)
  | .scripts => return (⟨s.showScripts, false⟩, s)
  | .remove name => return reply (s.remove name)
  | .unknown verb =>
    return (⟨Report.message ((Fault.about .unexpected verb).because "try :help"), false⟩, s)

/-- Answers a line. Blank lines do nothing. -/
def enter (t : Terminal m) (s : Session) (line : String) : m (Reply × Session) := do
  let trimmed := Text.trim line.toList
  if trimmed = [] then return (⟨"", false⟩, s)
  else if trimmed.head? = some ':' then s.command t (.ofLine s.editing trimmed)
  else
    let (output, s) := s.append line
    return (⟨output, false⟩, s)

/-! ## The start -/

/-- Loads a file under its own name; only a file that cannot be read is reported at once. -/
def loadArgument (t : Terminal m) (s : Session) (file : String) : m (String × Session) := do
  match ← t.read file with
  | .ok source => return ("", (s.setSource (FileName.scriptName file) source).2)
  | .error e => return (Report.message (e.ofReading file), s)

/-- Loads files one after the other. -/
def loadArguments (t : Terminal m) (s : Session) : List String → m (String × Session)
  | [] => return ("", s)
  | file :: rest => do
    let (output, s) ← s.loadArgument t file
    let (more, s) ← loadArguments t s rest
    return (output ++ more, s)

/-- The session that starts with files, and what it shows first: the files that cannot be read, then
the scripts that do not compile. -/
def start (t : Terminal m) (files : List String) : m (String × Session) := do
  let (output, s) ← new.loadArguments t files
  let (failing, workspace) := s.workspace.recompileAll
  let s := { s with workspace := workspace }
  let reports := failing.map fun (name, e) => name ++ ":\n" ++ s.report name e
  return (output ++ String.join reports, s)

end Session

end VectorScript
