import VectorScript.Text.Blank

/-!
# Commands

A line that begins with a colon is a command. A command that works on one script takes the script
being edited when no name is given.
-/

namespace VectorScript

inductive Command
  | quit
  | help
  | load (name file : String)
  | save (name file : String)
  | new (name : String)
  | run (name : String)
  | animate (name : String)
  | list (name : String)
  | vars (name : String)
  | exports (name : String)
  | scripts
  | remove (name : String)
  /-- A command that needs a name and a file and nothing else. -/
  | needsNameAndFile
  | unknown (verb : String)
  deriving DecidableEq, Repr

namespace Command

/-- The text of `:help`. -/
def helpText : String :=
  ":load NAME FILE   load a script from a file\n" ++
  ":save NAME FILE   save a script to a file\n" ++
  ":new NAME         edit a script; following lines are appended to it\n" ++
  ":run NAME         run a script\n" ++
  ":list NAME        show the compiled code of a script\n" ++
  ":vars NAME        show the variables of a script\n" ++
  ":scripts          show every script and its state\n" ++
  ":exports NAME     show the shared variables a script declares\n" ++
  ":animate NAME     run a script every frame until ctrl-c\n" ++
  ":remove NAME      delete a script\n" ++
  ":quit             leave"

/-- The command of a verb and its arguments, while the named script is being edited. -/
def ofWords (editing verb : String) (args : List String) : Command :=
  let name := args.head?.getD editing
  match verb, args with
  | ":quit", _ => quit
  | ":help", _ => help
  | ":load", [name, file] => load name file
  | ":save", [name, file] => save name file
  | ":load", _ | ":save", _ => needsNameAndFile
  | ":new", _ => new name
  | ":run", _ => run name
  | ":animate", _ => animate name
  | ":list", _ => list name
  | ":vars", _ => vars name
  | ":exports", _ => exports name
  | ":scripts", _ => scripts
  | ":remove", _ => remove name
  | verb, _ => unknown verb

/-- The command on a line. -/
def ofLine (editing : String) (line : List Char) : Command :=
  match (Text.words line).map String.ofList with
  | [] => unknown ""
  | verb :: args => ofWords editing verb args

end Command

end VectorScript
