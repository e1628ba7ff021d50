import VectorScript.Console.Session

/-!
# The command line

An interactive session on standard input and output. Files given as arguments are loaded first.
-/

namespace VectorScript.Main

/-- What the system says about an error, with its number, which may come negated. -/
def systemText (details : String) (code : UInt32) : String :=
  details.capitalize ++ " (os error " ++ toString (min code (0 - code)) ++ ")"

/-- The fault of a failed file operation. -/
def fileFault : IO.Error → FileFault
  | .noFileOrDirectory _ code details => .notFound (systemText details code)
  | .alreadyExists _ code details | .interrupted _ code details | .invalidArgument _ code details
  | .permissionDenied _ code details | .resourceExhausted _ code details
  | .inappropriateType _ code details | .noSuchThing _ code details | .otherError code details
  | .resourceBusy code details | .resourceVanished code details
  | .unsupportedOperation code details | .hardwareFault code details
  | .unsatisfiedConstraints code details | .illegalOperation code details
  | .protocolError code details | .timeExpired code details => .other (systemText details code)
  | .unexpectedEof => .other "unexpected end of file"
  | .userError message => .other message

/-- The largest seed of the random numbers. -/
def maxSeed : Nat := 4611686018427387903

/-- Milliseconds between frames. -/
def pace : UInt32 := 16

/-- The terminal of this process; an animation runs until the process is interrupted. -/
def terminal (start : IO.Ref (Option Nat)) : Terminal IO where
  read path := do
    try
      let bytes ← IO.FS.readBinFile path
      match String.fromUTF8? bytes with
      | some text => return .ok text
      | none => return .error (.other "stream did not contain valid UTF-8")
    catch e => return .error (fileFault e)
  write path text := do
    try
      IO.FS.writeFile path text
      return .ok ()
    catch e => return .error (fileFault e)
  nextFrame := do
    let now ← IO.monoMsNow
    match ← start.get with
    | none =>
      start.set (some now)
      return some 0
    | some first =>
      IO.sleep pace
      return some (Int32.ofNat (now - first))

/-- Answers lines until the input or the session ends. -/
partial def loop (start : IO.Ref (Option Nat)) (s : Session) : IO Unit := do
  let out ← IO.getStdout
  out.putStr (s.editing ++ "> ")
  out.flush
  let line ← (← IO.getStdin).getLine
  if line.isEmpty then return
  start.set none
  let text := if line.endsWith "\n" then (line.dropEnd 1).toString else line
  let (reply, s) ← s.enter (terminal start) text
  out.putStr reply.output
  unless reply.ended do loop start s

end VectorScript.Main

def main (args : List String) : IO Unit := do
  let start ← IO.mkRef none
  let seed ← IO.rand 0 VectorScript.Main.maxSeed
  let (output, session) ← VectorScript.Session.start (VectorScript.Main.terminal start) args
  (← IO.getStdout).putStr output
  let workspace := { session.workspace with seed := UInt64.ofNat seed }
  VectorScript.Main.loop start { session with workspace := workspace }
