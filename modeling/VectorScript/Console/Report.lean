import VectorScript.Fault
import VectorScript.Text.Blank

/-!
# Reports

How the console shows a fault: its message in bold, and below it the line where it arose with the
offending text underlined. A fault past the end of a line gets an underlined blank there.
-/

namespace VectorScript.Report

def escapeCode (code : String) : String := "\x1b[" ++ code ++ "m"

def boldOn : String := escapeCode "1"

def underlineOn : String := escapeCode "4"

def off : String := escapeCode "0"

/-- The message of a fault, in bold. -/
def message (e : Fault) : String := boldOn ++ e.render ++ off ++ "\n"

/-- A line with the given number of characters underlined, from a column counted from zero. -/
def underlined (line : List Char) (start count : Nat) : String :=
  let before := String.ofList (line.take start)
  let inside := (line.drop start).take count
  let after := String.ofList ((line.drop start).drop count)
  if start < line.length then before ++ underlineOn ++ String.ofList inside ++ off ++ after
  else if start = line.length then before ++ underlineOn ++ " " ++ off
  else before

/-- The line of a text at a position, with what stands there underlined. -/
def sourceLine (source : String) (p : Position) : String :=
  match (Text.lines source.toList)[p.row - 1]? with
  | some line => underlined line (p.col - 1) (max p.len 1) ++ "\n"
  | none => ""

/-- The report of a fault in a script, whose text is given if there is such a script. -/
def fault (source : Option String) (e : Fault) : String :=
  match source, e.position with
  | some source, some p => message e ++ sourceLine source p
  | _, _ => message e

end VectorScript.Report
