/-!
# File names

Paths are cut at slashes; empty parts between them mean nothing. A script that is loaded from a file
is named after the last part, dots aside, without its extension.
-/

namespace VectorScript.FileName

/-- The parts between slashes. -/
def split : List Char → List (List Char)
  | [] => [[]]
  | c :: rest =>
    if c = '/' then [] :: split rest
    else match split rest with
      | [] => [[c]]
      | part :: more => (c :: part) :: more

/-- The parts of a path that are not empty. -/
def parts (path : List Char) : List (List Char) := (split path).filter (· ≠ [])

/-- A file name up to its last dot; a dot at the start begins no extension. -/
def withoutExtension (name : List Char) : List Char :=
  let before := ((name.reverse.dropWhile (· ≠ '.')).drop 1).reverse
  if before = [] then name else before

/-- The name of a script that is loaded from a file. A path that ends in no name stands for
itself. -/
def scriptName (path : String) : String :=
  match ((parts path.toList).filter (· ≠ ['.'])).getLast? with
  | none => path
  | some last => if last = ['.', '.'] then path else String.ofList (withoutExtension last)

end VectorScript.FileName
