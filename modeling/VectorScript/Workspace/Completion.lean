import VectorScript.Workspace.Compile

/-!
# Completion

What the identifier at a cursor may become: the names declared before it, those of the host, the
keywords and the names of scripts, as far as they begin with what has been typed. A text that does
not compile only cuts the declared names short.
-/

namespace VectorScript

/-- What has been typed of an identifier, and the names it may become. -/
structure Completion where
  stem : String
  candidates : List String
  deriving DecidableEq, Repr

namespace Completion

/-- The characters of a text that lie within its first bytes. -/
def takeBytes : Nat → List Char → List Char
  | _, [] => []
  | bytes, c :: rest =>
    if c.utf8Size ≤ bytes then c :: takeBytes (bytes - c.utf8Size) rest else []

/-- Names in increasing order, each once. -/
def sorted (names : List String) : List String := (names.foldl NameMap.add NameMap.empty).names

/-- Splits a text before the identifier characters at its end. -/
def splitStem (head : List Char) : List Char × List Char :=
  let backwards := head.reverse
  ((backwards.dropWhile Lexer.isNameChar).reverse, (backwards.takeWhile Lexer.isNameChar).reverse)

end Completion

/-- Completes the identifier of a text that ends at a cursor, which counts bytes. -/
def Workspace.complete (w : Workspace) (name source : String) (cursor : Nat) : Completion :=
  let (before, stem) := Completion.splitStem (Completion.takeBytes cursor source.toList)
  let names := (w.setting name).declaredNames (String.ofList before) ++ w.globals.names
    ++ Word.all.map Word.spelling ++ w.scripts.names
  { stem := String.ofList stem
    candidates := Completion.sorted (names.filter fun n => stem.isPrefixOf n.toList) }

end VectorScript
