/-!
# Blanks and lines

Blanks are the characters with the white space property. A text is trimmed of them at both ends or
cut at them into words. Lines end with a line feed, a carriage return before it belonging to the
line's end.
-/

namespace VectorScript.Text

/-- The white space property. -/
def isBlank (c : Char) : Bool :=
  let n := c.toNat
  (0x9 ≤ n && n ≤ 0xd) || n = 0x20 || n = 0x85 || n = 0xa0 || n = 0x1680 ||
    (0x2000 ≤ n && n ≤ 0x200a) || n = 0x2028 || n = 0x2029 || n = 0x202f || n = 0x205f || n = 0x3000

theorem isBlank_of_isWhitespace {c : Char} (h : c.isWhitespace) : isBlank c := by
  simp only [Char.isWhitespace, Bool.or_eq_true, decide_eq_true_eq] at h
  rcases h with ((rfl | rfl) | rfl) | rfl <;> decide

/-- Drops the blanks at both ends. -/
def trim (cs : List Char) : List Char :=
  ((cs.dropWhile isBlank).reverse.dropWhile isBlank).reverse

/-- The runs of characters between blanks. -/
def words (cs : List Char) : List (List Char) :=
  (cs.splitBy fun a b => isBlank a == isBlank b).filter fun w => w.any (!isBlank ·)

/-- Splits at every line feed. -/
def splitLines : List Char → List (List Char)
  | [] => [[]]
  | c :: rest =>
    if c = '\n' then [] :: splitLines rest
    else match splitLines rest with
      | [] => [[c]]
      | line :: more => (c :: line) :: more

/-- A line without the carriage return of its end. -/
def dropReturn (line : List Char) : List Char :=
  if line.getLast? = some '\r' then line.dropLast else line

/-- The lines of a text. A line feed ends a line; the text after the last one is a line unless it
is empty, and keeps a carriage return at its end. -/
def lines (cs : List Char) : List (List Char) :=
  let parts := splitLines cs
  let last := parts.getLast?.getD []
  parts.dropLast.map dropReturn ++ if last = [] then [] else [last]

end VectorScript.Text
