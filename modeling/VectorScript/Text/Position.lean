/-!
# Positions in a text

A `Cursor` is a place between two characters: row and column count characters from one, the offset
counts UTF-8 bytes from zero. A `Position` is a cursor with the byte length of what starts there.

    (c.advance (s ++ t)) = (c.advance s).advance t                    (advance_append)
-/

namespace VectorScript

/-- Where a piece of text starts and how many bytes it takes. -/
structure Position where
  row : Nat
  col : Nat
  offset : Nat
  len : Nat
  deriving DecidableEq, Inhabited, Repr

/-- Row and column, as messages show them. -/
def Position.render (p : Position) : String := toString p.row ++ ":" ++ toString p.col

/-- A place between two characters. -/
structure Cursor where
  row : Nat
  col : Nat
  offset : Nat
  deriving DecidableEq, Inhabited, Repr

namespace Cursor

/-- The place before the first character. -/
def start : Cursor := ⟨1, 1, 0⟩

/-- Steps over one character; a line feed starts a new row. -/
def step (c : Cursor) (ch : Char) : Cursor :=
  if ch = '\n' then ⟨c.row + 1, 1, c.offset + 1⟩
  else ⟨c.row, c.col + 1, c.offset + ch.utf8Size⟩

def advance (c : Cursor) (text : List Char) : Cursor := text.foldl step c

/-- The position of a piece of text that starts at this cursor. -/
def position (c : Cursor) (len : Nat) : Position := ⟨c.row, c.col, c.offset, len⟩

theorem advance_append (c : Cursor) (s t : List Char) :
    c.advance (s ++ t) = (c.advance s).advance t := List.foldl_append ..

end Cursor

end VectorScript
