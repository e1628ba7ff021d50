import VectorScript.Text.Printable

/-!
# Quoted texts

A quoted text stands between double quotes. The quote and the backslash get a backslash, line feed,
carriage return, tab and NUL their letters, and a character that is not plain its code point in
hexadecimal.
-/

namespace VectorScript.Text

/-- One character inside the quotes. -/
def escape (c : Char) : List Char :=
  if c = '"' then ['\\', '"']
  else if c = '\\' then ['\\', '\\']
  else if c = '\n' then ['\\', 'n']
  else if c = '\r' then ['\\', 'r']
  else if c = '\t' then ['\\', 't']
  else if c = '\x00' then ['\\', '0']
  else if isPlain c then [c]
  else ['\\', 'u', '\x7b'] ++ Nat.toDigits 16 c.toNat ++ ['\x7d']

/-- The text between double quotes. -/
def quoted (s : String) : String := String.ofList ('"' :: s.toList.flatMap escape ++ ['"'])

end VectorScript.Text
