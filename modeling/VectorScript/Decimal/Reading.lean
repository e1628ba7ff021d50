/-!
# Reading decimals

`number?` reads digits with an optional point and an optional exponent and rounds the value to the
nearest binary32 number, ties to even. At least one digit must stand beside the point, and an
exponent needs a digit.
-/

namespace VectorScript.Decimal

def digitValue (c : Char) : Nat := c.toNat - '0'.toNat

/-- The number that a run of digits denotes. -/
def natural (digits : List Char) : Nat := digits.foldl (fun n c => 10 * n + digitValue c) 0

/-- The binary32 number nearest to `significand · 10 ^ exponent`. Beyond the range of the format
the result is known from the place of the first digit alone. -/
def nearest (significand : Nat) (exponent : Int) : Float32 :=
  let place := ((Nat.toDigits 10 significand).length : Int) + exponent
  if significand = 0 ∨ place < -60 then 0
  else if 60 < place then 1 / 0
  else Float32.ofScientific significand (exponent < 0) exponent.natAbs

/-- The exponent after its letter: an optional sign and at least one digit. -/
def exponent? : List Char → Option Int
  | '-' :: digits => (unsigned? digits).map fun n => -(n : Int)
  | '+' :: digits => (unsigned? digits).map fun n => (n : Int)
  | digits => (unsigned? digits).map fun n => (n : Int)
where
  unsigned? (digits : List Char) : Option Nat :=
    if digits ≠ [] ∧ digits.all Char.isDigit then some (natural digits) else none

/-- Reads an unsigned decimal. -/
def number? (text : List Char) : Option Float32 :=
  let whole := text.takeWhile Char.isDigit
  let afterWhole := text.dropWhile Char.isDigit
  let (fraction, afterFraction) := match afterWhole with
    | '.' :: rest => (rest.takeWhile Char.isDigit, rest.dropWhile Char.isDigit)
    | rest => ([], rest)
  if whole = [] ∧ fraction = [] then none
  else
    let value (e : Int) := nearest (natural (whole ++ fraction)) (e - fraction.length)
    match afterFraction with
    | [] => some (value 0)
    | c :: rest => if c = 'e' ∨ c = 'E' then (exponent? rest).map value else none

/-- Reads a decimal, an infinity or a NaN, with an optional sign. -/
def real? (text : List Char) : Option Float32 :=
  let magnitude? (text : List Char) : Option Float32 :=
    match text with
    | ['i', 'n', 'f'] => some (1 / 0)
    | ['N', 'a', 'N'] => some (0 / 0)
    | text => number? text
  match text with
  | '-' :: rest => (magnitude? rest).map fun x => -x
  | '+' :: rest => magnitude? rest
  | text => magnitude? text

end VectorScript.Decimal
