import VectorScript.Decimal.Shortest

/-!
# Reals as text

Reals are binary32 numbers and are written with the fewest digits that read back. `plain` never
uses an exponent and writes whole numbers without a point; `literal` keeps a point in whole numbers
and goes over to an exponent for very large and very small magnitudes.
-/

namespace VectorScript.Decimal

/-- The format's decisions. -/
structure RealFormat where
  /-- What is appended to a whole number. -/
  wholeTail : String
  /-- Which magnitudes are written without an exponent. -/
  positional : Float32 → Bool

/-- Values: always positional, whole numbers without a point. -/
def plain : RealFormat := ⟨"", fun _ => true⟩

/-- Literals in messages: positional from `1e-4` up to but not including `1e16`, and zero. -/
def literal : RealFormat := ⟨".0", fun x => x == 0 || (1e-4 ≤ x && x < 1e16)⟩

def zeros (n : Nat) : String := String.ofList (List.replicate n '0')

/-- Digits with the point where the exponent puts it. -/
def Scaled.positional (d : Scaled) (wholeTail : String) : String :=
  let digits := Nat.toDigits 10 d.significand
  let place := (digits.length : Int) + d.exponent
  if 0 ≤ d.exponent then String.ofList digits ++ zeros d.exponent.toNat ++ wholeTail
  else if place ≤ 0 then "0." ++ zeros (-place).toNat ++ String.ofList digits
  else String.ofList (digits.take place.toNat) ++ "." ++ String.ofList (digits.drop place.toNat)

/-- One digit before the point and an exponent after the others. -/
def Scaled.scientific (d : Scaled) : String :=
  let digits := Nat.toDigits 10 d.significand
  let exponent := (digits.length : Int) + d.exponent - 1
  let tail := digits.drop 1
  String.ofList (digits.take 1) ++ (if tail.isEmpty then "" else "." ++ String.ofList tail) ++ "e"
    ++ toString exponent

/-- The bit of a binary32 number that holds its sign. -/
def signBit : Nat := 2147483648

/-- The bits of the positive infinity; a NaN has more without its sign. -/
def infinityBits : Nat := 255 * Rounding.fractions

/-- The text of a real. Zero keeps its sign, a NaN has none. -/
def RealFormat.render (format : RealFormat) (x : Float32) : String :=
  let bits := x.toBits.toNat
  let magnitude := bits % signBit
  let sign := if signBit ≤ bits then "-" else ""
  if infinityBits < magnitude then "NaN"
  else if magnitude = infinityBits then sign ++ "inf"
  else if magnitude = 0 then sign ++ "0" ++ format.wholeTail
  else
    let digits := (Rounding.ofBits magnitude).shortest
    if format.positional x.abs then sign ++ digits.positional format.wholeTail
    else sign ++ digits.scientific

end VectorScript.Decimal
