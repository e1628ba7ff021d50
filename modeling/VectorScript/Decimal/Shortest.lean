/-!
# The fewest digits that read back

A binary real is read back from any decimal strictly inside its rounding interval, and from the two
ends when its own significand is even. `Rounding.shortest` looks at the decimal grids from coarse to
fine and takes the first grid that has a point in the interval: of the value's two neighbours there
the nearer, and the upper one of a tie.
-/

namespace VectorScript.Decimal

/-- A decimal: `significand · 10 ^ exponent`. -/
structure Scaled where
  significand : Nat
  exponent : Int
  deriving DecidableEq, Repr

/-- A positive real and the interval of reals that round to it, over one denominator. -/
structure Rounding where
  low : Nat
  value : Nat
  high : Nat
  denominator : Nat
  /-- Whether the ends of the interval round to the value too. -/
  closed : Bool
  deriving Repr

namespace Rounding

/-- How many fractions a binary32 number can have: they take 23 bits. -/
def fractions : Nat := 8388608

/-- The interval of a finite positive binary32 number, from its bits without the sign. The number is
`significand · 2 ^ (exponent - 150)`, half the way to its neighbours rounds to it, and the neighbour
below a power of two is only half as far away. -/
def ofBits (bits : Nat) : Rounding :=
  let fraction := bits % fractions
  let exponent := max (bits / fractions) 1
  let significand := if bits < fractions then fraction else fraction + fractions
  let gap := Nat.pow 2 (exponent - 150)
  let below := if fraction = 0 ∧ 1 < exponent then gap else 2 * gap
  { low := 4 * (significand * gap) - below
    value := 4 * (significand * gap)
    high := 4 * (significand * gap) + 2 * gap
    denominator := 4 * Nat.pow 2 (150 - exponent)
    closed := significand % 2 = 0 }

/-- How many digits the value has before the point; for a value below one, minus the number of
zeros that follow the point. -/
def pointPlace (r : Rounding) : Int :=
  if r.denominator ≤ r.value then ((Nat.toDigits 10 (r.value / r.denominator)).length : Int)
  else
    match (List.range 64).find? fun k => r.denominator ≤ r.value * Nat.pow 10 (k + 1) with
    | some zeros => -(zeros : Int)
    | none => 0

/-- Whether `point / unit` lies in the interval when the interval is scaled by `scale`. -/
def holds (r : Rounding) (scale point : Nat) : Bool :=
  if r.closed then r.low * scale ≤ point ∧ point ≤ r.high * scale
  else r.low * scale < point ∧ point < r.high * scale

/-- The point of the grid of multiples of `10 ^ k` that stands for the value, if the interval has
one next to the value. -/
def onGrid? (r : Rounding) (k : Int) : Option Nat :=
  let scale := Nat.pow 10 (-k).toNat
  let unit := r.denominator * Nat.pow 10 k.toNat
  let floor := r.value * scale / unit
  let left := r.value * scale % unit
  match r.holds scale (floor * unit), r.holds scale ((floor + 1) * unit) with
  | true, true => some (if 2 * left < unit then floor else floor + 1)
  | true, false => some floor
  | false, true => some (floor + 1)
  | false, false => none

/-- The decimal of fewest digits in the interval. Nine digits always suffice. -/
def shortest (r : Rounding) : Scaled :=
  let place := r.pointPlace
  let hit := (List.range 9).findSome? fun (n : Nat) =>
    let k := place - ((n + 1 : Nat) : Int)
    (r.onGrid? k).map fun c => if c % 10 = 0 then Scaled.mk (c / 10) (k + 1) else Scaled.mk c k
  hit.getD ⟨0, 0⟩

end Rounding

end VectorScript.Decimal
