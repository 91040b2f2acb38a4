import MessagePack.Ieee.Format
/-!
# Floats in decimal

A float is written with the fewest digits that read back as the same float, and of those with the
digits nearest to its value.  `shortest` looks for them on one decimal grid after another: a grid
serves when one of the value's two neighbours on it still rounds to the float.  `positional` writes
digits without an exponent.
-/

namespace MessagePack

/-- The numbers that round to a float, counted in quarters of its last place, with the value itself.
The ends belong to the interval when `closed`. -/
structure RoundingInterval where
  low : Nat
  value : Nat
  high : Nat
  closed : Bool
  deriving Repr

namespace RoundingInterval

/-- The neighbour of the value on the grid of multiples of `step`, if one is in the interval; all
is counted in the same unit, `scale` of which make a quarter.  Of two the nearer, of two equally
near the greater. -/
def neighbour? (r : RoundingInterval) (scale step : Nat) : Option Nat :=
  let below := r.value * scale / step
  let above := below + 1
  let lowFits := if r.closed then r.low * scale ≤ below * step else r.low * scale < below * step
  let highFits := if r.closed then above * step ≤ r.high * scale else above * step < r.high * scale
  if lowFits then
    if highFits ∧ above * step - r.value * scale ≤ r.value * scale - below * step then some above
    else some below
  else if highFits then some above
  else none

end RoundingInterval

namespace FloatFormat

variable (f : FloatFormat)

/-- The interval of a positive float.  The gap below a power of two is half the gap above. -/
def interval (m : Nat) (e : Int) : RoundingInterval where
  low := if m = f.fractions ∧ f.leastExponent < e then 4 * m - 1 else 4 * m - 2
  value := 4 * m
  high := 4 * m + 2
  closed := m % 2 == 0

/-- Enough decimal places to reach the first digit of every positive float. -/
def deepestPlace : Nat := 400

/-- The exponent of ten just above `m * 2 ^ e`. -/
def magnitude (m : Nat) (e : Int) : Int :=
  let scaled := m * Nat.pow 2 e.toNat * Nat.pow 10 deepestPlace / Nat.pow 2 (-e).toNat
  ((Nat.toDigits 10 scaled).length : Int) - deepestPlace

/-- The fewest digits that read back as `m * 2 ^ e`, as a whole number and an exponent of ten. -/
def shortest (m : Nat) (e : Int) : Nat × Int :=
  let top := magnitude m e
  let unit := e - 2
  let attempt (digits : Nat) : Option (Nat × Int) :=
    let place := top - digits
    let scale := Nat.pow 2 unit.toNat * Nat.pow 10 (-place).toNat
    let step := Nat.pow 10 place.toNat * Nat.pow 2 (-unit).toNat
    ((f.interval m e).neighbour? scale step).map fun a => (a, place)
  ((List.range 18).findSome? fun k => attempt (k + 1)).getD (0, 0)

end FloatFormat

/-- `digits * 10 ^ place` without an exponent; a fraction ends in a digit other than zero. -/
def positional (digits : Nat) (place : Int) : String :=
  let ds := Nat.toDigits 10 digits
  if 0 ≤ place then String.ofList (ds ++ List.replicate place.toNat '0')
  else
    let places := (-place).toNat
    let padded := List.replicate (places + 1 - ds.length) '0' ++ ds
    let whole := padded.take (padded.length - places)
    let fraction := (padded.drop (padded.length - places)).reverse.dropWhile (· == '0') |>.reverse
    String.ofList (if fraction.isEmpty then whole else whole ++ '.' :: fraction)

/-- The text of a float. -/
def FloatFormat.text (f : FloatFormat) (bits : Nat) : String :=
  match f.classify bits with
  | .nan .. => "NaN"
  | .infinite negative => if negative then "-inf" else "inf"
  | .finite negative m e =>
    let size :=
      if m = 0 then "0"
      else
        let (digits, place) := f.shortest m e
        positional digits place
    if negative then "-" ++ size else size

def Single.text (x : Single) : String := FloatFormat.single.text x.bits.toNat

def Double.text (x : Double) : String := FloatFormat.double.text x.bits.toNat

end MessagePack
