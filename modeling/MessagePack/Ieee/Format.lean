/-!
# Binary floating point by bits

A float is its bit pattern: one sign bit, a biased exponent and a fraction.  `FloatFormat.classify`
says what a pattern denotes, `FloatFormat.round` finds the pattern nearest to a dyadic rational
(ties go to the even neighbour, too large becomes infinite), and `FloatFormat.convert` moves a
pattern between formats.  All of it is exact arithmetic on natural numbers.
-/

namespace MessagePack

/-- The widths of the two fields behind the sign bit. -/
structure FloatFormat where
  exponentBits : Nat
  fractionBits : Nat
  deriving DecidableEq, Repr

/-- What a bit pattern denotes. -/
inductive FloatClass where
  | nan (negative : Bool) (payload : Nat)
  | infinite (negative : Bool)
  /-- The number `significand * 2 ^ exponent`, below zero when `negative`. -/
  | finite (negative : Bool) (significand : Nat) (exponent : Int)
  deriving DecidableEq, Repr

namespace FloatClass

/-- The whole number reached by dropping the fraction; nothing for the rest. -/
def truncate? : FloatClass → Option Int
  | .finite negative m e =>
    let size : Nat := if 0 ≤ e then m * Nat.pow 2 e.toNat else m / Nat.pow 2 (-e).toNat
    some (if negative then -(size : Int) else size)
  | _ => none

/-- The zeros, of either sign. -/
def isZero : FloatClass → Bool
  | .finite _ m _ => m == 0
  | _ => false

def isNan : FloatClass → Bool
  | .nan .. => true
  | _ => false

end FloatClass

namespace FloatFormat

/-- Thirty-two bits. -/
def single : FloatFormat := ⟨8, 23⟩

/-- Sixty-four bits. -/
def double : FloatFormat := ⟨11, 52⟩

variable (f : FloatFormat)

/-- How many fractions there are. -/
def fractions : Nat := Nat.pow 2 f.fractionBits

/-- How many exponents can be stored. -/
def exponents : Nat := Nat.pow 2 f.exponentBits

/-- What is added to an exponent before it is stored. -/
def bias : Nat := f.exponents / 2 - 1

/-- The exponent of the last place of the smallest numbers. -/
def leastExponent : Int := 1 - (f.bias : Int) - f.fractionBits

/-- The pattern of positive infinity. -/
def infinity : Nat := (f.exponents - 1) * f.fractions

/-- The sign bit, set or not. -/
def sign (negative : Bool) : Nat := if negative then f.exponents * f.fractions else 0

/-- What a pattern denotes. -/
def classify (bits : Nat) : FloatClass :=
  let fraction := bits % f.fractions
  let stored := bits / f.fractions % f.exponents
  let negative := bits / f.fractions / f.exponents % 2 == 1
  if stored = f.exponents - 1 then
    if fraction = 0 then .infinite negative else .nan negative fraction
  else if stored = 0 then .finite negative fraction f.leastExponent
  else .finite negative (f.fractions + fraction) (f.leastExponent + (stored - 1 : Nat))

/-- `m / 2 ^ s` to the nearest whole number, a tie to the even one. -/
def roundShift (m s : Nat) : Nat :=
  let unit := Nat.pow 2 s
  let q := m / unit
  let r := m % unit
  if unit < 2 * r ∨ (unit = 2 * r ∧ q % 2 = 1) then q + 1 else q

/-- The pattern nearest to `m * 2 ^ e`: so many steps of the exponent above the least one, and so
many units of the last place on top. -/
def round (negative : Bool) (m : Nat) (e : Int) : Nat :=
  if m = 0 then f.sign negative
  else
    let last := max (e + Nat.log2 m - f.fractionBits) f.leastExponent
    let steps := (last - f.leastExponent).toNat
    let count := if last ≤ e then m * Nat.pow 2 (e - last).toNat else roundShift m (last - e).toNat
    f.sign negative + min (steps * f.fractions + count) f.infinity

/-- The pattern of another format's pattern.  A payload keeps its top bits and becomes quiet. -/
def convert (source : FloatFormat) (bits : Nat) : Nat :=
  match source.classify bits with
  | .nan negative payload =>
    let moved := payload * f.fractions / source.fractions
    let quiet := f.fractions / 2
    f.sign negative + f.infinity + (moved % quiet + quiet)
  | .infinite negative => f.sign negative + f.infinity
  | .finite negative m e => f.round negative m e

end FloatFormat

/-- A thirty-two bit float. -/
structure Single where
  bits : UInt32
  deriving DecidableEq, Repr, Inhabited

/-- A sixty-four bit float. -/
structure Double where
  bits : UInt64
  deriving DecidableEq, Repr, Inhabited

namespace Single

def classify (x : Single) : FloatClass := FloatFormat.single.classify x.bits.toNat

/-- The float nearest to a whole number. -/
def ofInt (i : Int) : Single :=
  ⟨UInt32.ofNat (FloatFormat.single.round (decide (i < 0)) i.natAbs 0)⟩

/-- The same number in sixty-four bits. -/
def widen (x : Single) : Double :=
  ⟨UInt64.ofNat (FloatFormat.double.convert .single x.bits.toNat)⟩

/-- Equality of numbers: the zeros are equal, and nothing equals a pattern that is no number. -/
def numEq (x y : Single) : Bool :=
  !x.classify.isNan && !y.classify.isNan &&
    (x == y || (x.classify.isZero && y.classify.isZero))

end Single

namespace Double

def classify (x : Double) : FloatClass := FloatFormat.double.classify x.bits.toNat

/-- The float nearest to a whole number. -/
def ofInt (i : Int) : Double :=
  ⟨UInt64.ofNat (FloatFormat.double.round (decide (i < 0)) i.natAbs 0)⟩

/-- The nearest number in thirty-two bits. -/
def narrow (x : Double) : Single :=
  ⟨UInt32.ofNat (FloatFormat.single.convert .double x.bits.toNat)⟩

/-- Equality of numbers: the zeros are equal, and nothing equals a pattern that is no number. -/
def numEq (x y : Double) : Bool :=
  !x.classify.isNan && !y.classify.isNan &&
    (x == y || (x.classify.isZero && y.classify.isZero))

end Double

end MessagePack
