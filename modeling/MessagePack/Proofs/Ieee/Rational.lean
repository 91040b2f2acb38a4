import Mathlib.Algebra.Order.Field.Power
import Mathlib.Data.Rat.Floor
import Mathlib.Tactic.FieldSimp
import Mathlib.Tactic.Positivity
import MessagePack.Proofs.Ieee.Widen
/-!
# Floats as rational numbers

`FloatFormat.rational?` is the number of a bit pattern by its three fields, a power of two times a
significand between one and two, or below one where the stored exponent is the least.  It says
nothing of whole numbers and of shifts.  What a pattern denotes for the library is that number,
widening keeps it, and dropping the fraction of a float is dropping the fraction of that number.

Main statements: `Single.rational?_widen` and `Double.truncate?_classify`.
-/

namespace MessagePack

/-! ## 1. The number of a pattern -/

/-- The number of a pattern: its sign, its stored exponent and its fraction.  Where the stored
exponent is the greatest, there is none. -/
def FloatFormat.rational? (f : FloatFormat) (bits : ℕ) : Option ℚ :=
  let fraction : ℚ := (bits % 2 ^ f.fractionBits : ℕ) / 2 ^ f.fractionBits
  let stored : ℕ := bits / 2 ^ f.fractionBits % 2 ^ f.exponentBits
  let sign : ℚ := if bits / 2 ^ f.fractionBits / 2 ^ f.exponentBits % 2 = 1 then -1 else 1
  let bias : ℤ := 2 ^ (f.exponentBits - 1) - 1
  if stored = 2 ^ f.exponentBits - 1 then none
  else if stored = 0 then some (sign * fraction * 2 ^ (1 - bias))
  else some (sign * (1 + fraction) * 2 ^ (stored - bias))

def Single.rational? (x : Single) : Option ℚ := FloatFormat.single.rational? x.bits.toNat

def Double.rational? (x : Double) : Option ℚ := FloatFormat.double.rational? x.bits.toNat

/-- A rational number without its fraction. -/
def towardZero (q : ℚ) : ℤ := if 0 ≤ q then ⌊q⌋ else ⌈q⌉

namespace FloatClass

/-- The number of a significand and an exponent. -/
def rational? : FloatClass → Option ℚ
  | .finite negative m e => some ((if negative then -1 else 1) * (m * 2 ^ e))
  | _ => none

end FloatClass

namespace FloatFormat

/-- **What a pattern denotes is its number.** -/
theorem rational?_classify (f : FloatFormat) (wide : 1 ≤ f.exponentBits) (bits : ℕ) :
    (f.classify bits).rational? = f.rational? bits := by
  have two : (2 : ℚ) ≠ 0 := by norm_num
  have fractions : f.fractions = 2 ^ f.fractionBits := rfl
  have exponents : f.exponents = 2 ^ f.exponentBits := rfl
  obtain ⟨k, width⟩ : ∃ k, f.exponentBits = k + 1 := ⟨f.exponentBits - 1, by omega⟩
  have half : f.bias = 2 ^ k - 1 := by
    rw [bias, exponents, width, Nat.pow_succ, Nat.mul_div_cancel _ (by decide)]
  have some' : 1 ≤ 2 ^ k := Nat.one_le_two_pow
  have least : f.leastExponent = 1 - ((2 : ℤ) ^ k - 1) - f.fractionBits := by
    rw [leastExponent, half]
    push_cast [some']
    ring
  unfold rational? classify
  simp only [fractions, exponents]
  split
  · split <;> rfl
  · split
    · simp only [FloatClass.rational?, beq_iff_eq, width, Nat.add_sub_cancel, least, zpow_sub₀ two,
        zpow_natCast]
      congr 1
      field_simp
    · rename_i nonzero
      obtain ⟨j, stored⟩ : ∃ j, bits / 2 ^ f.fractionBits % 2 ^ f.exponentBits = j + 1 :=
        ⟨_, (Nat.succ_pred nonzero).symm⟩
      have shifted : (1 - ((2 : ℤ) ^ k - 1) - f.fractionBits) + (j : ℤ) =
          ((j + 1 : ℕ) : ℤ) - (2 ^ k - 1) - f.fractionBits := by
        push_cast
        ring
      simp only [FloatClass.rational?, beq_iff_eq, stored, least, Nat.add_sub_cancel, shifted]
      simp only [width, Nat.add_sub_cancel, zpow_sub₀ two _ (f.fractionBits : ℤ), zpow_natCast]
      push_cast
      congr 1
      field_simp

end FloatFormat

/-! ## 2. Dropping the fraction -/

theorem towardZero_of_nonneg {q : ℚ} (positive : 0 ≤ q) : towardZero q = ⌊q⌋ := if_pos positive

/-- Dropping the fraction does not look at the sign. -/
theorem towardZero_neg (q : ℚ) : towardZero (-q) = -towardZero q := by
  unfold towardZero
  rcases lt_trichotomy q 0 with negative | rfl | positive
  · rw [if_pos (by linarith), if_neg (by linarith), Int.floor_neg]
  · simp
  · rw [if_neg (by linarith), if_pos positive.le, Int.ceil_neg]

/-- Up from zero it is the quotient by a power of two, or the product. -/
theorem towardZero_mul_zpow (m : ℕ) (e : ℤ) : towardZero (m * 2 ^ e) =
    (if 0 ≤ e then m * Nat.pow 2 e.toNat else m / Nat.pow 2 (-e).toNat : ℕ) := by
  have power (k : ℕ) : Nat.pow 2 k = 2 ^ k := rfl
  rw [towardZero_of_nonneg (by positivity)]
  split
  · rename_i up
    obtain ⟨k, rfl⟩ := Int.eq_ofNat_of_zero_le up
    have whole : (m : ℚ) * 2 ^ (k : ℤ) = ((m * 2 ^ k : ℕ) : ℤ) := by
      rw [zpow_natCast]
      push_cast
      rfl
    rw [whole, Int.floor_intCast]
    rfl
  · rename_i down
    obtain ⟨k, rfl⟩ : ∃ k : ℕ, e = -k := ⟨(-e).toNat, by omega⟩
    have quotient : (m : ℚ) * 2 ^ (-(k : ℤ)) = (m : ℚ) / ((2 ^ k : ℕ) : ℚ) := by
      rw [zpow_neg, zpow_natCast, div_eq_mul_inv]
      push_cast
      rfl
    rw [quotient, neg_neg, Int.toNat_natCast, power]
    exact Rat.floor_natCast_div_natCast m (2 ^ k)

/-- **Dropping the fraction of what a pattern denotes is dropping that of its number.** -/
theorem FloatClass.truncate?_eq (c : FloatClass) : c.truncate? = c.rational?.map towardZero := by
  cases c with
  | nan | infinite => rfl
  | finite negative m e =>
    cases negative
    · simp [truncate?, rational?, towardZero_mul_zpow]
    · simp [truncate?, rational?, towardZero_mul_zpow, towardZero_neg]

namespace Double

variable {x : Double}

theorem rational?_classify (x : Double) : x.classify.rational? = x.rational? :=
  FloatFormat.rational?_classify .double (by decide) _

theorem truncate?_classify (x : Double) : x.classify.truncate? = x.rational?.map towardZero := by
  rw [FloatClass.truncate?_eq, rational?_classify]

end Double

/-! ## 3. Widening -/

namespace Single

open FloatFormat

theorem rational?_classify (x : Single) : x.classify.rational? = x.rational? :=
  FloatFormat.rational?_classify .single (by decide) _

/-- The long pattern of a short one's significand and exponent has the same number. -/
theorem rational?_round {m : ℕ} {e : ℤ} (negative : Bool) (small : m < 2 ^ 24) (low : -149 ≤ e)
    (high : e ≤ 104) : (double.classify (double.round negative m e)).rational? =
      (FloatClass.finite negative m e).rational? := by
  by_cases pos : m = 0
  · subst pos
    have zero : double.round negative 0 e = double.sign negative := if_pos rfl
    rw [zero]
    have field := classify_double negative (by decide : 0 < 2 ^ 11) (by decide : 0 < 2 ^ 52)
    rw [Nat.zero_mul, Nat.add_zero, Nat.add_zero, if_neg (by decide), if_pos rfl] at field
    rw [field]
    simp [FloatClass.rational?]
  · obtain ⟨stored, fraction, nonzero, finite, lt, pattern, significand, exponent⟩ :=
      round_double negative pos small low high
    have bits : m.log2 ≤ 23 := by
      have := (Nat.log2_lt pos).2 small
      omega
    rw [pattern, classify_double negative (by omega) lt, if_neg (by omega), if_neg (by omega),
      significand, exponent]
    have moved : ((m * 2 ^ (52 - m.log2) : ℕ) : ℚ) * 2 ^ (e + m.log2 - 52) = m * 2 ^ e := by
      have steps : e = ((52 - m.log2 : ℕ) : ℤ) + (e + m.log2 - 52) := by omega
      conv_rhs => rw [steps, zpow_add₀ (by norm_num), zpow_natCast]
      push_cast
      ring
    simp only [FloatClass.rational?, moved]

/-- **Widening keeps the number.** -/
theorem rational?_widen (x : Single) : x.widen.rational? = x.rational? := by
  rw [← Double.rational?_classify, ← rational?_classify, Double.classify, classify, widen_bits]
  obtain ⟨negative, stored, fraction, hs, hf, fields⟩ := single_fields x.bits.toNat_lt
  have short := classify_single negative hs hf
  rw [← fields] at short
  split at short
  · split at short
    · have endless : double.convert single x.bits.toNat =
          double.sign negative + (2047 * 2 ^ 52 + 0) := by
        rw [convert.eq_def, short]
        rfl
      rw [endless, classify_double negative (by decide) (by decide), if_pos rfl, if_pos rfl, short]
    · rw [convert_nan (by decide) short, short]
      rfl
  · split at short
    · rw [convert.eq_def, short]
      exact rational?_round negative (by omega) (by omega) (by omega)
    · rw [convert.eq_def, short]
      exact rational?_round negative (by omega) (by omega) (by omega)

end Single

end MessagePack
