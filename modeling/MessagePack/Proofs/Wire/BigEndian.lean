import Mathlib.Algebra.Group.Int.Defs
import Mathlib.Algebra.Group.Nat.Defs
import Mathlib.Data.List.Induction
import MessagePack.Wire.BigEndian
import MessagePack.Wire.Header
/-!
# Reading big-endian numbers back

Main statements: reading what was written gives the number modulo `256 ^ k`
(`ofBigEndian_bigEndian`), and writing what was read gives the bytes (`bigEndian_ofBigEndian`).
-/

namespace MessagePack

/-- One byte more is one place more. -/
theorem ofBigEndian_append_singleton (r : List UInt8) (b : UInt8) :
    ofBigEndian (r ++ [b]) = ofBigEndian r * 256 + b.toNat := by
  rw [ofBigEndian, List.foldl_append, List.foldl_cons, List.foldl_nil]
  rfl

/-- Digits hold no more than their number says. -/
theorem ofBigEndian_lt (bytes : List UInt8) : ofBigEndian bytes < 256 ^ bytes.length := by
  induction bytes using List.reverseRecOn with
  | nil => decide
  | append_singleton r b ih =>
    have digit := b.toNat_lt
    rw [ofBigEndian_append_singleton, List.length_append, List.length_singleton, Nat.pow_succ]
    omega

/-- Reading what was written gives the number back, modulo what the digits can hold. -/
theorem ofBigEndian_bigEndian (k n : Nat) : ofBigEndian (bigEndian k n) = n % 256 ^ k := by
  induction k generalizing n with
  | zero =>
    rw [Nat.pow_zero, Nat.mod_one]
    rfl
  | succ k ih =>
    have digit : (UInt8.ofNat n).toNat = n % 256 := UInt8.toNat_ofNat'
    have split : n % (256 * 256 ^ k) = n % 256 + 256 * (n / 256 % 256 ^ k) := Nat.mod_mul
    rw [bigEndian, ofBigEndian_append_singleton, ih, digit, Nat.pow_succ', split, Nat.mul_comm,
      Nat.add_comm]

/-- A number that fits is read back. -/
theorem ofBigEndian_bigEndian_of_lt {k n : Nat} (h : n < 256 ^ k) :
    ofBigEndian (bigEndian k n) = n := by
  rw [ofBigEndian_bigEndian, Nat.mod_eq_of_lt h]

/-- Writing what was read gives the bytes back. -/
theorem bigEndian_ofBigEndian (bytes : List UInt8) :
    bigEndian bytes.length (ofBigEndian bytes) = bytes := by
  induction bytes using List.reverseRecOn with
  | nil => rfl
  | append_singleton r b ih =>
    have digit := b.toNat_lt
    have upper : (ofBigEndian r * 256 + b.toNat) / 256 = ofBigEndian r := by omega
    have lower : UInt8.ofNat (ofBigEndian r * 256 + b.toNat) = b := by
      rw [← UInt8.toNat_inj, UInt8.toNat_ofNat']
      omega
    rw [ofBigEndian_append_singleton, List.length_append, List.length_singleton, bigEndian, upper,
      lower, ih]

/-- A width holds as many numbers as its bytes do. -/
theorem Width.span_eq (w : Width) : w.span = 256 ^ w.bytes := by cases w <;> rfl

/-- The widest holds 64 bits. -/
theorem Width.span_le (w : Width) : w.span ≤ 0x10000000000000000 := by cases w <;> decide

/-- A number of a width is below its span. -/
theorem Width.ofBigEndian_lt {w : Width} {body : List UInt8} (width : body.length = w.bytes) :
    ofBigEndian body < w.span := by
  rw [w.span_eq, ← width]
  exact MessagePack.ofBigEndian_lt body

end MessagePack
