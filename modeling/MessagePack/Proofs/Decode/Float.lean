import Mathlib.Tactic.NormNum
import MessagePack.Proofs.Decode.Integer
import MessagePack.Proofs.Ieee.Rational
/-!
# Floats into whole numbers

A float that is read into an integer type loses its fraction and must then be one of the type's
numbers.  Neither step is rounded: the float counts as the rational number that its bits say, of
either width, and the limits of a type count as they are, though the highest of 64 bits is no float.
So just above a limit and just below it are told apart, and all that lies between -1 and 0 is zero
in types without a sign as well.

Main statement: `Codec.decode_float`.
-/

namespace MessagePack

open Read

/-! ## 1. Casting -/

/-- The numbers of an integer type: from the first bound on, and below the second one. -/
def NumType.bounds? : NumType → Option (ℤ × ℤ)
  | .uint w => some (0, w.span)
  | .int w => some (-(w.span / 2 : ℕ), (w.span / 2 : ℕ))
  | .single | .double => none

/-- A rational number without its fraction, if there is one and the rest lies within bounds. -/
def wholeWithin (low high : ℤ) (value : Option ℚ) : Option ℤ :=
  (value.map towardZero).filter fun n => low ≤ n ∧ n < high

variable {t : NumType} {low high : ℤ}

theorem NumType.holds_iff (integer : t.bounds? = some (low, high)) (n : ℤ) :
    t.holds n = true ↔ low ≤ n ∧ n < high := by
  cases t with
  | uint w =>
    cases integer
    exact Number.holds_uint
  | int w =>
    cases integer
    have even : w.span % 2 = 0 := by cases w <;> rfl
    rw [Number.holds_int]
    omega
  | single | double => cases integer

/-- **A float is cast to its number without the fraction, where that is within the bounds.** -/
theorem Number.narrow?_float (integer : t.bounds? = some (low, high)) (x : Double) :
    (Number.float x).narrow? t = (wholeWithin low high x.rational?).map .whole := by
  have truncates : (Number.float x).narrow? t =
      ((Number.float x).truncate?.filter t.holds).map .whole := by
    cases t with
    | uint w | int w => rfl
    | single | double => cases integer
  have fits : t.holds = fun n => decide (low ≤ n ∧ n < high) :=
    funext fun n => Bool.eq_iff_iff.2 (by rw [NumType.holds_iff integer n, decide_eq_true_eq])
  rw [truncates, fits]
  exact congrArg (fun v => (Option.filter _ v).map Narrowed.whole) x.truncate?_classify

theorem bounds_around_zero (integer : t.bounds? = some (low, high)) : low ≤ 0 ∧ 0 < high := by
  cases t with
  | uint w | int w =>
    cases integer
    cases w <;> decide
  | single | double => cases integer

/-- What lies within the bounds without its fraction is less than one beyond the lower one. -/
theorem isSome_wholeWithin (below : low ≤ 0) (above : 0 < high) (value : Option ℚ) :
    (wholeWithin low high value).isSome = true ↔ ∃ q, value = some q ∧ low - 1 < q ∧ q < high := by
  cases value with
  | none => simp [wholeWithin]
  | some q =>
    have within : (low ≤ towardZero q ∧ towardZero q < high) ↔ (low : ℚ) - 1 < q ∧ q < high := by
      unfold towardZero
      split
      · rename_i positive
        have least : (low : ℚ) ≤ 0 := by exact_mod_cast below
        rw [Int.floor_lt]
        exact and_congr_left fun _ => iff_of_true (below.trans (Int.floor_nonneg.2 positive))
          (by linarith)
      · rename_i negative
        have most : (0 : ℚ) < high := by exact_mod_cast above
        have ceil : ⌈q⌉ ≤ 0 := Int.ceil_le.2 (by push_cast; linarith)
        rw [← Int.sub_one_lt_iff, Int.lt_ceil]
        push_cast
        exact and_congr_right fun _ => iff_of_true (ceil.trans_lt above) (by linarith)
    simp [wholeWithin, within]

/-! ## 2. Whole operations -/

namespace Codec

/-- A number that is read whole into an integer type is cast. -/
theorem decode_number_of_float (c : Codec) (mode : Mode) {input : List UInt8} {x : Double}
    (integer : t.bounds? = some (low, high))
    (takes : (Read.number t.kind).parse.Takes input (.float x)) :
    (c.decode (.number t) input mode).1 =
      match wholeWithin low high x.rational? with
      | some n => .ok (.int n)
      | none => .error (.outOfRange (.number (.float x)) t.kind) := by
  rw [decode_number_of_takes takes, Number.narrow?_float integer]
  cases wholeWithin low high x.rational? <;> rfl

/-- **A float is narrowed exactly.**  It loses its fraction and nothing else, whatever the type.  An
integer type takes it if its number is more than the least number of the type less one and less than
the first number above the type.  It is then that number without its fraction, and else, also where
it is no finite number, it is what was out of range.  This is so of every number that was read, and
of both widths of floats on the wire. -/
theorem decode_float (c : Codec) (mode : Mode) (integer : t.bounds? = some (low, high)) :
    (∀ x : Double, (Number.float x).truncate? = x.rational?.map towardZero) ∧
    (∀ x : Double, ((Number.float x).narrow? t).isSome = true ↔
      ∃ q, x.rational? = some q ∧ low - 1 < q ∧ q < high) ∧
    (∀ (x : Double) (kind : Kind) (cursor : Cursor), narrow t kind (.float x) cursor =
      (match wholeWithin low high x.rational? with
        | some n => .ok (.whole n)
        | none => .error (.outOfRange (.number (.float x)) kind), cursor)) ∧
    (∀ x : Double,
      (c.decode (.number t) (Header.double.toByte :: bigEndian 8 x.bits.toNat) mode).1 =
        match wholeWithin low high x.rational? with
        | some n => .ok (.int n)
        | none => .error (.outOfRange (.number (.float x)) t.kind)) ∧
    ∀ x : Single,
      (c.decode (.number t) (Header.single.toByte :: bigEndian 4 x.bits.toNat) mode).1 =
        match wholeWithin low high x.rational? with
        | some n => .ok (.int n)
        | none => .error (.outOfRange (.number (.float x.widen)) t.kind) := by
  obtain ⟨below, above⟩ := bounds_around_zero integer
  refine ⟨fun x => x.truncate?_classify, fun x => ?_, fun x kind cursor => ?_, fun x => ?_,
    fun x => ?_⟩
  · rw [Number.narrow?_float integer, Option.isSome_map, isSome_wholeWithin below above]
  · unfold narrow
    rw [Number.narrow?_float integer]
    cases wholeWithin low high x.rational? <;> rfl
  · exact decode_number_of_float c mode integer (takes_number _ (Script.spells_double x))
  · have wide := decode_number_of_float c mode integer (takes_number _ (Script.spells_single x))
    rwa [x.rational?_widen] at wide

/-- The last float below 2^64, the first one that is not, and in 32 bits a half below zero. -/
theorem decode_float_limits :
    let c := fresh { records := [] }
    (c.decode (.number (.uint .w64)) [0xcb, 0x43, 0xef, 0xff, 0xff, 0xff, 0xff, 0xff, 0xff]
        .named).1 = .ok (.int 18446744073709549568) ∧
      (c.decode (.number (.uint .w64)) [0xcb, 0x43, 0xf0, 0, 0, 0, 0, 0, 0] .named).1 =
        .error (.outOfRange (.number (.float ⟨0x43f0000000000000⟩)) .uint) ∧
      (c.decode (.number (.uint .w64)) [0xca, 0xbf, 0, 0, 0] .named).1 = .ok (.int 0) := by
  intro c
  obtain ⟨-, -, -, double, single⟩ := decode_float c .named (t := .uint .w64) rfl
  have last : wholeWithin 0 Width.w64.span (Double.rational? ⟨0x43efffffffffffff⟩) =
      some 18446744073709549568 := by
    rw [wholeWithin, ← Double.truncate?_classify]
    decide
  have beyond : wholeWithin 0 Width.w64.span (Double.rational? ⟨0x43f0000000000000⟩) = none := by
    rw [wholeWithin, ← Double.truncate?_classify]
    decide
  have half : wholeWithin 0 Width.w64.span (Single.rational? ⟨0xbf000000⟩) = some 0 := by
    rw [wholeWithin, ← Single.rational?_widen, ← Double.truncate?_classify]
    decide
  have taken := double ⟨0x43efffffffffffff⟩
  have refused := double ⟨0x43f0000000000000⟩
  have zero := single ⟨0xbf000000⟩
  rw [last] at taken
  rw [beyond] at refused
  rw [half] at zero
  exact ⟨taken, refused, zero⟩

end Codec

end MessagePack
