import MessagePack.Proofs.Wire.Number
/-!
# Forms of whole numbers

A whole number stands on the wire in the smallest format that holds it, in any wider one, and from
zero up with a sign or without.  `IntegerForm` lists these forms by the number; whichever it is, the
header spells that number.  There are no others: a header of whole numbers with the bytes that it
asks for is always the form of some number.

Main statements: `IntegerForm.spells` and `integerForm_of_owes`.
-/

namespace MessagePack

/-- A whole number and the bytes of one of its forms. -/
inductive IntegerForm : Int → List UInt8 → Prop
  | posFix (v : Fin 128) : IntegerForm v [(Header.posFix v).toByte]
  | negFix (k : Fin 32) : IntegerForm ((k : Int) - 32) [(Header.negFix k).toByte]
  | uint (w : Width) {n : Nat} (high : n < w.span) :
      IntegerForm n ((Header.uint w).toByte :: bigEndian w.bytes n)
  /-- Below zero, what is missing to the span. -/
  | int (w : Width) {n : Int} (low : -(w.span : Int) ≤ 2 * n) (high : 2 * n < w.span) :
      IntegerForm n ((Header.int w).toByte :: bigEndian w.bytes (n % w.span).toNat)

/-! ## 1. Numbers without a fraction -/

namespace Number

/-- A number is this whole number, of either sign spelling. -/
inductive Whole (n : Int) : Number → Prop
  | uint {u : UInt64} (value : (u.toNat : Int) = n) : Whole n (.uint u)
  | int {i : Int64} (value : i.toInt = n) : Whole n (.int i)

namespace Whole

variable {x : Number} {n : Int}

/-- A whole number is not rounded, -/
theorem truncate? (whole : x.Whole n) : x.truncate? = some n := by
  cases whole with
  | uint value | int value => exact congrArg some value

/-- and its text is its decimals. -/
theorem text (whole : x.Whole n) : x.text = toString n := by
  cases whole with
  | uint value =>
    subst value
    rfl
  | int value => exact congrArg toString value

/-- A type that truncates takes the numbers in its range and no others. -/
theorem narrow? {t : NumType} {Range : Prop} [Decidable Range] (whole : x.Whole n)
    (truncates : x.narrow? t = (x.truncate?.filter t.holds).map .whole)
    (range : t.holds n = true ↔ Range) :
    x.narrow? t = if Range then some (.whole n) else none := by
  rw [truncates, whole.truncate?, Option.filter_some]
  simp only [range]
  split <;> rfl

end Whole

end Number

/-! ## 2. Forms and what they spell -/

variable {n : Int} {u body : List UInt8} {h : Header} {w : Width}

/-- **The header of a form spells its number.** -/
theorem IntegerForm.spells (form : IntegerForm n u) :
    ∃ (h : Header) (body : List UInt8) (x : Number),
      h.toByte :: body = u ∧ h.Spells body x ∧ x.Whole n := by
  cases form with
  | posFix v =>
    have small : (UInt64.ofNat v).toNat = v :=
      UInt64.toNat_ofNat_of_lt' (Nat.lt_trans v.isLt (by decide))
    exact ⟨_, [], _, rfl, .posFix v, .uint (congrArg Int.ofNat small)⟩
  | negFix k =>
    have small := k.isLt
    have value : (Int64.ofInt (Header.negValue k)).toInt = (k : Int) - 32 :=
      Int64.toInt_ofInt_of_le (by unfold Header.negValue; omega) (by unfold Header.negValue; omega)
    exact ⟨_, [], _, rfl, .negFix k, .int value⟩
  | @uint w k high =>
    have value : (UInt64.ofNat k).toNat = k :=
      UInt64.toNat_ofNat_of_lt' (Nat.lt_of_lt_of_le high w.span_le)
    exact ⟨_, _, _, rfl, Script.uint_wide high, .uint (congrArg Int.ofNat value)⟩
  | int w low high =>
    have most := w.span_le
    have value : (Int64.ofInt n).toInt = n :=
      Int64.toInt_ofInt_of_le (by omega) (by omega)
    exact ⟨_, _, _, rfl, Script.emod_spells low high, .int value⟩

/-- The header of such a form is a whole number's. -/
theorem IntegerForm.isInteger {b : UInt8} (form : IntegerForm n (b :: body)) :
    (Header.ofByte b).isInteger = true := by
  cases form with
  | posFix v => exact congrArg Header.isInteger (Header.stands_posFix v)
  | negFix k => exact congrArg Header.isInteger (Header.stands_negFix k)
  | uint w => exact congrArg Header.isInteger (Header.stands_uint w)
  | int w => exact congrArg Header.isInteger (Header.stands_int w)

theorem Header.isContainer_of_isInteger (integer : h.isInteger = true) :
    h.isContainer = false := by
  cases h <;> first | rfl | cases integer

/-- The bytes behind a header that announces a width, as a number without a sign. -/
theorem integerForm_uint (width : body.length = w.bytes) :
    IntegerForm (ofBigEndian body) ((Header.uint w).toByte :: body) := by
  have form := IntegerForm.uint w (Width.ofBigEndian_lt width)
  rwa [← width, bigEndian_ofBigEndian] at form

/-- The same bytes as a number with a sign. -/
theorem integerForm_int (width : body.length = w.bytes) :
    IntegerForm ((ofBigEndian body : Int).bmod w.span) ((Header.int w).toByte :: body) := by
  have high := Width.ofBigEndian_lt width
  have room : 0 < w.span := Nat.zero_lt_of_lt high
  have even : w.span % 2 = 0 := by cases w <;> rfl
  have low := Int.le_bmod (x := (ofBigEndian body : Int)) room
  have most := Int.bmod_lt (x := (ofBigEndian body : Int)) room
  have form := IntegerForm.int w (n := (ofBigEndian body : Int).bmod w.span) (by omega) (by omega)
  rwa [Int.bmod_emod, Int.emod_eq_of_lt (by omega) (by omega), Int.toNat_natCast, ← width,
    bigEndian_ofBigEndian] at form

/-- **A header of whole numbers and the bytes that it asks for are the form of a number.** -/
theorem integerForm_of_owes (integer : h.isInteger = true) (own : h.Owes body 0) :
    ∃ n, IntegerForm n (h.toByte :: body) := by
  cases h with
  | posFix v =>
    obtain ⟨rfl, -⟩ := own
    exact ⟨_, .posFix v⟩
  | negFix k =>
    obtain ⟨rfl, -⟩ := own
    exact ⟨_, .negFix k⟩
  | uint w => exact ⟨_, integerForm_uint own.1⟩
  | int w => exact ⟨_, integerForm_int own.1⟩
  | _ => cases integer

end MessagePack
