import MessagePack.Encode.Script
import MessagePack.Proofs.Wire.Header
/-!
# Numbers on the wire

`Header.Spells` says which number a header spells with the bytes behind it.  A whole number is put
in the smallest format that holds it, and whatever the format, it spells that number again.

Main statements: `Script.uint_spells` and `Script.int_spells`.
-/

namespace MessagePack

/-- The number that a header spells with the bytes behind it. -/
inductive Header.Spells : Header → List UInt8 → Number → Prop
  | posFix (v : Fin 128) : Spells (.posFix v) [] (.uint (UInt64.ofNat v))
  | negFix (k : Fin 32) : Spells (.negFix k) [] (.int (Int64.ofInt (negValue k)))
  | uint {w : Width} {body : List UInt8} (width : body.length = w.bytes) :
      Spells (.uint w) body (.uint (UInt64.ofNat (ofBigEndian body)))
  | int {w : Width} {body : List UInt8} (width : body.length = w.bytes) :
      Spells (.int w) body (.int (Int64.ofInt ((ofBigEndian body : Int).bmod w.span)))
  | single {body : List UInt8} (width : body.length = 4) :
      Spells .single body (.float (Single.mk (UInt32.ofNat (ofBigEndian body))).widen)
  | double {body : List UInt8} (width : body.length = 8) :
      Spells .double body (.float ⟨UInt64.ofNat (ofBigEndian body)⟩)

namespace Header.Spells

variable {h : Header} {body : List UInt8} {n : Number}

/-- A number owes no value. -/
theorem owes (s : h.Spells body n) : h.Owes body 0 := by
  cases s with
  | posFix | negFix => exact ⟨rfl, rfl⟩
  | uint width | int width | single width | double width => exact ⟨width, rfl⟩

/-- It is no container. -/
theorem flat (s : h.Spells body n) : h.isContainer = false := by
  cases s <;> rfl

/-- And its header stands on the wire. -/
theorem stands (s : h.Spells body n) : h.Stands := by
  cases s with
  | posFix v => exact stands_posFix v
  | negFix k => exact stands_negFix k
  | uint => exact stands_uint _
  | int => exact stands_int _
  | single => exact stands_single
  | double => exact stands_double

end Header.Spells

namespace Script

open Header

/-! ## 1. From zero up -/

theorem uint_wide {w : Width} {n : Nat} (lt : n < w.span) :
    (Header.uint w).Spells (bigEndian w.bytes n) (.uint (UInt64.ofNat n)) := by
  rw [w.span_eq] at lt
  have spells := Spells.uint (w := w) (length_bigEndian w.bytes n)
  rwa [ofBigEndian_bigEndian_of_lt lt] at spells

/-- **A number from zero up to 64 bits spells itself.** -/
theorem uint_spells {n : Nat} (lt : n < 2 ^ 64) :
    ∃ (h : Header) (body : List UInt8), (uint n).effect = (h.toByte :: body, .ok ()) ∧
      h.Spells body (.uint (UInt64.ofNat n)) := by
  unfold uint
  split
  · rename_i small
    exact ⟨_, [], rfl, .posFix ⟨n, small⟩⟩
  · split
    · rename_i fits
      exact ⟨_, _, rfl, uint_wide (w := .w8) fits⟩
    · split
      · rename_i fits
        exact ⟨_, _, rfl, uint_wide (w := .w16) fits⟩
      · split
        · rename_i fits
          exact ⟨_, _, rfl, uint_wide (w := .w32) fits⟩
        · exact ⟨_, _, rfl, uint_wide (w := .w64) lt⟩

/-! ## 2. Below zero -/

/-- A number of either sign in as many bytes as hold it. -/
theorem emod_spells {w : Width} {i : Int} (low : -(w.span : Int) ≤ 2 * i) (high : 2 * i < w.span) :
    (Header.int w).Spells (bigEndian w.bytes (i % w.span).toNat) (.int (Int64.ofInt i)) := by
  have spells := Spells.int (w := w) (length_bigEndian w.bytes (i % w.span).toNat)
  have room : 0 < (w.span : Int) := by cases w <;> decide
  have even : (w.span : Int) % 2 = 0 := by cases w <;> rfl
  have above : 0 ≤ i % w.span := Int.emod_nonneg i (by omega)
  have below : i % w.span < w.span := Int.emod_lt_of_pos i room
  have fits : (i % w.span).toNat < 256 ^ w.bytes := by
    rw [← w.span_eq]
    omega
  rw [ofBigEndian_bigEndian_of_lt fits, Int.toNat_of_nonneg above, Int.emod_bmod] at spells
  have back : i.bmod w.span = i := Int.bmod_eq_of_le (by omega) (by omega)
  rwa [back] at spells

/-- **A whole number below zero in 64 bits spells itself.** -/
theorem int_spells {i : Int} (negative : i < 0) (low : -2 ^ 63 ≤ i) :
    ∃ (h : Header) (body : List UInt8), (int i).effect = (h.toByte :: body, .ok ()) ∧
      h.Spells body (.int (Int64.ofInt i)) := by
  unfold int
  rw [if_neg (by omega)]
  split
  · refine ⟨_, [], rfl, ?_⟩
    have spells := Spells.negFix (Fin.ofNat 32 (i + 32).toNat)
    have value : negValue (Fin.ofNat 32 (i + 32).toNat) = i := by
      simp only [negValue, Fin.ofNat]
      omega
    rwa [value] at spells
  · split
    · rename_i fits
      have low : -(Width.w8.span : Int) ≤ 2 * i := by
        change -(0x100 : Int) ≤ 2 * i
        omega
      exact ⟨_, _, rfl, emod_spells low (by omega)⟩
    · split
      · rename_i fits
        have low : -(Width.w16.span : Int) ≤ 2 * i := by
          change -(0x10000 : Int) ≤ 2 * i
          omega
        exact ⟨_, _, rfl, emod_spells low (by omega)⟩
      · split
        · rename_i fits
          have low : -(Width.w32.span : Int) ≤ 2 * i := by
            change -(0x100000000 : Int) ≤ 2 * i
            omega
          exact ⟨_, _, rfl, emod_spells low (by omega)⟩
        · have low : -(Width.w64.span : Int) ≤ 2 * i := by
            change -(0x10000000000000000 : Int) ≤ 2 * i
            omega
          exact ⟨_, _, rfl, emod_spells low (by omega)⟩

/-! ## 3. Floats -/

theorem spells_single (x : Single) :
    Header.single.Spells (bigEndian 4 x.bits.toNat) (.float x.widen) := by
  have spells := Spells.single (length_bigEndian 4 x.bits.toNat)
  rwa [ofBigEndian_bigEndian_of_lt x.bits.toNat_lt, UInt32.ofNat_toNat] at spells

theorem spells_double (x : Double) :
    Header.double.Spells (bigEndian 8 x.bits.toNat) (.float x) := by
  have spells := Spells.double (length_bigEndian 8 x.bits.toNat)
  rwa [ofBigEndian_bigEndian_of_lt x.bits.toNat_lt, UInt64.ofNat_toNat] at spells

theorem single_spells (x : Single) :
    ∃ body, (single x).effect = (Header.single.toByte :: body, .ok ()) ∧
      Header.single.Spells body (.float x.widen) := ⟨_, rfl, spells_single x⟩

theorem double_spells (x : Double) :
    ∃ body, (double x).effect = (Header.double.toByte :: body, .ok ()) ∧
      Header.double.Spells body (.float x) := ⟨_, rfl, spells_double x⟩

end Script

/-! ## 4. Numbers in their types -/

namespace Number

/-- A whole number in the range of a type is read as that. -/
theorem narrow?_whole {n : Number} {t : NumType} {i : Int} (whole : n.truncate? = some i)
    (fits : t.holds i = true) : n.narrow? t = some (.whole i) := by
  cases t with
  | uint w | int w =>
    unfold narrow?
    rw [whole]
    simp only [Option.filter, fits]
    rfl
  | single | double => cases fits

/-- The range of an unsigned type, -/
theorem holds_uint {w : Width} {i : Int} :
    (NumType.uint w).holds i = true ↔ 0 ≤ i ∧ i < w.span := by
  unfold NumType.holds
  rw [Bool.and_eq_true, decide_eq_true_eq, decide_eq_true_eq]

/-- and that of a signed one. -/
theorem holds_int {w : Width} {i : Int} :
    (NumType.int w).holds i = true ↔ -(w.span : Int) ≤ 2 * i ∧ 2 * i < w.span := by
  unfold NumType.holds
  rw [Bool.and_eq_true, decide_eq_true_eq, decide_eq_true_eq]

theorem narrow?_uint (u : UInt64) :
    (Number.uint u).narrow? (.uint .w64) = some (.whole u.toNat) := by
  refine narrow?_whole rfl (holds_uint.2 ⟨by omega, ?_⟩)
  have lt := u.toNat_lt
  show (u.toNat : Int) < (0x10000000000000000 : Nat)
  omega

theorem narrow?_int (i : Int64) : (Number.int i).narrow? (.int .w64) = some (.whole i.toInt) := by
  have low := i.le_toInt
  have high := i.toInt_lt
  refine narrow?_whole rfl (holds_int.2 ?_)
  show -((0x10000000000000000 : Nat) : Int) ≤ 2 * i.toInt ∧
    2 * i.toInt < (0x10000000000000000 : Nat)
  omega

end Number

end MessagePack
