import MessagePack.Proofs.Decode.Language
import MessagePack.Proofs.Wire.Integer
/-!
# Whole numbers into whole numbers

The form of a whole number on the wire says nothing about the types that it can be read into: every
type takes every form of the numbers in its range and of no other.  What is refused is refused with
the number's own text, never brought into range.  A dynamic value keeps the number in 64 bits with a
sign or without, and hands it out as either wherever those types take it.

An input that is read and starts with a header of whole numbers is such a form, so nothing else is
a whole number on the wire (`Codec.integerForm_iff`).

Main statement: `Codec.decode_integer`.
-/

namespace MessagePack

open Read

/-! ## 1. Dynamic values -/

namespace Value

variable {v : Value} {n : Int}

/-- A dynamic value is this whole number, of either sign spelling. -/
inductive Whole (n : Int) : Value → Prop
  | uint {u : UInt64} (value : (u.toNat : Int) = n) : Whole n (.uint u)
  | int {i : Int64} (value : i.toInt = n) : Whole n (.int i)

namespace Whole

/-- It is handed out with a sign where the type of 64 bits with a sign takes it. -/
theorem int64? (whole : v.Whole n) : v.int64?.map (fun i => i.toInt) =
    if -(Width.w64.span : Int) ≤ 2 * n ∧ 2 * n < Width.w64.span then some n else none := by
  have span : (Width.w64.span : Int) = 0x10000000000000000 := rfl
  cases whole with
  | @uint u value =>
    unfold Value.int64?
    dsimp only
    split
    · rename_i small
      rw [if_pos (by omega), Option.map_some, Int64.toInt_ofNat_of_lt small, value]
    · rw [if_neg (by omega), Option.map_none]
  | @int i value =>
    have low := i.le_toInt
    have high := i.toInt_lt
    rw [if_pos (by omega), ← value]
    rfl

/-- It is handed out without a sign where the type of 64 bits without a sign takes it. -/
theorem uint64? (whole : v.Whole n) : v.uint64?.map (fun u => (u.toNat : Int)) =
    if 0 ≤ n ∧ n < Width.w64.span then some n else none := by
  have span : (Width.w64.span : Int) = 0x10000000000000000 := rfl
  cases whole with
  | @uint u value =>
    have lt := u.toNat_lt
    rw [if_pos (by omega), ← value]
    rfl
  | @int i value =>
    have high := i.toInt_lt
    unfold Value.uint64?
    dsimp only
    split
    · rename_i positive
      have fits : i.toInt.toNat < 2 ^ 64 := by omega
      rw [if_pos (by omega), Option.map_some, UInt64.toNat_ofNat_of_lt' fits,
        Int.toNat_of_nonneg positive, value]
    · rw [if_neg (by omega), Option.map_none]

end Whole

end Value

namespace Codec

variable {c : Codec} {mode : Mode} {input : List UInt8} {n : Int}

/-! ## 2. Whole operations -/

/-- A number that is read whole either fits the destination or is what was out of range. -/
theorem decode_number_of_takes {t : NumType} {x : Number}
    (takes : (Read.number t.kind).parse.Takes input x) :
    (c.decode (.number t) input mode).1 =
      match x.narrow? t with
      | some y => .ok (.ofNarrowed y)
      | none => .error (.outOfRange (.number x) t.kind) := by
  obtain ⟨known, run⟩ := takes.run (c := .start input) (List.append_nil _).symm
  have read := parse_eq_some.1 run
  unfold decode decodeInto settle reading
  rw [Datum.read_eq, Datum.readStep]
  simp only [InPlace.replace, run_bind, read]
  unfold narrow
  cases x.narrow? t <;> rfl

/-- A form is read as its number, dynamically too. -/
theorem decodeValue_of_form (form : IntegerForm n input) :
    ∃ v : Value, (c.decodeValue input).1 = .ok v ∧ v.Whole n := by
  obtain ⟨h, body, x, rfl, spells, whole⟩ := form.spells
  cases whole with
  | uint value =>
    refine ⟨_, decodeValue_of_takes ?_, .uint value⟩
    rw [Value.read_eq]
    exact Value.takes_uint spells
  | int value =>
    refine ⟨_, decodeValue_of_takes ?_, .int value⟩
    rw [Value.read_eq]
    exact Value.takes_int spells

/-- A type that takes the numbers of a range refuses all others. -/
theorem decode_number_of_range (c : Codec) (mode : Mode) {t : NumType} {x : Number}
    {Range : Prop} [Decidable Range] (takes : (Read.number t.kind).parse.Takes input x)
    (narrows : x.narrow? t = if Range then some (.whole n) else none) :
    (c.decode (.number t) input mode).1 =
      if Range then .ok (.int n) else .error (.outOfRange (.number x) t.kind) := by
  rw [decode_number_of_takes takes, narrows]
  by_cases fits : Range
  · rw [if_pos fits, if_pos fits]
    rfl
  · rw [if_neg fits, if_neg fits]

/-- The forms are all the inputs that are read and start with a header of whole numbers. -/
theorem integerForm_iff (c : Codec) (input : List UInt8) :
    (∃ n, IntegerForm n input) ↔ ∃ b rest v, input = b :: rest ∧
      (Header.ofByte b).isInteger = true ∧ (c.decodeValue input).1 = .ok v := by
  constructor
  · rintro ⟨n, form⟩
    obtain ⟨v, decoded, -⟩ := decodeValue_of_form (c := c) form
    obtain ⟨h, body, -, rfl, -, -⟩ := form.spells
    exact ⟨h.toByte, body, v, rfl, form.isInteger, decoded⟩
  · rintro ⟨b, rest, v, rfl, integer, decoded⟩
    obtain ⟨w, e, accepted⟩ := decodeValue_ok_iff.1 ⟨v, decoded⟩
    have single : w.header.isContainer = false := by
      obtain ⟨b', body, inside⟩ := w
      obtain ⟨rfl, -⟩ := List.cons.inj e
      exact Header.isContainer_of_isInteger integer
    obtain ⟨b', body, e', -, own⟩ := accepted.formed.here.flat single
    obtain ⟨rfl, rfl⟩ := List.cons.inj (e.symm.trans e')
    have form := integerForm_of_owes integer own
    rwa [Header.toByte_ofByte] at form

/-- A form of a whole number is narrowed exactly. -/
theorem decode_of_form (form : IntegerForm n input) (c : Codec) (mode : Mode) :
    (∃ x : Number, (Quantity.number x).text = toString n ∧
      (∀ w : Width, (c.decode (.number (.uint w)) input mode).1 =
        if 0 ≤ n ∧ n < w.span then .ok (.int n) else .error (.outOfRange (.number x) .uint)) ∧
      ∀ w : Width, (c.decode (.number (.int w)) input mode).1 =
        if -(w.span : Int) ≤ 2 * n ∧ 2 * n < w.span then .ok (.int n)
        else .error (.outOfRange (.number x) .int)) ∧
    ∃ v : Value, (c.decodeValue input).1 = .ok v ∧
      (c.decode (.number (.int .w64)) input mode).1.toOption =
        v.int64?.map (fun i => .int i.toInt) ∧
      (c.decode (.number (.uint .w64)) input mode).1.toOption =
        v.uint64?.map (fun u => .int u.toNat) := by
  obtain ⟨v, decoded, same⟩ := decodeValue_of_form (c := c) form
  obtain ⟨h, body, x, rfl, spells, whole⟩ := form.spells
  have unsigned (w : Width) := decode_number_of_range c mode (t := .uint w)
    (takes_number _ spells) (whole.narrow? rfl Number.holds_uint)
  have signed (w : Width) := decode_number_of_range c mode (t := .int w)
    (takes_number _ spells) (whole.narrow? rfl Number.holds_int)
  refine ⟨⟨x, whole.text, unsigned, signed⟩, v, decoded, ?_, ?_⟩
  · have handed := congrArg (Option.map Datum.int) same.int64?
    rw [Option.map_map] at handed
    rw [signed .w64]
    refine Eq.trans ?_ handed.symm
    split <;> rfl
  · have handed := congrArg (Option.map Datum.int) same.uint64?
    rw [Option.map_map] at handed
    rw [unsigned .w64]
    refine Eq.trans ?_ handed.symm
    split <;> rfl

/-- **Every form of a whole number is narrowed exactly.**  A type takes the number or refuses it
with its text, and a dynamic value hands it out as the types of 64 bits take it.  No other input
that is read starts with a header of whole numbers. -/
theorem decode_integer (c : Codec) (mode : Mode) (input : List UInt8) :
    (∀ n, IntegerForm n input →
      (∃ x : Number, (Quantity.number x).text = toString n ∧
        (∀ w : Width, (c.decode (.number (.uint w)) input mode).1 =
          if 0 ≤ n ∧ n < w.span then .ok (.int n) else .error (.outOfRange (.number x) .uint)) ∧
        ∀ w : Width, (c.decode (.number (.int w)) input mode).1 =
          if -(w.span : Int) ≤ 2 * n ∧ 2 * n < w.span then .ok (.int n)
          else .error (.outOfRange (.number x) .int)) ∧
      ∃ v : Value, (c.decodeValue input).1 = .ok v ∧
        (c.decode (.number (.int .w64)) input mode).1.toOption =
          v.int64?.map (fun i => .int i.toInt) ∧
        (c.decode (.number (.uint .w64)) input mode).1.toOption =
          v.uint64?.map (fun u => .int u.toNat)) ∧
    ((∃ n, IntegerForm n input) ↔ ∃ b rest v, input = b :: rest ∧
      (Header.ofByte b).isInteger = true ∧ (c.decodeValue input).1 = .ok v) :=
  ⟨fun _ form => decode_of_form form c mode, integerForm_iff c input⟩

/-- One below the range of eight bits, in sixteen. -/
theorem decode_integer_below_byte :
    let c := fresh { records := [] }
    let input : List UInt8 := [0xd1, 0xff, 0x7f]
    IntegerForm (-129) input ∧ ∃ x : Number, (Quantity.number x).text = toString (-129 : Int) ∧
      (c.decode (.number (.int .w8)) input .named).1 = .error (.outOfRange (.number x) .int) ∧
      (c.decode (.number (.int .w16)) input .named).1 = .ok (.int (-129)) ∧
      (c.decode (.number (.uint .w64)) input .named).1 =
        .error (.outOfRange (.number x) .uint) := by
  intro c input
  have form : IntegerForm (-129) input := .int .w16 (by decide) (by decide)
  obtain ⟨⟨x, text, unsigned, signed⟩, -⟩ := (decode_integer c .named input).1 _ form
  exact ⟨form, x, text, (signed .w8).trans (if_neg (by decide)),
    (signed .w16).trans (if_pos (by decide)), (unsigned .w64).trans (if_neg (by decide))⟩

end Codec

end MessagePack
