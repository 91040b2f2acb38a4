import MessagePack.Codec
import MessagePack.Proofs.Decode.Shape
/-!
# Destinations that are replaced

A record keeps the fields that the input does not name, a tuple and a timestamp are left as they are
by nil.  All other data are read as if the destination had been empty: nothing of what stood there
before is seen in how the reading goes, and nothing of it is left when the reading succeeds.

This speaks of two runs that differ in their destination alone.  `Decoded.Agree` says that they
cannot be told apart except by what a failed one leaves; it is carried through the two ways in which
runs go on.  The elements of a list, of an array and of a map need nothing: each is read into a zero
of its type, in both runs the same.

Main statement: `Codec.decodeInto_replaces`.
-/

namespace MessagePack

/-! ## 1. Runs that agree -/

namespace Decoded

/-- Two runs end alike and leave the same input, and if they succeed they leave the same. -/
structure Agree (r r' : Decoded) : Prop where
  outcome : r.outcome = r'.outcome
  cursor : r.cursor = r'.cursor
  dest : r.outcome = .ok () → r.dest = r'.dest

variable {α : Type} {c : Cursor}

theorem Agree.refl (r : Decoded) : Agree r r := ⟨rfl, rfl, fun _ => rfl⟩

/-- What a failed run leaves is its own affair. -/
theorem agree_fault (f : Fault) (d d' : Datum) :
    Agree (ended (.error f) d c) (ended (.error f) d' c) := ⟨rfl, rfl, nofun⟩

theorem agree_afterRead {r : Read α} {left left' : Datum} {next next' : α → Cursor → Decoded}
    (each : ∀ a c, Agree (next a c) (next' a c)) :
    Agree (afterRead r left next c) (afterRead r left' next' c) := by
  unfold afterRead
  rcases r c with ⟨f | a, c'⟩
  · exact agree_fault f left left'
  · exact each a c'

theorem agree_afterRun {first first' : Cursor → Decoded} {left left' : Datum → Datum}
    {next next' : Datum → Cursor → Decoded} (before : Agree (first c) (first' c))
    (each : ∀ x c, Agree (next x c) (next' x c)) :
    Agree (afterRun first left next c) (afterRun first' left' next' c) := by
  obtain ⟨outcome, cursor, dest⟩ := before
  unfold afterRun
  generalize first c = r at outcome cursor dest
  generalize first' c = r' at outcome cursor dest
  obtain ⟨o, x, last⟩ := r
  obtain ⟨o', x', last'⟩ := r'
  obtain rfl : o = o' := outcome
  obtain rfl : last = last' := cursor
  cases o with
  | error f => exact agree_fault f _ _
  | ok u =>
    obtain rfl : x = x' := dest rfl
    exact each x last

end Decoded

/-! ## 2. Types whose data are replaced -/

/-- Data of the type are replaced as a whole.  What the elements of a list, of an array or of a map
are does not matter. -/
def Ty.overwrites : Ty → Bool
  | .bool | .number _ | .text | .bytes | .dynamic => true
  | .list _ | .array _ _ | .map _ _ _ => true
  | .option t | .box t => t.overwrites
  | .timestamp | .clockTime | .tuple _ | .record _ => false

namespace InPlace

open Decoded

variable {zero d d' : Datum} {c : Cursor}

theorem agree_replace (r : Read Datum) : Agree (replace r d c) (replace r d' c) := by
  rw [replace_eq, replace_eq]
  exact agree_afterRead fun _ _ => .refl _

theorem agree_sequence (deeper : Option (Ty → InPlace)) (t : Ty) :
    Agree (sequence deeper t zero d c) (sequence deeper t zero d' c) := by
  rw [sequence_eq, sequence_eq]
  split
  · rw [byteList_eq, byteList_eq]
    refine agree_afterRead fun bh c => ?_
    split
    · exact .refl _
    · exact .refl _
  · exact .refl _

theorem agree_array (deeper : Option (Ty → InPlace)) (n : Nat) (t : Ty) :
    Agree (array deeper n t zero d c) (array deeper n t zero d' c) := by
  rw [array_eq, array_eq]
  refine agree_afterRead fun nil c => ?_
  split
  · exact .refl _
  · refine agree_afterRun (.refl _) fun read c => ?_
    split
    · exact .refl _
    · exact agree_fault _ _ _

end InPlace

namespace Datum

open InPlace Decoded

variable {cx : Context} {n : Nat}

/-- **Reading into a destination that is replaced does not look at it.** -/
theorem agree_read : ∀ {t : Ty}, t.overwrites = true → ∀ (d d' : Datum) (c : Cursor),
    Agree (read cx n t d c) (read cx n t d' c)
  | .bool, _, d, d', c | .number _, _, d, d', c | .text, _, d, d', c | .bytes, _, d, d', c
  | .dynamic, _, d, d', c => by
    rw [read_eq]
    exact agree_replace _
  | .list t, _, d, d', c => by
    rw [read_eq]
    exact agree_sequence _ t
  | .array length t, _, d, d', c => by
    rw [read_eq]
    exact agree_array _ length t
  | .map .., _, d, d', c => by
    rw [read_eq]
    exact .refl _
  | .option t, overwrites, d, d', c => by
    rw [read_option, read_option]
    refine agree_afterRead fun nil c => ?_
    split
    · exact .refl _
    · exact agree_afterRun (agree_read (t := t) overwrites _ _ c) fun _ _ => .refl _
  | .box t, overwrites, d, d', c => by
    rw [read_box]
    exact agree_read (t := t) overwrites d d' c

end Datum

/-! ## 3. Codecs -/

namespace Codec

/-- **Scalars and collections are fully replaced.**  Whatever the two destinations held before,
reading the same input ends the same for both, with the same fault if it fails, and leaves the codec
the same; and if it succeeds both hold the same. -/
theorem decodeInto_replaces (c : Codec) (mode : Mode) {t : Ty} (overwrites : t.overwrites = true)
    (input : List UInt8) (d d' : Datum) :
    let (outcome, left, codec) := c.decodeInto t d input mode
    let (outcome', left', codec') := c.decodeInto t d' input mode
    outcome = outcome' ∧ codec = codec' ∧ (outcome = .ok () → left = left') := by
  have agree : Decoded.Agree (d.read (c.context mode) maxDepth t (.start input))
      (d'.read (c.context mode) maxDepth t (.start input)) := Datum.agree_read overwrites d d' _
  simp only [decodeInto, settle, reading]
  rw [← agree.outcome, ← agree.cursor]
  refine ⟨rfl, rfl, fun accepted => agree.dest ?_⟩
  cases ended : (Datum.read (c.context mode) maxDepth t d (.start input)).outcome with
  | ok u => rfl
  | error f =>
    rw [ended] at accepted
    cases accepted

/-- Nil leaves a pair as it is, but a list of pairs is read from one nil as one pair of zeros, and
not as the pair that stood there. -/
theorem decodeInto_replaces_pairs :
    let c := fresh ⟨[], rfl, rfl⟩
    let pairs : Ty := .list (.tuple [.bool, .bool])
    let old : Datum := .seq [.seq [.bool true, .bool true]]
    pairs.overwrites = true ∧
      (c.decodeInto pairs old [0x91, 0xc0] .named).1 = .ok () ∧
      (c.decodeInto pairs old [0x91, 0xc0] .named).2.1 =
        (c.decodeInto pairs (.seq []) [0x91, 0xc0] .named).2.1 ∧
      (c.decodeInto pairs (.seq []) [0x91, 0xc0] .named).2.1 =
        .seq [.seq [.bool false, .bool false]] := by
  intro c pairs old
  have overwrites : pairs.overwrites = true := rfl
  have accepted : (c.decodeInto pairs old [0x91, 0xc0] .named).1 = .ok () := rfl
  have read : (c.decodeInto pairs (.seq []) [0x91, 0xc0] .named).2.1 =
      .seq [.seq [.bool false, .bool false]] := rfl
  have replaced := c.decodeInto_replaces .named overwrites [0x91, 0xc0] old (.seq [])
  exact ⟨overwrites, accepted, replaced.2.2 accepted, read⟩

end Codec

end MessagePack
