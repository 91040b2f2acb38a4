import MessagePack.Proofs.Wire.BigEndian
import MessagePack.Wire.Length
/-!
# Headers that stand on the wire

A header stands on the wire when its byte is read back as that header.  The headers that a length or
a number is announced by all do, and the length that such a header announces is the one that was
written.

`Header.Owes` says, without any reader, what belongs to a header: the bytes behind it and how many
values it owes after them.  Main statement: `Header.Owes.unique`, the bytes settle both.
-/

namespace MessagePack

namespace Header

/-! ## 1. Bytes read back

Not every header stands: one may be of a width that its family does not know, and then its byte is
that of another.  Whoever writes a header has to know that it is read back.  Whoever reads one
starts from a byte and knows it anyway (`Header.stands_ofByte`). -/

/-- The header's byte is read back as the header. -/
def Stands (h : Header) : Prop := ofByte h.toByte = h

instance (h : Header) : Decidable h.Stands := inferInstanceAs (Decidable (ofByte h.toByte = h))

/-- The headers that carry a small number, each of them tried. -/
theorem stands_carrying :
    (∀ v, (posFix v).Stands) ∧ (∀ k, (negFix k).Stands) ∧ (∀ n, (fixText n).Stands) ∧
      (∀ n, (fixArray n).Stands) ∧ (∀ n, (fixMap n).Stands) ∧ ∀ p, (fixExt p).Stands := by
  decide +kernel

/-- A small number from zero up stands for itself. -/
theorem stands_posFix (v : Fin 128) : (posFix v).Stands := stands_carrying.1 v

/-- So does a small one below zero, -/
theorem stands_negFix (k : Fin 32) : (negFix k).Stands := stands_carrying.2.1 k

/-- the length of a short text, -/
theorem stands_fixText (n : Fin 32) : (fixText n).Stands := stands_carrying.2.2.1 n

/-- of a short array, -/
theorem stands_fixArray (n : Fin 16) : (fixArray n).Stands := stands_carrying.2.2.2.1 n

/-- of a short map, -/
theorem stands_fixMap (n : Fin 16) : (fixMap n).Stands := stands_carrying.2.2.2.2.1 n

/-- and each of the five lengths of short extensions. -/
theorem stands_fixExt (p : Fin 5) : (fixExt p).Stands := stands_carrying.2.2.2.2.2 p

/-- Nil has a byte. -/
theorem stands_nil : nil.Stands := rfl

/-- Each truth value has one. -/
theorem stands_bool (b : Bool) : (bool b).Stands := by
  cases b
  · exact rfl
  · exact rfl

/-- Numbers without a sign have one for each width, -/
theorem stands_uint (w : Width) : (uint w).Stands := by cases w <;> exact rfl

/-- and those with a sign. -/
theorem stands_int (w : Width) : (int w).Stands := by cases w <;> exact rfl

theorem stands_single : single.Stands := rfl

theorem stands_double : double.Stands := rfl

/-- Only nil has the byte of nil. -/
theorem Stands.toByte_ne_nil {h : Header} (stands : h.Stands) (other : h ≠ .nil) :
    h.toByte ≠ Header.nil.toByte := by
  intro same
  refine other ?_
  rw [← stands, same]
  exact stands_nil

/-- **Whatever a byte is read as stands on the wire as that byte.** -/
theorem stands_ofByte (b : UInt8) : (ofByte b).Stands := by
  rw [Stands, toByte_ofByte]

end Header

/-! ## 2. Announced lengths

A length is announced by the first of its family's headers that holds it: one that carries the
length itself, or else a wide one with the length behind it.  All of them stand on the wire. -/

namespace Family

/-- A wide header stands if its width is one of the family's. -/
theorem stands_wide {f : Family} {w : Width} (h : w ∈ f.widths) : (f.wide w).Stands := by
  -- texts, bytes and extensions know eight bits, arrays and maps do not
  cases f <;> cases w <;> first | exact rfl | simp [widths] at h

/-- A text's header carries lengths below 32, -/
theorem fix?_text {n : Nat} {h : Header} (e : Family.text.fix? n = some h) :
    ∃ lt, h = .fixText ⟨n, lt⟩ := by
  simp only [fix?, Option.dite_none_right_eq_some] at e
  obtain ⟨lt, e⟩ := e
  exact ⟨lt, (Option.some.inj e).symm⟩

/-- an array's lengths below 16, -/
theorem fix?_array {n : Nat} {h : Header} (e : Family.array.fix? n = some h) :
    ∃ lt, h = .fixArray ⟨n, lt⟩ := by
  simp only [fix?, Option.dite_none_right_eq_some] at e
  obtain ⟨lt, e⟩ := e
  exact ⟨lt, (Option.some.inj e).symm⟩

/-- and so does a map's. -/
theorem fix?_map {n : Nat} {h : Header} (e : Family.map.fix? n = some h) :
    ∃ lt, h = .fixMap ⟨n, lt⟩ := by
  simp only [fix?, Option.dite_none_right_eq_some] at e
  obtain ⟨lt, e⟩ := e
  exact ⟨lt, (Option.some.inj e).symm⟩

/-- An extension's carries the lengths that have a header of their own, and no others. -/
theorem fix?_ext {n : Nat} {h : Header} (e : Family.ext.fix? n = some h) :
    ∃ p, h = .fixExt p ∧ Header.extLength p = n := by
  simp only [fix?, Header.fixExt?] at e
  split at e
  all_goals first
    | exact ⟨_, (Option.some.inj e).symm, rfl⟩
    | cases e

/-- A header that carries its length stands on the wire. -/
theorem stands_fix {f : Family} {n : Nat} {h : Header} (e : f.fix? n = some h) : h.Stands := by
  cases f with
  | text =>
    obtain ⟨_, rfl⟩ := fix?_text e
    exact Header.stands_fixText _
  | bin => cases e
  | array =>
    obtain ⟨_, rfl⟩ := fix?_array e
    exact Header.stands_fixArray _
  | map =>
    obtain ⟨_, rfl⟩ := fix?_map e
    exact Header.stands_fixMap _
  | ext =>
    obtain ⟨p, rfl, -⟩ := fix?_ext e
    exact Header.stands_fixExt p

/-- A length is announced by a header that carries it, or by a wide one that it follows. -/
theorem header?_cases {f : Family} {n : Nat} {h : Header} {body : List UInt8}
    (e : f.header? n = some (h, body)) :
    (f.fix? n = some h ∧ body = []) ∨
      ∃ w ∈ f.widths, h = f.wide w ∧ body = bigEndian w.bytes n ∧ n < 256 ^ w.bytes := by
  unfold header? at e
  split at e
  · rename_i g found
    cases e
    exact .inl ⟨found, rfl⟩
  · obtain ⟨w, found, made⟩ := Option.map_eq_some_iff.1 e
    cases made
    have fits : n < w.span := by simpa using List.find?_some found
    rw [w.span_eq] at fits
    exact .inr ⟨w, List.mem_of_find?_eq_some found, rfl, rfl, fits⟩

/-- **Whatever announces a length stands on the wire.** -/
theorem stands_header? {f : Family} {n : Nat} {h : Header} {body : List UInt8}
    (e : f.header? n = some (h, body)) : h.Stands := by
  rcases header?_cases e with ⟨fixed, -⟩ | ⟨w, assigned, rfl, -⟩
  · exact stands_fix fixed
  · exact stands_wide assigned

end Family

/-! ## 3. What a header owes

Without looking at any reader, a header says what it takes to complete it: how many bytes of its
own, and, if it is that of an array or a map, how many values behind them.  An extension's bytes
include its tag.  The header that is assigned to nothing cannot be completed. -/

namespace Header

/-- `body` is what belongs to the header alone, and `owed` values belong to it behind that. -/
def Owes (h : Header) (body : List UInt8) (owed : Nat) : Prop :=
  match h with
  | .nil | .bool _ | .posFix _ | .negFix _ => body = [] ∧ owed = 0
  | .uint w | .int w => body.length = w.bytes ∧ owed = 0
  | .single => body.length = 4 ∧ owed = 0
  | .double => body.length = 8 ∧ owed = 0
  | .fixText n => body.length = n ∧ owed = 0
  | .text w | .bin w =>
    ∃ size rest, body = size ++ rest ∧ size.length = w.bytes ∧ rest.length = ofBigEndian size ∧
      owed = 0
  | .fixArray n => body = [] ∧ owed = n
  | .array w => body.length = w.bytes ∧ owed = ofBigEndian body
  | .fixMap n => body = [] ∧ owed = 2 * n
  | .map w => body.length = w.bytes ∧ owed = 2 * ofBigEndian body
  | .fixExt p => body.length = 1 + extLength p ∧ owed = 0
  | .ext w =>
    ∃ size rest, body = size ++ rest ∧ size.length = w.bytes ∧
      rest.length = 1 + ofBigEndian size ∧ owed = 0
  | .unused => False

/-- Only arrays and maps owe values. -/
theorem Owes.eq_zero {h : Header} {body : List UInt8} {owed : Nat} (own : h.Owes body owed)
    (flat : h.isContainer = false) : owed = 0 := by
  cases h with
  | fixArray | array | fixMap | map => cases flat
  | text | bin | ext =>
    obtain ⟨_, _, _, _, _, e⟩ := own
    exact e
  | unused => exact own.elim
  | _ => exact own.2

/-- **What belongs to a header is settled by the bytes behind it.** -/
theorem Owes.unique {h : Header} {body body' : List UInt8} {owed owed' : Nat}
    (own : h.Owes body owed) (own' : h.Owes body' owed') {rest rest' : List UInt8}
    (e : body ++ rest = body' ++ rest') : body = body' ∧ owed = owed' ∧ rest = rest' := by
  -- bytes of one length, taken off the same list, are the same
  have same : body.length = body'.length → body = body' ∧ rest = rest' :=
    List.append_inj e
  cases h with
  | nil | bool | posFix | negFix | fixArray | fixMap =>
    obtain ⟨rfl, rfl⟩ := own
    obtain ⟨rfl, rfl⟩ := own'
    exact ⟨rfl, rfl, e⟩
  | uint | int | single | double | fixText | fixExt =>
    -- the header settles how many bytes there are
    obtain ⟨left, rfl⟩ := own
    obtain ⟨right, rfl⟩ := own'
    obtain ⟨eb, er⟩ := same (left.trans right.symm)
    exact ⟨eb, rfl, er⟩
  | array | map =>
    -- the bytes settle how many values are owed
    obtain ⟨left, rfl⟩ := own
    obtain ⟨right, rfl⟩ := own'
    obtain ⟨rfl, er⟩ := same (left.trans right.symm)
    exact ⟨rfl, rfl, er⟩
  | text | bin | ext =>
    -- the size comes first and settles how many bytes come after it
    obtain ⟨size, tail, rfl, width, length, rfl⟩ := own
    obtain ⟨size', tail', rfl, width', length', rfl⟩ := own'
    rw [List.append_assoc, List.append_assoc] at e
    obtain ⟨rfl, -⟩ := List.append_inj e (width.trans width'.symm)
    obtain ⟨eb, er⟩ := same (by rw [List.length_append, List.length_append, length, length'])
    exact ⟨eb, rfl, er⟩
  | unused => exact own.elim

end Header

end MessagePack
