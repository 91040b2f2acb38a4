import MessagePack.Proofs.Decode.Single
import MessagePack.Proofs.Encode.Runs
import MessagePack.Proofs.Wire.Shortest
/-!
# Announcing a length

The five families differ in the lengths that their headers carry themselves, in the widths that
follow the others, and in the tag that stands behind an extension's length.  Of every length below
2^32 the same is true in all of them: what is put is the shortest that announces it, and the read of
the family gets it back.  A length from 2^32 on is refused before anything is put.

A header is more than one put.  A writing pass that was predicted too few bytes may stop between
them, and keeps what it has put by then.

Main statements: `Script.run_announce` and `Script.run_announce_torn`.
-/

namespace MessagePack

/-! ## 1. Which lengths have a header -/

namespace Family

variable {f : Family} {n : ℕ} {h : Header} {size : List UInt8}

theorem announces_of_header? (e : f.header? n = some (h, size)) : f.Announces h size n := by
  rcases header?_cases e with ⟨fixed, rfl⟩ | ⟨w, assigned, rfl, rfl, fits⟩
  · exact .fix fixed
  · have announces := Announces.wide assigned (length_bigEndian w.bytes n)
    rwa [ofBigEndian_bigEndian_of_lt fits] at announces

/-- The widest headers of every family have lengths of 32 bits. -/
theorem exists_header? (f : Family) (fits : n < 2 ^ 32) :
    ∃ h size, f.header? n = some (h, size) := by
  have widest : Width.w32 ∈ f.widths := by cases f <;> decide
  obtain ⟨w, found⟩ : ∃ w, f.widths.find? (fun w => n < w.span) = some w :=
    Option.isSome_iff_exists.1 (List.find?_isSome.2 ⟨.w32, widest, decide_eq_true fits⟩)
  unfold header?
  cases f.fix? n with
  | some h => exact ⟨h, [], rfl⟩
  | none => exact ⟨_, _, by rw [found]; rfl⟩

/-- A length that is announced fits in 32 bits. -/
theorem lt_of_header? (e : f.header? n = some (h, size)) : n < 2 ^ 32 := by
  rcases header?_cases e with ⟨fixed, -⟩ | ⟨w, assigned, -, -, fits⟩
  · cases f with
    | text =>
      obtain ⟨small, -⟩ := fix?_text fixed
      omega
    | bin => cases fixed
    | array =>
      obtain ⟨small, -⟩ := fix?_array fixed
      omega
    | map =>
      obtain ⟨small, -⟩ := fix?_map fixed
      omega
    | ext =>
      obtain ⟨p, -, rfl⟩ := fix?_ext fixed
      have small : ∀ p, Header.extLength p < 2 ^ 32 := by decide
      exact small p
  · have narrow : ∀ w ∈ f.widths, 256 ^ w.bytes ≤ 2 ^ 32 := by cases f <;> decide
    exact Nat.lt_of_lt_of_le fits (narrow w assigned)

/-- One that does not is refused. -/
theorem header?_eq_none (f : Family) (large : 2 ^ 32 ≤ n) : f.header? n = none := by
  cases e : f.header? n with
  | none => rfl
  | some announced => exact absurd (lt_of_header? e) (Nat.not_lt.2 large)

/-- The header with the length behind it that is the shortest of a family for this length. -/
structure Shortest (f : Family) (n : ℕ) (h : Header) (size : List UInt8) : Prop where
  stands : h.Stands
  announces : f.Announces h size n
  least : ∀ h' size', f.Announces h' size' n → size.length ≤ size'.length

theorem shortest_of_header? (e : f.header? n = some (h, size)) : f.Shortest n h size where
  stands := stands_header? e
  announces := announces_of_header? e
  least h' size' other := by
    obtain ⟨_, _, picked, shorter⟩ := other.shortest
    cases e.symm.trans picked
    exact shorter

/-! ## 2. Openings -/

/-- A header with the length behind it; behind that, the tag of an extension. -/
def opening (f : Family) (tag : Int8) (h : Header) (size : List UInt8) : List UInt8 :=
  match f with
  | .ext => h.toByte :: (size ++ [tag.toUInt8])
  | _ => h.toByte :: size

/-- The read of a family gets the length back, and with an extension the tag, if the payload of
texts, bytes and extensions follows. -/
def Recovers (f : Family) (tag : Int8) (n : ℕ) (bs : List UInt8) : Prop :=
  ∀ kind : Kind,
    match f with
    | .text | .bin => ∀ payload : List UInt8, payload.length = n →
        (Read.raw kind).parse.Takes (bs ++ payload) (some payload)
    | .array => (Read.arrayLength kind).parse.Takes bs (some n)
    | .map => (Read.mapLength kind).parse.Takes bs (some n)
    | .ext => ∀ payload : List UInt8, payload.length = n →
        (Read.ext kind).parse.Takes (bs ++ payload) (some (tag, payload))

theorem recovers_opening (e : f.header? n = some (h, size)) (tag : Int8) :
    f.Recovers tag n (f.opening tag h size) := by
  have stands := stands_header? e
  intro kind
  cases f with
  | text =>
    rintro payload rfl
    exact Read.takes_raw kind stands (text_announces e).2
  | bin =>
    rintro payload rfl
    exact Read.takes_raw kind stands (bin_announces e).2
  | array =>
    obtain ⟨array, own⟩ := array_announces e
    exact Read.takes_arrayLength kind stands array own
  | map =>
    obtain ⟨map, own⟩ := map_announces e
    exact Read.takes_mapLength kind stands map own
  | ext =>
    rintro payload rfl
    have taken := Read.takes_ext kind stands (ext_announces e tag)
    simpa [opening] using taken

end Family

/-! ## 3. Puts in a row -/

namespace Script

/-- After what goes well the next goes on. -/
theorem run_append_of_ok {a b : Script} {w w' : Writer} (goes : a.run w = (.ok (), w')) :
    (a ++ b).run w = b.run w' := by
  change (Script.seq a b).run w = _
  rw [run, goes]

/-- After what does not nothing does. -/
theorem run_append_of_error {a b : Script} {w w' : Writer} {fault : Fault}
    (stops : a.run w = (.error fault, w')) : (a ++ b).run w = (.error fault, w') := by
  change (Script.seq a b).run w = _
  rw [run, stops]

/-- A script that puts these bytes in both passes.  A writing pass without room for all of them ends
in a mismatch, and a front part stays. -/
structure Delivers (s : Script) (bs : List UInt8) : Prop where
  sizing : ∀ count known, s.run ⟨.sizing count, known⟩ =
    (.ok (), ⟨.sizing (count + bs.length), known⟩)
  writing : ∀ predicted buffer known, buffer.size + bs.length ≤ predicted →
    s.run ⟨.writing predicted buffer, known⟩ = (.ok (), ⟨.writing predicted (buffer ++ bs), known⟩)
  short : ∀ predicted buffer known, predicted < buffer.size + bs.length →
    ∃ total front, predicted < total ∧ front <+: bs ∧
      s.run ⟨.writing predicted buffer, known⟩ =
        (.error (.sizeMismatch predicted total), ⟨.writing predicted (buffer ++ front), known⟩)

/-- Scripts of nothing but puts. -/
inductive Plain : Script → Prop
  | put (bs : List UInt8) : Plain (.put bs)
  | append {a b : Script} (first : Plain a) (next : Plain b) : Plain (a ++ b)

variable {s : Script}

/-- Nothing plain fails by itself. -/
theorem Plain.effect_ok (plain : s.Plain) : s.effect.2 = .ok () := by
  induction plain with
  | put bs => rfl
  | append _ _ first next => rw [effect_append, first, next]

/-- Or leaves a note. -/
theorem Plain.noted (plain : s.Plain) (known : Notes) : s.noted known = known := by
  induction plain with
  | put bs => rfl
  | append first' _ first next =>
    change (Script.seq _ _).noted known = known
    rw [Script.noted, first'.effect_ok]
    simp only [first, next]

/-- Puts that have no room end in a mismatch, and some of the bytes from the front stay. -/
theorem Plain.run_short (plain : s.Plain) (predicted : ℕ) (buffer : Array UInt8)
    (known : Notes) (short : predicted < buffer.size + s.effect.1.length) :
    ∃ total front, predicted < total ∧ front <+: s.effect.1 ∧
      s.run ⟨.writing predicted buffer, known⟩ =
        (.error (.sizeMismatch predicted total),
          ⟨.writing predicted (buffer ++ front), known⟩) := by
  induction plain generalizing buffer with
  | put bs =>
    refine ⟨_, [], short, List.nil_prefix, ?_⟩
    simp only [run, Sink.put, effect] at short ⊢
    rw [if_pos short]
    simp
  | @append a b plain next ihf ihn =>
    have whole : (a ++ b).effect.1 = a.effect.1 ++ b.effect.1 := by
      rw [effect_append, plain.effect_ok]
    rw [whole] at short ⊢
    rw [List.length_append] at short
    -- the room ends in the second part, or already in the first
    by_cases room : buffer.size + a.effect.1.length ≤ predicted
    · have first := run_writing a predicted buffer known room
      rw [plain.effect_ok, plain.noted] at first
      rw [run_append_of_ok first]
      obtain ⟨total, front, more, isFront, stops⟩ := ihn (buffer ++ a.effect.1)
        (by rw [size_append_list]; omega)
      exact ⟨total, a.effect.1 ++ front, more, (List.prefix_append_right_inj _).2 isFront,
        by rw [← append_list_assoc]; exact stops⟩
    · obtain ⟨total, front, more, isFront, stops⟩ := ihf buffer (by omega)
      exact ⟨total, front, more, isFront.trans (List.prefix_append _ _), run_append_of_error stops⟩

/-- **Puts in a row deliver their bytes.** -/
theorem Plain.delivers (plain : s.Plain) : s.Delivers s.effect.1 where
  sizing count known := by rw [run_sizing, plain.effect_ok, plain.noted]
  writing predicted buffer known room := by
    rw [run_writing _ _ _ _ room, plain.effect_ok, plain.noted]
  short predicted buffer known short := plain.run_short predicted buffer known short

/-! ## 4. Announcing -/

/-- Puts what announces a length in a family, with an extension its tag as well. -/
def announce (f : Family) (tag : Int8) (n : ℕ) : Script :=
  match f with
  | .ext => extHeader tag n
  | f => header f n

variable {f : Family} {tag : Int8} {n : ℕ} {h : Header} {size : List UInt8}

theorem header_of_header? (e : f.header? n = some (h, size)) :
    header f n = .put [h.toByte] ++ .put size := by
  unfold header
  rw [e]
  rfl

theorem header_of_le (large : 2 ^ 32 ≤ n) :
    header f n = .fail (.unwritable (.tooLong f n)) := by
  unfold header
  rw [Family.header?_eq_none f large]

theorem delivers_of_header? (e : f.header? n = some (h, size)) (tag : Int8) :
    (announce f tag n).Delivers (f.opening tag h size) := by
  have plain : (Script.put [h.toByte] ++ Script.put size).Plain := (Plain.put _).append (.put _)
  cases f with
  | ext =>
    rw [announce, extHeader, header_of_header? e]
    exact (plain.append (.put _)).delivers
  | text | bin | array | map =>
    change (header _ n).Delivers _
    rw [header_of_header? e]
    exact plain.delivers

/-- An extension whose payload has a length is nothing but puts. -/
theorem plain_ext {payload : List UInt8} (fits : payload.length < 2 ^ 32) :
    (ext tag payload).Plain := by
  obtain ⟨h, size, e⟩ := Family.ext.exists_header? fits
  rw [ext, extHeader, header_of_header? e]
  exact ((((Plain.put _).append (.put _)).append (.put _)).append (.put _))

/-- What is announced in vain is refused before anything else is put. -/
theorem run_announce_of_le (large : 2 ^ 32 ≤ n) (w : Writer) :
    (announce f tag n).run w = (.error (.unwritable (.tooLong f n)), w) := by
  have refused : (header f n).run w = (.error (.unwritable (.tooLong f n)), w) := by
    rw [header_of_le large]
    rfl
  cases f with
  | ext => exact run_append_of_error refused
  | text | bin | array | map => exact refused

/-- **A length is announced in the shortest way or refused whole.**  Below 2^32 both passes put the
shortest header of the family for this length, the writing pass as far as there is room, and the
family's read gets the length and the tag back.  From 2^32 on neither pass puts anything, nor goes
on to what should stand behind the header.  Bytes are put behind such a header. -/
theorem run_announce (f : Family) (tag : Int8) (n : ℕ) :
    (n < 2 ^ 32 → ∃ h size, f.Shortest n h size ∧ f.Recovers tag n (f.opening tag h size) ∧
      (announce f tag n).Delivers (f.opening tag h size)) ∧
    (2 ^ 32 ≤ n → ∀ w, (announce f tag n).run w = (.error (.unwritable (.tooLong f n)), w) ∧
      ∀ behind, (announce f tag n ++ behind).run w = (.error (.unwritable (.tooLong f n)), w)) ∧
    ∀ payload, bin payload = announce .bin tag payload.length ++ .put payload := by
  refine ⟨fun fits => ?_, fun large w => ?_, fun payload => rfl⟩
  · obtain ⟨h, size, e⟩ := f.exists_header? fits
    exact ⟨h, size, Family.shortest_of_header? e, Family.recovers_opening e tag,
      delivers_of_header? e tag⟩
  · have refused : (announce f tag n).run w = (.error (.unwritable (.tooLong f n)), w) :=
      run_announce_of_le large w
    exact ⟨refused, fun behind => run_append_of_error refused⟩

/-- Without room the first byte of a header may be all that is put. -/
theorem run_announce_torn : (16 : ℕ) < 2 ^ 32 ∧
    (announce .array 0 16).run ⟨.writing 1 #[], {}⟩ =
      (.error (.sizeMismatch 1 3), ⟨.writing 1 #[(Header.array .w16).toByte], {}⟩) :=
  ⟨by decide, rfl⟩

end Script

end MessagePack
