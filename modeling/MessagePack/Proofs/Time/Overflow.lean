import MessagePack.Codec
import MessagePack.Proofs.Decode.Calls
import MessagePack.Proofs.Encode.Lengths
import MessagePack.Proofs.Time.Clock
/-!
# Overflow between clock times and timestamps

Before the epoch, the way from a clock time to its timestamp negates seconds, borrows one and takes
nanoseconds from a whole second, each in a word of the machine.  `ClockTime.overflows` tells which
of these results their words could not hold.

There is one such result, of one time, the earliest that the clock knows.  Its distance from the
epoch is 2^63 seconds, in a word the least number, and that one has no negation.  An extension can
name this time, so a reader meets it: whoever writes the time again, or reads anything else into it,
goes through the overflow.

Main statements: `ClockTime.overflows_eq` and `ClockTime.overflows_of_found`.
-/

namespace MessagePack

/-! ## 1. Words -/

namespace Worded

variable {s u : Int64} {k : ℕ}

/-- The seconds of a distance are negated within their word if they were within it. -/
theorem negate_eq (e : s.toInt = -k) (fits : k < 0x8000000000000000) :
    negate (Int64.ofNat k) = ⟨s, []⟩ := by
  have negated : -(Int64.ofNat k) = s := ClockTime.neg_ofNat e
  have same : s.toInt = -(Int64.ofNat k).toInt := by rw [Int64.toInt_ofNat_of_lt fits, e]
  rw [negate, checked, negated, same, beq_self_eq_true, if_pos rfl]

/-- One less overflows nothing unless there is no less. -/
theorem subtract_one_eq (e : s.toInt = u.toInt - 1) : subtract u 1 = ⟨s, []⟩ := by
  have low := s.le_toInt
  have high := s.toInt_lt
  have difference : (u - 1).toInt = s.toInt := by
    rw [Int64.toInt_sub, show (1 : Int64).toInt = 1 from rfl, ← e]
    exact Int.bmod_eq_of_le (by omega) (by omega)
  rw [subtract, checked, Int64.toInt_inj.1 difference, show (1 : Int64).toInt = 1 from rfl, e,
    beq_self_eq_true, if_pos rfl]

end Worded

namespace ClockTime

variable {c : ClockTime} {t : Timestamp} {s : Int64} {nanos : ℕ}

/-- Nanoseconds stay below a second, so they can always be taken from one. -/
theorem overflows_restOfSecond (n : Fin nanosPerSecond) (started : 0 < n.val) :
    (restOfSecond n started).overflows = [] := by
  have enough : decide (n.val ≤ nanosPerSecond) = true := decide_eq_true (Nat.le_of_lt n.isLt)
  rw [restOfSecond, Worded.checked, enough, if_pos rfl]

/-! ## 2. The way to a timestamp -/

/-- The earliest time of the clock. -/
def earliest : ClockTime := ⟨Int64.minValue, noNanos⟩

/-- The earliest time has no distance from the epoch. -/
theorem overflows_earliest : earliest.overflows = [.negate] := by
  have distance : earliest.fromEpoch = .before ⟨_, noNanos⟩ := fromEpoch_of_neg (by decide)
  rw [overflows, convert_before distance]
  rfl

/-- Every other time before the epoch is less than 2^63 seconds away from it. -/
theorem overflows_of_neg (small : nanos < nanosPerSecond) (early : s.toInt < 0)
    (later : (⟨s, ⟨nanos, small⟩⟩ : ClockTime) ≠ earliest) :
    (⟨s, ⟨nanos, small⟩⟩ : ClockTime).overflows = [] := by
  have below : nanos < 1000000000 := small
  have low := s.le_toInt
  unfold overflows
  rcases Nat.eq_zero_or_pos nanos with rfl | some'
  · -- Whole seconds are negated and that is all; only the least number of seconds is too many.
    have above : s.toInt ≠ -0x8000000000000000 := fun least =>
      later (congrArg (ClockTime.mk · noNanos) (Int64.toInt_inj.1 least))
    have distance : (⟨s, ⟨0, small⟩⟩ : ClockTime).fromEpoch = .before ⟨s.toInt.natAbs, noNanos⟩ :=
      fromEpoch_of_neg early
    rw [convert_before distance, Worded.negate_eq (s := s) (by omega) (by omega)]
    rfl
  · -- In a started second one less is negated, so there is room for the second that is borrowed.
    have started : 0 < 1000000000 - nanos := by omega
    have next : (Int64.ofInt (s.toInt + 1)).toInt = s.toInt + 1 :=
      Int64.toInt_ofInt_of_le (by omega) (by omega)
    have negated : Worded.negate (Int64.ofNat (s.toInt.natAbs - 1)) =
        ⟨Int64.ofInt (s.toInt + 1), []⟩ := Worded.negate_eq (by omega) (by omega)
    have borrowed : Worded.subtract (Int64.ofInt (s.toInt + 1)) 1 = ⟨s, []⟩ :=
      Worded.subtract_one_eq (by omega)
    have rest := overflows_restOfSecond ⟨1000000000 - nanos, Nat.sub_lt (by decide) some'⟩ started
    rw [convert_before_started started (fromEpoch_of_neg_of_pos small early some'), negated]
    simp only [bind, borrowed, rest]
    rfl

/-- **On the way to a timestamp the negation of the earliest time overflows, and nothing else
does.** -/
theorem overflows_eq (c : ClockTime) : c.overflows = if c = earliest then [.negate] else [] := by
  split
  · rename_i same
    rw [same, overflows_earliest]
  · rename_i later
    obtain ⟨s, ⟨nanos, small⟩⟩ := c
    rcases Int.lt_or_le s.toInt 0 with early | late
    · exact overflows_of_neg small early later
    · rw [overflows, convert_after (fromEpoch_of_nonneg small late)]

end ClockTime

/-! ## 3. Runs -/

/-- A read by itself notes nothing. -/
theorem Read.Composed.notes_eq {α : Type} {n : ℕ} {r : Read α} (composed : r.Composed n)
    (c : Cursor) : (r c).2.trace.toNotes = c.trace.toNotes := by
  have advanced : ∀ {β : Type} {r : Read β}, r.Advances → ∀ c : Cursor,
      (r c).2.trace.toNotes = c.trace.toNotes := by
    intro β r advances c
    obtain ⟨k, -, moved⟩ := advances c
    rw [moved]
    rfl
  induction composed generalizing c with
  | pure | fail => rfl
  | peekByte => exact advanced advances_peekByte c
  | takeByte => exact advanced advances_takeByte c
  | takeMany k => exact advanced (advances_takeMany k) c
  | skip => exact advanced (advances_skipOwed 1) c
  | @bind _ _ _ r next _ _ first then' =>
    have read := first c
    rw [run_bind]
    rcases e : r c with ⟨f | a, c'⟩
    · rw [e] at read
      exact read
    · rw [e] at read
      exact (then' a c').trans read
  | located _ each => exact each c.position c
  | nested _ inner => exact inner (c.retrace .down)

/-- Nor does a binding, which sees the payload alone. -/
theorem InPlace.notes_extension (cx : Context) (host : Host) (d : Datum) (c : Cursor) :
    (extension cx host d c).cursor.trace.toNotes = c.trace.toNotes := by
  have read := (Read.Composed.ext (n := 0) .ext).notes_eq c
  rw [extension_eq, Decoded.afterRead]
  rcases e : Read.ext .ext c with ⟨f | payload, c'⟩ <;> rw [e] at read
  · exact read
  · rcases payload with _ | ⟨tag, payload⟩
    · exact read
    · dsimp only
      rw [← read]
      cases receive cx host tag payload <;> rfl

namespace Datum

/-- **Reading into a clock time notes what overflows on the way from it**, whatever is read and
however that ends. -/
theorem overflows_read (cx : Context) (n : ℕ) (t : ClockTime) (c : Cursor) :
    (read cx n .clockTime (.clockTime t) c).cursor.trace.overflows =
      c.trace.overflows ++ t.overflows := by
  have payload := congrArg Notes.overflows (InPlace.notes_extension cx .timestamp
    (.timestamp t.toTimestamp) (c.overflow t.overflows))
  rw [read_eq, readStep, InPlace.clockTime_eq, Decoded.afterRun]
  dsimp only [asClockTime]
  rcases e : InPlace.extension cx .timestamp (.timestamp t.toTimestamp) (c.overflow t.overflows)
    with ⟨f | _, x, c'⟩ <;> rw [e] at payload
  · exact payload
  · refine Eq.trans ?_ payload
    dsimp only
    cases x.asTimestamp.toClockTime? <;> rfl

/-- **Writing a clock time is writing its timestamp**, with what overflows on the way noted
first. -/
theorem script_clockTime (cx : Context) (c : ClockTime) :
    script cx .clockTime (.clockTime c) =
      .overflow c.overflows ++ script cx .timestamp (.timestamp c.toTimestamp) := by
  rw [script, script]
  rfl

end Datum

namespace Codec

/-- Both passes of writing a clock time through the binding of timestamps note this and nothing
else. -/
theorem overflows_encoding {codec : Codec} (mode : Mode)
    (bound : codec.registry.forHost? .timestamp = some .timestamp) (c : ClockTime) :
    (codec.encoding .clockTime (.clockTime c) mode).notes.overflows =
      c.overflows ++ c.overflows := by
  have short : c.toTimestamp.payload.length < 2 ^ 32 := by
    rcases c.toTimestamp.length_payload with four | eight | twelve <;> omega
  have plain : (Script.ext Binding.timestampTag c.toTimestamp.payload).Plain :=
    Script.plain_ext short
  have script : Datum.script (codec.context mode) .clockTime (.clockTime c) =
      .seq (.overflow c.overflows) (.ext Binding.timestampTag c.toTimestamp.payload) := by
    have claimed : (codec.context mode).registry.forHost? .timestamp = some .timestamp := bound
    rw [Datum.script_clockTime, Datum.script, Context.encodeExtension, claimed]
    rfl
  rw [encoding, Script.notes_encode, script]
  simp only [Script.noted, Script.effect, plain.effect_ok, plain.noted]
  rfl

end Codec

/-! ## 4. Times that are read -/

namespace ClockTime

/-- **Of the times that timestamps are taken to, the earliest alone overflows on the way back**, by
its negation.  Its timestamp comes back right nevertheless; but whoever writes such a time, in each
of the two passes, or reads into it goes that way. -/
theorem overflows_of_found {t : Timestamp} {c : ClockTime} (found : t.toClockTime? = some c) :
    c.toTimestamp = t ∧
      c.overflows = (if t = ⟨Int64.minValue, noNanos⟩ then [.negate] else []) ∧
      (∀ (codec : Codec) mode, codec.registry.forHost? .timestamp = some .timestamp →
        (codec.encoding .clockTime (.clockTime c) mode).notes.overflows =
          c.overflows ++ c.overflows) ∧
      ∀ (codec : Codec) mode input,
        (codec.reading .clockTime (.clockTime c) input mode).cursor.trace.overflows =
          c.overflows := by
  rw [toClockTime?_eq] at found
  obtain rfl := Option.some.inj found
  refine ⟨toTimestamp_eq _, ?_, fun codec mode bound => codec.overflows_encoding mode bound _,
    fun codec mode input => Datum.overflows_read (codec.context mode) maxDepth _ (.start input)⟩
  rw [overflows_eq]
  by_cases first : t = ⟨Int64.minValue, noNanos⟩
  · rw [if_pos first, if_pos (by rw [first]; rfl)]
  · have later : (⟨t.seconds, t.nanos⟩ : ClockTime) ≠ earliest := fun same =>
      first (congrArg (fun c => Timestamp.mk c.seconds c.nanos) same)
    rw [if_neg first, if_neg later]

/-- Half a second before the epoch. -/
theorem overflows_of_found_half :
    let t : Timestamp := ⟨-1, 500000000⟩
    let c : ClockTime := ⟨-1, 500000000⟩
    let codec := Codec.fresh { records := [] }
    t.toClockTime? = some c ∧ c.toTimestamp = t ∧ c.overflows = [] ∧
      codec.registry.forHost? .timestamp = some .timestamp ∧
      (codec.encoding .clockTime (.clockTime c) .named).notes.overflows = [] ∧
      (codec.reading .clockTime (.clockTime c) [0xc0] .named).cursor.trace.overflows = [] := by
  intro t c codec
  have found : t.toClockTime? = some c := toClockTime?_eq t
  have bound : codec.registry.forHost? .timestamp = some .timestamp := rfl
  obtain ⟨back, overflows, written, read⟩ := overflows_of_found found
  have other : t ≠ ⟨Int64.minValue, noNanos⟩ := by decide
  have none' : c.overflows = [] := overflows.trans (if_neg other)
  refine ⟨found, back, none', bound, ?_, ?_⟩
  · rw [written codec .named bound, none']
    rfl
  · rw [read codec .named [0xc0], none']

/-- Some extension is read as a time that overflows when it is written and when it is read into. -/
theorem exists_read_overflow :
    ¬ ∀ (catalog : Catalog) (input : List UInt8) (mode : Mode) (c : ClockTime),
      ((Codec.fresh catalog).decode .clockTime input mode).1 = .ok (.clockTime c) →
        ((Codec.fresh catalog).encoding .clockTime (.clockTime c) mode).notes.overflows = [] ∧
          ∀ next, ((Codec.fresh catalog).reading .clockTime (.clockTime c) next
            mode).cursor.trace.overflows = [] := by
  intro always
  have read : ((Codec.fresh { records := [] }).decode .clockTime
      [0xc7, 12, 0xff, 0, 0, 0, 0, 0x80, 0, 0, 0, 0, 0, 0, 0] .named).1 =
      .ok (.clockTime earliest) := rfl
  obtain ⟨-, later⟩ := always _ _ _ _ read
  have noted := later [0xd6, 0xff, 0, 0, 0, 1]
  rw [Codec.reading, Datum.overflows_read, overflows_earliest] at noted
  cases noted

end ClockTime

end MessagePack
