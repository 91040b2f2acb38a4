import MessagePack.Proofs.Time.Payload
import MessagePack.Time.Clock
/-!
# Clock times and their timestamps

A clock time is told as a distance from the epoch, before the epoch as one that counts backwards.
Its timestamp has the same seconds and nanoseconds nevertheless, and the walk along it ends where
the clock time was, also at the earliest second that the clock knows.

So every timestamp is the time of some clock, and the two kinds of time are ordered alike.

Main statements: `ClockTime.toClockTime?_toTimestamp` and `ClockTime.same_times`.
-/

namespace MessagePack

theorem Span.ofNanos_eq {n seconds nanos : Nat} (small : nanos < 1000000000)
    (e : n = seconds * 1000000000 + nanos) : Span.ofNanos n = ⟨seconds, ⟨nanos, small⟩⟩ := by
  have whole : n / 1000000000 = seconds := by omega
  have rest : n % 1000000000 = nanos := by omega
  simp only [Span.ofNanos, nanosPerSecond, whole, rest]

namespace ClockTime

variable {t : ClockTime} {n : Int} {s : Int64} {nanos : Nat}

/-! ## 1. Distances from the epoch -/

theorem toNanos_mk (s : Int64) (small : nanos < nanosPerSecond) :
    (⟨s, ⟨nanos, small⟩⟩ : ClockTime).toNanos = s.toInt * 1000000000 + nanos := rfl

/-- A time is found again by its nanoseconds. -/
theorem ofNanos?_of_toNanos (same : t.toNanos = n) : ofNanos? n = some t := by
  obtain ⟨s, ⟨nanos, small⟩⟩ := t
  rw [toNanos_mk] at same
  have below : nanos < 1000000000 := small
  have low := s.le_toInt
  have high := s.toInt_lt
  have seconds : n / 1000000000 = s.toInt := by omega
  have rest : (n % 1000000000).toNat = nanos := by omega
  have range : -0x8000000000000000 ≤ s.toInt ∧ s.toInt < 0x8000000000000000 := by omega
  have whole : ((nanosPerSecond : Nat) : Int) = 1000000000 := rfl
  simp only [ofNanos?, whole, seconds, rest, Int64.ofInt_toInt, if_pos range]

/-- From the epoch on the distance is the time itself. -/
theorem fromEpoch_of_nonneg (small : nanos < nanosPerSecond) (late : 0 ≤ s.toInt) :
    (⟨s, ⟨nanos, small⟩⟩ : ClockTime).fromEpoch = .after ⟨s.toInt.toNat, ⟨nanos, small⟩⟩ := by
  have distance : (s.toInt * 1000000000 + nanos).toNat = s.toInt.toNat * 1000000000 + nanos := by
    omega
  unfold fromEpoch
  rw [toNanos_mk, if_pos (by omega), Span.ofNanos_eq small distance]

/-- Before it, at whole seconds, it is the time without its sign. -/
theorem fromEpoch_of_neg (early : s.toInt < 0) :
    (⟨s, noNanos⟩ : ClockTime).fromEpoch = .before ⟨s.toInt.natAbs, noNanos⟩ := by
  have total : (⟨s, noNanos⟩ : ClockTime).toNanos = s.toInt * 1000000000 := Int.add_zero _
  have distance : (-(s.toInt * 1000000000)).toNat = s.toInt.natAbs * 1000000000 + 0 := by omega
  unfold fromEpoch
  rw [total, if_neg (by omega), Span.ofNanos_eq (by decide) distance]
  rfl

/-- With nanoseconds, the distance ends within the last second. -/
theorem fromEpoch_of_neg_of_pos (small : nanos < nanosPerSecond) (early : s.toInt < 0)
    (some' : 0 < nanos) :
    (⟨s, ⟨nanos, small⟩⟩ : ClockTime).fromEpoch =
      .before ⟨s.toInt.natAbs - 1, ⟨1000000000 - nanos, Nat.sub_lt (by decide) some'⟩⟩ := by
  have below : nanos < 1000000000 := small
  have distance : (-(s.toInt * 1000000000 + nanos)).toNat =
      (s.toInt.natAbs - 1) * 1000000000 + (1000000000 - nanos) := by omega
  unfold fromEpoch
  rw [toNanos_mk, if_neg (by omega), Span.ofNanos_eq (Nat.sub_lt (by decide) some') distance]

/-! ## 2. There and back -/

/-- The seconds of a distance that counts backwards. -/
theorem neg_ofNat {k : Nat} (e : s.toInt = -k) : -(Int64.ofNat k) = s := by
  rw [← Int64.ofInt_eq_ofNat, ← Int64.ofInt_neg, ← e, Int64.ofInt_toInt]

/-- The same with a second borrowed. -/
theorem neg_ofNat_sub_one {k : Nat} (e : s.toInt = -k - 1) : -(Int64.ofNat k) - 1 = s := by
  rw [← Int64.ofInt_eq_ofNat, ← Int64.ofInt_neg, show (1 : Int64) = Int64.ofInt 1 from rfl,
    ← Int64.ofInt_sub, ← e, Int64.ofInt_toInt]

theorem convert_after {span : Span} (e : t.fromEpoch = .after span) :
    t.convert = ⟨⟨Int64.ofNat span.seconds, span.nanos⟩, []⟩ := by
  rw [convert, e]
  rfl

/-- A distance of whole seconds is negated. -/
theorem convert_before {k : Nat} (e : t.fromEpoch = .before ⟨k, noNanos⟩) :
    t.convert = (Worded.negate (Int64.ofNat k) >>= fun whole => pure ⟨whole, noNanos⟩) := by
  rw [convert, e]
  rfl

/-- Of a started second, the rest is counted forward from a second further back. -/
theorem convert_before_started {k part : Nat} {fits : part < nanosPerSecond} (started : 0 < part)
    (e : t.fromEpoch = .before ⟨k, ⟨part, fits⟩⟩) :
    t.convert = (Worded.negate (Int64.ofNat k) >>= fun whole =>
      Worded.subtract whole 1 >>= fun seconds =>
        restOfSecond ⟨part, fits⟩ started >>= fun nanos => pure ⟨seconds, nanos⟩) := by
  rw [convert, e]
  simp only [dif_pos started]

/-- **A timestamp has the seconds and nanoseconds of its clock time.** -/
theorem toTimestamp_eq (t : ClockTime) : t.toTimestamp = ⟨t.seconds, t.nanos⟩ := by
  obtain ⟨s, ⟨nanos, small⟩⟩ := t
  have below : nanos < 1000000000 := small
  unfold toTimestamp
  rcases Int.lt_or_le s.toInt 0 with early | late
  · rcases Nat.eq_zero_or_pos nanos with rfl | some'
    · -- The seconds alone: their negative is the number that they were the distance of.
      rw [show (⟨0, small⟩ : Fin nanosPerSecond) = noNanos from rfl,
        convert_before (fromEpoch_of_neg early)]
      have whole : s.toInt = -(s.toInt.natAbs : Int) := by omega
      exact congrArg (Timestamp.mk · noNanos) (neg_ofNat whole)
    · -- The distance ends within the last second, which is given back by borrowing it.
      have started : 0 < 1000000000 - nanos := by omega
      have rest : 1000000000 - (1000000000 - nanos) = nanos := by omega
      rw [convert_before_started started (fromEpoch_of_neg_of_pos small early some')]
      have nanos_eq :
          (restOfSecond ⟨1000000000 - nanos, Nat.sub_lt (by decide) some'⟩ started).value =
            ⟨nanos, small⟩ := Fin.ext rest
      have whole : s.toInt = -((s.toInt.natAbs - 1 : Nat) : Int) - 1 := by omega
      exact congrArg₂ Timestamp.mk (neg_ofNat_sub_one whole) nanos_eq
  · rw [convert_after (fromEpoch_of_nonneg small late)]
    exact congrArg (Timestamp.mk · _) (Timestamp.ofNat_toNat late)

/-- **A clock time is found again from its timestamp.** -/
theorem toClockTime?_toTimestamp (t : ClockTime) : t.toTimestamp.toClockTime? = some t := by
  rw [toTimestamp_eq]
  obtain ⟨s, ⟨nanos, small⟩⟩ := t
  unfold Timestamp.toClockTime?
  dsimp only
  split
  · refine ofNanos?_of_toNanos ?_
    change s.toInt * 1000000000 + (nanos : Int) = 0 + (s.toInt.toNat * 1000000000 + nanos : Nat)
    omega
  · have whole : epoch.sub? ⟨s.toInt.natAbs, noNanos⟩ = some ⟨s, noNanos⟩ := by
      refine ofNanos?_of_toNanos ?_
      change s.toInt * 1000000000 + 0 = 0 - (s.toInt.natAbs * 1000000000 + 0 : Nat)
      omega
    rw [whole]
    refine ofNanos?_of_toNanos ?_
    change s.toInt * 1000000000 + (nanos : Int) =
      s.toInt * 1000000000 + 0 + (0 * 1000000000 + nanos : Nat)
    omega

/-- The clock reaches every timestamp. -/
theorem toClockTime?_eq (t : Timestamp) : t.toClockTime? = some ⟨t.seconds, t.nanos⟩ := by
  have found := toClockTime?_toTimestamp ⟨t.seconds, t.nanos⟩
  rwa [toTimestamp_eq] at found

/-! ## 3. Earlier and later -/

/-- Since nanoseconds stay below a second, earlier seconds decide. -/
theorem order_toTimestamp (a b : ClockTime) :
    a.toTimestamp.order b.toTimestamp = compare a.toNanos b.toNanos := by
  obtain ⟨s, ⟨m, few⟩⟩ := a
  obtain ⟨u, ⟨n, few'⟩⟩ := b
  have below : m < 1000000000 := few
  have below' : n < 1000000000 := few'
  simp only [toTimestamp_eq, Timestamp.order, toNanos_mk]
  rcases Int.lt_trichotomy s.toInt u.toInt with earlier | same | later
  · rw [Int.compare_eq_lt.2 earlier, Int.compare_eq_lt.2 (by omega), Ordering.lt_then]
  · rw [Int.compare_eq_eq.2 same, Ordering.eq_then, same]
    rcases Nat.lt_trichotomy m n with fewer | equal | more
    · rw [Nat.compare_eq_lt.2 fewer, Int.compare_eq_lt.2 (by omega)]
    · rw [Nat.compare_eq_eq.2 equal, Int.compare_eq_eq.2 (by omega)]
    · rw [Nat.compare_eq_gt.2 more, Int.compare_eq_gt.2 (by omega)]
  · rw [Int.compare_eq_gt.2 later, Int.compare_eq_gt.2 (by omega), Ordering.gt_then]

/-- **Timestamps and clock times are the same times**, in the same order: each is found again from
the other, and a timestamp's nanoseconds stay below a second. -/
theorem same_times :
    (∀ t : Timestamp, ∃ c, t.toClockTime? = some c ∧ c.toTimestamp = t) ∧
      (∀ c : ClockTime, c.toTimestamp.toClockTime? = some c) ∧
      (∀ c : ClockTime, c.toTimestamp.nanos.val < 1000000000) ∧
      ∀ a b : ClockTime,
        a.toNanos ≤ b.toNanos ↔ (a.toTimestamp.order b.toTimestamp).isLE = true := by
  refine ⟨fun t => ⟨_, toClockTime?_eq t, toTimestamp_eq _⟩, toClockTime?_toTimestamp,
    fun c => c.toTimestamp.nanos.isLt, fun a b => ?_⟩
  rw [order_toTimestamp, Int.isLE_compare]

end ClockTime

end MessagePack
