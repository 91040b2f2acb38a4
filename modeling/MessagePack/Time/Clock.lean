import MessagePack.Time.Timestamp
import MessagePack.Word
/-!
# Clock times

The platform's clock counts whole seconds in 64 bits and nanoseconds on top, and is asked only for
distances: how long after the epoch a time is, or how long before.  `ClockTime.convert` turns such a
distance into a timestamp, in words of the machine, and `Timestamp.toClockTime?` walks from the
epoch to a timestamp's time where the clock can represent it.
-/

namespace MessagePack

/-- A length of time. -/
structure Span where
  seconds : Nat
  nanos : Fin nanosPerSecond
  deriving DecidableEq, Repr

/-- A time of the platform's clock. -/
structure ClockTime where
  seconds : Int64
  nanos : Fin nanosPerSecond
  deriving DecidableEq, Repr

namespace Span

/-- The span of a number of nanoseconds. -/
def ofNanos (n : Nat) : Span :=
  ⟨n / nanosPerSecond, ⟨n % nanosPerSecond, Nat.mod_lt _ (by decide)⟩⟩

def toNanos (s : Span) : Nat := s.seconds * nanosPerSecond + s.nanos

end Span

namespace ClockTime

instance : Inhabited ClockTime := ⟨⟨0, noNanos⟩⟩

def epoch : ClockTime := ⟨0, noNanos⟩

/-- Nanoseconds since the epoch, negative before it. -/
def toNanos (c : ClockTime) : Int := c.seconds.toInt * nanosPerSecond + c.nanos

theorem toNat_emod_lt (n : Int) : (n % nanosPerSecond).toNat < nanosPerSecond := by
  have low : 0 ≤ n % (nanosPerSecond : Int) := Int.emod_nonneg n (by decide)
  have high : n % (nanosPerSecond : Int) < nanosPerSecond := Int.emod_lt_of_pos n (by decide)
  omega

/-- The time so many nanoseconds after the epoch, if its seconds fit. -/
def ofNanos? (n : Int) : Option ClockTime :=
  let seconds := n / nanosPerSecond
  if -0x8000000000000000 ≤ seconds ∧ seconds < 0x8000000000000000 then
    some ⟨Int64.ofInt seconds, ⟨(n % nanosPerSecond).toNat, toNat_emod_lt n⟩⟩
  else none

/-- A span later, if the clock reaches that far. -/
def add? (c : ClockTime) (s : Span) : Option ClockTime := ofNanos? (c.toNanos + s.toNanos)

/-- A span earlier, if the clock reaches that far. -/
def sub? (c : ClockTime) (s : Span) : Option ClockTime := ofNanos? (c.toNanos - s.toNanos)

/-- How far a time is from the epoch, and on which side. -/
inductive FromEpoch where
  | after (s : Span)
  | before (s : Span)
  deriving DecidableEq, Repr

/-- The distance of a time from the epoch. -/
def fromEpoch (c : ClockTime) : FromEpoch :=
  if 0 ≤ c.toNanos then .after (.ofNanos c.toNanos.toNat)
  else .before (.ofNanos (-c.toNanos).toNat)

/-- A whole second less some nanoseconds, in a word of 32 bits. -/
def restOfSecond (n : Fin nanosPerSecond) (started : 0 < n.val) : Worded (Fin nanosPerSecond) :=
  .checked ⟨nanosPerSecond - n.val, by omega⟩ (n.val ≤ nanosPerSecond) .subtract

/-- The way to the timestamp of a time.  Before the epoch the distance counts backwards, so a
started second is borrowed to let the nanoseconds count forward. -/
def convert (c : ClockTime) : Worded Timestamp :=
  match c.fromEpoch with
  | .after s => return ⟨Int64.ofNat s.seconds, s.nanos⟩
  | .before s => do
    let whole ← Worded.negate (Int64.ofNat s.seconds)
    if started : 0 < s.nanos.val then
      let seconds ← Worded.subtract whole 1
      let nanos ← restOfSecond s.nanos started
      return ⟨seconds, nanos⟩
    else return ⟨whole, noNanos⟩

/-- The timestamp of a time, with seconds modulo 2^64. -/
def toTimestamp (c : ClockTime) : Timestamp := c.convert.value

/-- What overflows on the way to the timestamp of a time. -/
def overflows (c : ClockTime) : List Overflow := c.convert.overflows

end ClockTime

/-- The clock time of a timestamp, if the clock can represent it: a walk from the epoch by the
seconds and then forward by the nanoseconds. -/
def Timestamp.toClockTime? (t : Timestamp) : Option ClockTime :=
  let s := t.seconds.toInt
  if 0 ≤ s then ClockTime.epoch.add? ⟨s.toNat, t.nanos⟩
  else (ClockTime.epoch.sub? ⟨s.natAbs, noNanos⟩).bind (·.add? ⟨0, t.nanos⟩)

end MessagePack
