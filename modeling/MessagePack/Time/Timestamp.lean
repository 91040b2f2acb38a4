import MessagePack.Wire.BigEndian
/-!
# Timestamps

A timestamp is a number of seconds and a part of a second, both relative to the epoch; the part
counts forward, so half a second before the epoch is `-1` seconds and `500000000` nanoseconds.

On the wire a timestamp is the payload of an extension with tag `-1`, in one of three forms:

* four bytes, the seconds, when there are no nanoseconds and the seconds fit;
* eight bytes, the nanoseconds in the upper 30 bits and the seconds in the lower 34;
* twelve bytes, four of nanoseconds and eight of seconds, for everything else.

`Timestamp.payload` writes the shortest form, `Timestamp.ofPayload` reads all three.
-/

namespace MessagePack

/-- The nanoseconds in a second. -/
abbrev nanosPerSecond : Nat := 1000000000

/-- No part of a second. -/
def noNanos : Fin nanosPerSecond := 0

/-- Seconds and nanoseconds relative to the epoch. -/
structure Timestamp where
  seconds : Int64
  nanos : Fin nanosPerSecond
  deriving DecidableEq, Repr

/-- Why a payload is no timestamp. -/
inductive TimestampFault where
  | badLength (length : Nat)
  | badNanos (nanos : Nat)
  deriving DecidableEq, Repr

namespace TimestampFault

def message : TimestampFault → String
  | .badLength n => s!"payload of {n} bytes, expected 4, 8 or 12"
  | .badNanos n => s!"nanoseconds {n} out of range"

end TimestampFault

namespace Timestamp

instance : Inhabited Timestamp := ⟨⟨0, noNanos⟩⟩

/-- The epoch itself. -/
def epoch : Timestamp := ⟨0, noNanos⟩

/-- A timestamp, if the nanoseconds are less than a second. -/
def new? (seconds : Int64) (nanos : Nat) : Option Timestamp :=
  if h : nanos < nanosPerSecond then some ⟨seconds, ⟨nanos, h⟩⟩ else none

/-- Earlier seconds first, then earlier nanoseconds. -/
def order (a b : Timestamp) : Ordering :=
  (compare a.seconds.toInt b.seconds.toInt).then (compare a.nanos.val b.nanos.val)

/-- The shortest payload. -/
def payload (t : Timestamp) : List UInt8 :=
  let s := t.seconds.toInt
  if 0 ≤ s ∧ s < 0x400000000 then
    let packed := t.nanos.val * 0x400000000 + s.toNat
    if packed < 0x100000000 then bigEndian 4 packed else bigEndian 8 packed
  else bigEndian 4 t.nanos ++ bigEndian 8 (s % 0x10000000000000000).toNat

/-- The seconds and nanoseconds that a payload of a known length holds. -/
def fields? (payload : List UInt8) : Option (Int64 × Nat) :=
  match payload.length with
  | 4 => some (Int64.ofNat (ofBigEndian payload), 0)
  | 8 =>
    let packed := ofBigEndian payload
    some (Int64.ofNat (packed % 0x400000000), packed / 0x400000000)
  | 12 => some (Int64.ofNat (ofBigEndian (payload.drop 4)), ofBigEndian (payload.take 4))
  | _ => none

/-- The timestamp in a payload of any of the three forms. -/
def ofPayload (payload : List UInt8) : Except TimestampFault Timestamp :=
  match fields? payload with
  | none => .error (.badLength payload.length)
  | some (seconds, nanos) =>
    match new? seconds nanos with
    | some t => .ok t
    | none => .error (.badNanos nanos)

/-- Nine decimal places of seconds. -/
def text (t : Timestamp) : String :=
  let places := Nat.toDigits 10 t.nanos.val
  toString t.seconds.toInt ++ "." ++
    String.ofList (List.replicate (9 - places.length) '0' ++ places)

end Timestamp

end MessagePack
