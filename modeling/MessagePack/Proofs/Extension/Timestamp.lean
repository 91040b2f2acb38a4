import MessagePack.Extension.Registry
import MessagePack.Proofs.Time.Payload
/-!
# The binding of timestamps

Of the payloads that are read as a timestamp its binding writes a shortest one.  A payload that is
none of the three forms is refused, and no field is ever brought into range: what is read has the
seconds and nanoseconds that stand there.  So reading and writing again gives a payload of the same
timestamp that is no longer.

Main statement: `Binding.timestamp_payloads`.
-/

namespace MessagePack.Binding

open Timestamp

variable {payload : List UInt8} {t : Timestamp}

/-- The binding reads a payload as a timestamp. -/
theorem decode_timestamp (read : ofPayload payload = .ok t) :
    timestamp.decode payload = .ok (.timestamp t) := by
  simp only [timestamp, read]

theorem ofPayload_of_decode (decoded : timestamp.decode payload = .ok (.timestamp t)) :
    ofPayload payload = .ok t := by
  simp only [timestamp] at decoded
  split at decoded
  · rename_i read
    cases decoded
    exact read
  · cases decoded

/-- Whatever is no timestamp is a fault of its tag. -/
theorem decode_timestamp_error (other : ¬IsPayload payload) :
    ∃ reason, timestamp.decode payload = .error (.extension timestampTag reason) := by
  cases read : ofPayload payload with
  | ok t => exact (other ((ofPayload_eq_ok_iff payload).1 ⟨t, read⟩)).elim
  | error fault => exact ⟨fault.message, by simp only [timestamp, read]⟩

/-- No payload that is read as a timestamp is shorter than what is written for it. -/
theorem length_le_of_decode (decoded : timestamp.decode payload = .ok (.timestamp t)) :
    t.payload.length ≤ payload.length := by
  rcases length_payload_le (ofPayload_of_decode decoded) with same | ⟨-, shorter⟩
  · exact Nat.le_of_eq same
  · exact shorter

/-- **Every timestamp has a shortest payload, every payload is a timestamp or refused.** -/
theorem timestamp_payloads :
    (∀ t : Timestamp, ∃ payload,
      timestamp.encode (.timestamp t) = Script.ext timestampTag payload ∧
        payload.length =
          (if t.nanos.val = 0 ∧ 0 ≤ t.seconds.toInt ∧ t.seconds.toInt < 2 ^ 32 then 4
          else if 0 ≤ t.seconds.toInt ∧ t.seconds.toInt < 2 ^ 34 then 8
          else 12) ∧
        timestamp.decode payload = .ok (.timestamp t) ∧
        ∀ other, timestamp.decode other = .ok (.timestamp t) → payload.length ≤ other.length) ∧
    ∀ payload : List UInt8,
      (IsPayload payload ∧ ∃ t again,
        fields? payload = some (t.seconds, t.nanos.val) ∧
        timestamp.decode payload = .ok (.timestamp t) ∧
        timestamp.encode (.timestamp t) = Script.ext timestampTag again ∧
        again.length ≤ payload.length ∧ timestamp.decode again = .ok (.timestamp t)) ∨
      (¬IsPayload payload ∧
        ∃ reason, timestamp.decode payload = .error (.extension timestampTag reason)) := by
  have back (t : Timestamp) : timestamp.decode t.payload = .ok (.timestamp t) :=
    decode_timestamp (ofPayload_payload t)
  refine ⟨fun t => ⟨t.payload, rfl, length_payload_eq t, back t, fun other =>
    length_le_of_decode⟩, fun payload => ?_⟩
  by_cases form : IsPayload payload
  · obtain ⟨t, read⟩ := (ofPayload_eq_ok_iff payload).2 form
    have decoded := decode_timestamp read
    exact .inl ⟨form, t, t.payload, fields?_of_ofPayload read, decoded, rfl,
      length_le_of_decode decoded, back t⟩
  · exact .inr ⟨form, decode_timestamp_error form⟩

end MessagePack.Binding
