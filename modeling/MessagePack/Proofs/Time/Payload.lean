import MessagePack.Proofs.Wire.BigEndian
import MessagePack.Time.Timestamp
/-!
# Timestamps and their payloads

Of the three forms of a payload the shortest that fits is written, and each is read back as the
timestamp it was written for.

`Timestamp.IsPayload` says which payloads are read at all.  Main statements:
`Timestamp.ofPayload_payload` and `Timestamp.ofPayload_eq_ok_iff`.
-/

namespace MessagePack.Timestamp

/-! ## 1. Seconds -/

theorem ofNat_toNat {s : Int64} (positive : 0 ≤ s.toInt) : Int64.ofNat s.toInt.toNat = s := by
  rw [← Int64.ofInt_eq_ofNat, Int.toNat_of_nonneg positive, Int64.ofInt_toInt]

/-- Seconds that are put as an unsigned number are the same seconds. -/
theorem ofNat_emod (s : Int64) : Int64.ofNat (s.toInt % 0x10000000000000000).toNat = s := by
  have above : 0 ≤ s.toInt % 0x10000000000000000 := Int.emod_nonneg _ (by decide)
  rw [← Int64.ofInt_eq_ofNat, Int.toNat_of_nonneg above, Int64.ofInt_eq_iff_bmod_eq_toInt]
  exact (Int.emod_bmod s.toInt 0x10000000000000000).trans s.toInt_bmod

/-! ## 2. The three forms -/

theorem fields?_four {n : Nat} (lt : n < 0x100000000) :
    fields? (bigEndian 4 n) = some (Int64.ofNat n, 0) := by
  unfold fields?
  rw [length_bigEndian, ofBigEndian_bigEndian_of_lt lt]
  rfl

/-- Eight bytes hold nanoseconds above seconds. -/
theorem fields?_eight {nanos seconds : Nat} (below : seconds < 0x400000000)
    (few : nanos < 0x40000000) :
    fields? (bigEndian 8 (nanos * 0x400000000 + seconds)) = some (Int64.ofNat seconds, nanos) := by
  have lt : nanos * 0x400000000 + seconds < 256 ^ 8 := by omega
  have low : (nanos * 0x400000000 + seconds) % 0x400000000 = seconds := by omega
  have high : (nanos * 0x400000000 + seconds) / 0x400000000 = nanos := by omega
  unfold fields?
  rw [length_bigEndian, ofBigEndian_bigEndian_of_lt lt]
  simp only [low, high]

/-- Twelve hold them one after the other. -/
theorem fields?_twelve {nanos seconds : Nat} (below : seconds < 0x10000000000000000)
    (few : nanos < 0x100000000) :
    fields? (bigEndian 4 nanos ++ bigEndian 8 seconds) = some (Int64.ofNat seconds, nanos) := by
  have four : (bigEndian 4 nanos).length = 4 := length_bigEndian 4 nanos
  unfold fields?
  rw [List.length_append, length_bigEndian, length_bigEndian]
  simp only [List.drop_left' four, List.take_left' four]
  rw [ofBigEndian_bigEndian_of_lt below, ofBigEndian_bigEndian_of_lt few]

theorem fields?_payload (t : Timestamp) : fields? t.payload = some (t.seconds, t.nanos.val) := by
  have few : t.nanos.val < 1000000000 := t.nanos.isLt
  have above : 0 ≤ t.seconds.toInt % 0x10000000000000000 := Int.emod_nonneg _ (by decide)
  have below : t.seconds.toInt % 0x10000000000000000 < 0x10000000000000000 :=
    Int.emod_lt_of_pos _ (by decide)
  unfold payload
  dsimp only
  split
  · rename_i range
    split
    · rename_i small
      rw [fields?_four small]
      obtain zero : t.nanos.val = 0 := by omega
      rw [zero, Nat.zero_mul, Nat.zero_add, ofNat_toNat range.1]
    · rw [fields?_eight (by omega) (by omega), ofNat_toNat range.1]
  · rw [fields?_twelve (by omega) (by omega), ofNat_emod]

/-- **A payload is read back as its timestamp.** -/
theorem ofPayload_payload (t : Timestamp) : ofPayload t.payload = .ok t := by
  unfold ofPayload
  rw [fields?_payload]
  simp only [new?]
  rw [dif_pos t.nanos.isLt]

/-! ## 3. Which payloads are timestamps -/

/-- One of the three lengths, with the nanoseconds of a longer form below a second. -/
def IsPayload (payload : List UInt8) : Prop :=
  payload.length = 4 ∨
    payload.length = 8 ∧ ofBigEndian payload / 0x400000000 < nanosPerSecond ∨
    payload.length = 12 ∧ ofBigEndian (payload.take 4) < nanosPerSecond

/-- A time has less than a second of nanoseconds. -/
theorem new?_isSome (seconds : Int64) {nanos : Nat} :
    (∃ t, new? seconds nanos = some t) ↔ nanos < nanosPerSecond := by
  unfold new?
  split
  · rename_i below
    exact ⟨fun _ => below, fun _ => ⟨_, rfl⟩⟩
  · rename_i above
    exact ⟨nofun, fun below => (above below).elim⟩

theorem ofPayload_of_fields {payload : List UInt8} {seconds : Int64} {nanos : Nat}
    (fields : fields? payload = some (seconds, nanos)) :
    (∃ t, ofPayload payload = .ok t) ↔ nanos < nanosPerSecond := by
  rw [← new?_isSome seconds]
  unfold ofPayload
  rw [fields]
  dsimp only
  cases new? seconds nanos with
  | some t => exact ⟨fun _ => ⟨t, rfl⟩, fun _ => ⟨t, rfl⟩⟩
  | none => exact ⟨nofun, nofun⟩

/-- **A payload is read as a timestamp exactly when it has one of the three forms.** -/
theorem ofPayload_eq_ok_iff (payload : List UInt8) :
    (∃ t, ofPayload payload = .ok t) ↔ IsPayload payload := by
  unfold IsPayload
  by_cases four : payload.length = 4
  · have fields : fields? payload = some (Int64.ofNat (ofBigEndian payload), 0) := by
      unfold fields?
      rw [four]
      rfl
    rw [ofPayload_of_fields fields]
    simp [four]
  by_cases eight : payload.length = 8
  · have fields : fields? payload = some (Int64.ofNat (ofBigEndian payload % 0x400000000),
        ofBigEndian payload / 0x400000000) := by
      unfold fields?
      rw [eight]
      rfl
    rw [ofPayload_of_fields fields]
    simp [eight]
  by_cases twelve : payload.length = 12
  · have fields : fields? payload = some (Int64.ofNat (ofBigEndian (payload.drop 4)),
        ofBigEndian (payload.take 4)) := by
      unfold fields?
      rw [twelve]
      rfl
    rw [ofPayload_of_fields fields]
    simp [twelve]
  · have fields : fields? payload = none := by
      unfold fields?
      split <;> first | contradiction | rfl
    simp [ofPayload, fields, four, eight, twelve]

/-! ## 4. The shortest form -/

variable {t : Timestamp} {payload : List UInt8}

/-- A payload is read as the timestamp of its fields. -/
theorem fields?_of_ofPayload (read : ofPayload payload = .ok t) :
    fields? payload = some (t.seconds, t.nanos.val) := by
  unfold ofPayload at read
  split at read
  · cases read
  · rename_i seconds nanos fields
    split at read
    · rename_i t' made
      cases read
      unfold new? at made
      split at made
      · cases made
        exact fields
      · cases made
    · cases read

/-- The length of a payload, by what it has to hold. -/
theorem length_payload_eq (t : Timestamp) : t.payload.length =
    if t.nanos.val = 0 ∧ 0 ≤ t.seconds.toInt ∧ t.seconds.toInt < 0x100000000 then 4
    else if 0 ≤ t.seconds.toInt ∧ t.seconds.toInt < 0x400000000 then 8
    else 12 := by
  unfold payload
  dsimp only
  by_cases range : 0 ≤ t.seconds.toInt ∧ t.seconds.toInt < 0x400000000
  · rw [if_pos range, if_pos range]
    by_cases few : t.nanos.val * 0x400000000 + t.seconds.toInt.toNat < 0x100000000
    · rw [if_pos few, if_pos (by omega), length_bigEndian]
    · rw [if_neg few, if_neg (by omega), length_bigEndian]
  · rw [if_neg range, if_neg range, if_neg (by omega), List.length_append, length_bigEndian,
      length_bigEndian]

/-- There are three lengths of payload. -/
theorem length_payload (t : Timestamp) :
    t.payload.length = 4 ∨ t.payload.length = 8 ∨ t.payload.length = 12 := by
  rw [length_payload_eq]
  split
  · exact .inl rfl
  · split
    · exact .inr (.inl rfl)
    · exact .inr (.inr rfl)

/-- Seconds of 34 bits make no payload of twelve bytes, and without nanoseconds seconds of 32 bits
make one of four. -/
theorem length_payload_of_small {seconds : Nat} (value : t.seconds = Int64.ofNat seconds)
    (small : seconds < 0x400000000) :
    (t.payload.length = 4 ∨ t.payload.length = 8) ∧
      (t.nanos.val = 0 → seconds < 0x100000000 → t.payload.length = 4) := by
  have whole : t.seconds.toInt = seconds := by
    rw [value, Int64.toInt_ofNat_of_lt (by omega)]
  rw [length_payload_eq, whole]
  refine ⟨?_, fun zero few => if_pos (by omega)⟩
  split
  · exact .inl rfl
  · exact .inr (if_pos (by omega))

/-- **What is written for a timestamp is no longer than what it was read from**, and has one of the
two shorter lengths if it is not as long. -/
theorem length_payload_le (read : ofPayload payload = .ok t) :
    t.payload.length = payload.length ∨
      (t.payload.length = 4 ∨ t.payload.length = 8) ∧ t.payload.length ≤ payload.length := by
  have fields := fields?_of_ofPayload read
  have lt := ofBigEndian_lt payload
  unfold fields? at fields
  split at fields
  · rename_i four
    rw [four] at lt
    obtain ⟨seconds, nanos⟩ := Prod.mk.inj (Option.some.inj fields)
    have small := length_payload_of_small seconds.symm (by omega)
    exact .inl ((small.2 nanos.symm (by omega)).trans four.symm)
  · rename_i eight
    obtain ⟨seconds, -⟩ := Prod.mk.inj (Option.some.inj fields)
    have small := length_payload_of_small seconds.symm (by omega)
    refine .inr ⟨small.1, ?_⟩
    rcases small.1 with e | e <;> omega
  · rename_i twelve
    rcases t.length_payload with e | e | e <;> omega
  · cases fields

end MessagePack.Timestamp
