import MessagePack.Proofs.Decode.Skip
import MessagePack.Proofs.Wire.Shortest
/-!
# Skipping with a counter of 64 bits

`Read.skip` counts what is owed in whole numbers.  A machine counts in a word.  Lengths that follow
a header are added up to the last number of the word and no further, but the small ones that a
header carries itself are added plainly.  What is lost at the last number does no harm, since no
input is that long.  A plain addition behind it does: the program stops there where additions are
checked, and where they are not, the counter starts again from the bottom.

A byte of input brings less than 2^33 / 5 values, so the word is not full before more than 10 GiB
were read.  Nineteen bytes more than that are enough.

Main statements: `Read.skipCounted_eq` and `Read.skipCounted_overflow`.
-/

namespace MessagePack.Read

open Parse Header

/-! ## 1. The loop -/

/-- The last number of a word for all numbers above it. -/
def capped (n : ℕ) : UInt64 := UInt64.ofNat (min n (2 ^ 64 - 1))

/-- The ways to add to a counter: going no further than the last number. -/
def saturating (counter : UInt64) (more : ℕ) : Option UInt64 := some (capped (counter.toNat + more))

/-- Stopping where the sum does not fit. -/
def checked (counter : UInt64) (more : ℕ) : Option UInt64 :=
  if counter.toNat + more < 2 ^ 64 then some (UInt64.ofNat (counter.toNat + more)) else none

/-- Going on from the bottom. -/
def wrapping (counter : UInt64) (more : ℕ) : Option UInt64 :=
  some (UInt64.ofNat (counter.toNat + more))

/-- Adds what a header owes.  Only a length that the header carries itself is added plainly. -/
def owe (plain : UInt64 → ℕ → Option UInt64) (h : Header) (counter : UInt64) (more : ℕ) :
    Option UInt64 :=
  match h with
  | .fixArray _ | .fixMap _ => plain counter more
  | _ => saturating counter more

/-- Consumes a header and what belongs to it alone, and says what it is and how much it owes. -/
def head : Read (Header × ℕ) := do
  let (b, h) ← takeHeader
  let more ← skipBody b h
  return (h, more)

/-- To skip a header is to read it with what it owes. -/
theorem skipHead_eq (c : Cursor) :
    skipHead c =
      match head c with
      | (.ok (_, more), c') => (.ok more, c')
      | (.error f, c') => (.error f, c') := by
  unfold skipHead head
  simp only [run_bind]
  rcases takeHeader c with ⟨_ | ⟨b, h⟩, c₁⟩
  · rfl
  · dsimp only
    rcases skipBody b h c₁ with ⟨_ | more, c₂⟩ <;> rfl

theorem skipHead_of_head {c c' : Cursor} {h : Header} {more : ℕ}
    (run : head c = (.ok (h, more), c')) : skipHead c = (.ok more, c') := by
  rw [skipHead_eq, run]

/-- Consumes as many complete values as are owed; no answer where the program stops. -/
def skipCounted (plain : UInt64 → ℕ → Option UInt64) (counter : UInt64) (c : Cursor) :
    Option (Except Fault Unit × Cursor) :=
  if counter = 0 then some (.ok (), c)
  else
    match _h : head c with
    | (.ok (h, more), c') =>
      (owe plain h (counter - 1) more).bind fun counter => skipCounted plain counter c'
    | (.error f, c') => some (.error f, c')
termination_by c.rest.length
decreasing_by exact skipHead_shrinks (skipHead_of_head _h)

variable {plain other : UInt64 → ℕ → Option UInt64} {counter : UInt64} {c c' : Cursor} {h : Header}
  {more n : ℕ}

/-- Nothing owed, nothing skipped. -/
theorem skipCounted_zero : skipCounted plain 0 c = some (.ok (), c) := by
  rw [skipCounted, if_pos rfl]

/-- A header pays one value and owes others. -/
theorem skipCounted_head (owing : counter ≠ 0) (run : head c = (.ok (h, more), c')) :
    skipCounted plain counter c =
      (owe plain h (counter - 1) more).bind fun counter => skipCounted plain counter c' := by
  rw [skipCounted, if_neg owing]
  split <;> simp_all

theorem skipCounted_refused {f : Fault} (owing : counter ≠ 0) (run : head c = (.error f, c')) :
    skipCounted plain counter c = some (.error f, c') := by
  rw [skipCounted, if_neg owing]
  split <;> simp_all

/-! ## 2. Words -/

theorem toNat_capped (n : ℕ) : (capped n).toNat = min n (2 ^ 64 - 1) := by
  rw [capped, UInt64.toNat_ofNat']
  omega

theorem toNat_sub_one (owing : counter ≠ 0) :
    0 < counter.toNat ∧ (counter - 1).toNat = counter.toNat - 1 := by
  have positive : 0 < counter.toNat :=
    Nat.pos_of_ne_zero fun zero => owing (UInt64.toNat_inj.1 zero)
  exact ⟨positive, UInt64.toNat_sub_of_le _ _ (UInt64.le_iff_toNat_le.2 positive)⟩

theorem capped_ne_zero (owing : 0 < n) : capped n ≠ 0 := by
  intro zero
  have nothing := congrArg UInt64.toNat zero
  rw [toNat_capped, UInt64.toNat_zero] at nothing
  omega

/-- A sum that fits is the same in all ways. -/
theorem checked_eq_some {sum : UInt64} (added : checked counter more = some sum) :
    sum.toNat = counter.toNat + more ∧ saturating counter more = some sum ∧
      wrapping counter more = some sum := by
  unfold checked at added
  split at added
  · rename_i fits
    cases added
    have most : min (counter.toNat + more) (2 ^ 64 - 1) = counter.toNat + more := by omega
    refine ⟨UInt64.toNat_ofNat_of_lt' fits, ?_, rfl⟩
    rw [saturating, capped, most]
  · cases added

theorem owe_mono (agree : ∀ a n sum, plain a n = some sum → other a n = some sum) {sum : UInt64}
    (added : owe plain h counter more = some sum) : owe other h counter more = some sum := by
  cases h with
  | fixArray | fixMap => exact agree _ _ _ added
  | _ => exact added

/-- Saturating addition owes as much as a word can hold. -/
theorem owe_saturating (h : Header) (counter : UInt64) (more : ℕ) :
    owe saturating h counter more = some (capped (counter.toNat + more)) := by
  cases h <;> rfl

/-! ## 3. Against whole numbers -/

/-- Additions that give more answers, but no others, make a loop that does so. -/
theorem skipCounted_mono (agree : ∀ a n sum, plain a n = some sum → other a n = some sum)
    (counter : UInt64) (c : Cursor) {answer : Except Fault Unit × Cursor}
    (run : skipCounted plain counter c = some answer) :
    skipCounted other counter c = some answer := by
  by_cases owing : counter = 0
  · subst owing
    rwa [skipCounted_zero] at run ⊢
  · rcases outcome : head c with ⟨f | ⟨h, more⟩, c'⟩
    · rwa [skipCounted_refused owing outcome] at run ⊢
    · have shorter := skipHead_shrinks (skipHead_of_head outcome)
      rw [skipCounted_head owing outcome] at run ⊢
      obtain ⟨sum, added, run⟩ := Option.bind_eq_some_iff.1 run
      rw [owe_mono agree added]
      exact skipCounted_mono agree sum c' run
termination_by c.rest.length

/-- **What is lost at the last number does no harm.**  The counter is exact, or both it and the
number that it stands for are more than the bytes that are left. -/
theorem skipCounted_saturating (counter : UInt64) (owed : ℕ) (c : Cursor)
    (short : c.rest.length < 2 ^ 64 - 1)
    (stands : counter.toNat = owed ∨ c.rest.length < counter.toNat ∧ c.rest.length < owed) :
    skipCounted saturating counter c = some (skipOwed owed c) := by
  by_cases owing : counter = 0
  · subst owing
    obtain rfl : owed = 0 := by
      rw [UInt64.toNat_zero] at stands
      omega
    rw [skipCounted_zero, skipOwed]
  · obtain ⟨positive, pred⟩ := toNat_sub_one owing
    obtain ⟨owed, rfl⟩ : ∃ n, owed = n + 1 := ⟨owed - 1, by omega⟩
    rw [skipOwed_succ, skipHead_eq]
    rcases outcome : head c with ⟨f | ⟨h, more⟩, c'⟩
    · exact skipCounted_refused owing outcome
    · have shorter := skipHead_shrinks (skipHead_of_head outcome)
      rw [skipCounted_head owing outcome, owe_saturating]
      refine skipCounted_saturating _ (owed + more) c' (by omega) ?_
      rw [toNat_capped, pred]
      omega
termination_by c.rest.length

/-! ## 4. What a byte can bring -/

theorem sound_head : head.parse.Sound fun u r =>
    ∃ b body, u = b :: body ∧ r.1 = ofByte b ∧ r.1.Owes body r.2 := by
  unfold head
  rw [parse_bind]
  refine (sound_header (Q := fun b body r => r.1 = ofByte b ∧ r.1.Owes body r.2)
    fun b => ?_).mono ?_
  · simp only [parse_bind, parse_pure]
    exact (sound_skipBody b (ofByte b)).map fun body more own => ⟨rfl, own⟩
  · rintro u r ⟨b, body, rfl, own⟩
    exact ⟨b, body, rfl, own⟩

/-- A header with a length of 32 bits brings less than 2^33 values in five bytes. -/
theorem owes_le {body : List UInt8} (stands : h.Stands) (own : h.Owes body more) :
    5 * more ≤ 2 ^ 33 * (1 + body.length) := by
  have wide {w : Width} (assigned : w ∈ Family.array.widths) (width : body.length = w.bytes) :
      5 * (2 * ofBigEndian body) ≤ 2 ^ 33 * (1 + body.length) := by
    have fits := Width.ofBigEndian_lt width
    rw [width]
    cases w with
    | w8 | w64 => exact absurd assigned (by decide)
    | w16 | w32 =>
      simp only [Width.span, Width.bytes] at fits ⊢
      omega
  cases flat : h.isContainer with
  | false =>
    obtain rfl := own.eq_zero flat
    omega
  | true =>
    cases h with
    | fixArray n | fixMap n =>
      obtain ⟨rfl, rfl⟩ := own
      have small := n.isLt
      rw [List.length_nil]
      omega
    | array w =>
      obtain ⟨width, rfl⟩ := own
      have twice := wide (Family.assigned_of_stands (f := .array) stands) width
      omega
    | map w =>
      obtain ⟨width, rfl⟩ := own
      exact wide (Family.assigned_of_stands (f := .map) stands) width
    | _ => cases flat

/-- What a header brings is added without stopping as long as bytes are short. -/
theorem owe_checked {body : List UInt8} (own : h.Owes body more)
    (room : 5 * counter.toNat + 2 ^ 33 ≤ 5 * 2 ^ 64) :
    ∃ sum, owe checked h counter more = some sum ∧ sum.toNat ≤ counter.toNat + more := by
  have plainly (small : more ≤ 30) :
      ∃ sum, checked counter more = some sum ∧ sum.toNat ≤ counter.toNat + more := by
    have fits : counter.toNat + more < 2 ^ 64 := by omega
    exact ⟨_, if_pos fits, Nat.le_of_eq (UInt64.toNat_ofNat_of_lt' fits)⟩
  cases h with
  | fixArray n | fixMap n =>
    obtain ⟨-, rfl⟩ := own
    have small := n.isLt
    exact plainly (by omega)
  | _ => exact ⟨_, rfl, by rw [toNat_capped]; omega⟩

/-- **The counter is not full before more than 10 GiB were read.** -/
theorem isSome_skipCounted (counter : UInt64) (c : Cursor)
    (room : 5 * counter.toNat + 2 ^ 33 * c.rest.length ≤ 5 * 2 ^ 64 + 5) :
    ∃ answer, skipCounted checked counter c = some answer := by
  by_cases owing : counter = 0
  · subst owing
    exact ⟨_, skipCounted_zero⟩
  · obtain ⟨positive, pred⟩ := toNat_sub_one owing
    rcases outcome : head c with ⟨f | ⟨h, more⟩, c'⟩
    · exact ⟨_, skipCounted_refused owing outcome⟩
    · have shorter := skipHead_shrinks (skipHead_of_head outcome)
      obtain ⟨_, e, ⟨b, body, rfl, rfl, own⟩, -⟩ :=
        sound_head c (h, more) c' (parse_eq_some.2 outcome)
      have length := congrArg List.length e
      rw [List.length_append, List.length_cons] at length
      have brought := owes_le (stands_ofByte b) own
      have room' : 5 * (counter - 1).toNat + 2 ^ 33 ≤ 5 * 2 ^ 64 := by omega
      obtain ⟨sum, added, most⟩ := owe_checked own room'
      rw [skipCounted_head owing outcome, added]
      exact isSome_skipCounted sum c' (by omega)
termination_by c.rest.length

/-! ## 5. Skipping one value -/

/-- **A value is skipped as if the counter had no end**, of whatever input, if additions stop at the
last number of the counter.  Where short lengths are added plainly, this is so of 10 GiB, and of
all that goes through where these additions are checked. -/
theorem skipCounted_eq (c : Cursor) (short : c.rest.length < 2 ^ 63) :
    skipCounted saturating 1 c = some (skip c) ∧
    (c.rest.length ≤ 10 * 2 ^ 30 → skipCounted checked 1 c = some (skip c)) ∧
    ∀ answer, skipCounted checked 1 c = some answer →
      answer = skip c ∧ skipCounted wrapping 1 c = some answer := by
  have saturated : skipCounted saturating 1 c = some (skip c) :=
    skipCounted_saturating 1 1 c (by omega) (.inl rfl)
  have same {answer : Except Fault Unit × Cursor} (run : skipCounted checked 1 c = some answer) :
      answer = skip c :=
    Option.some.inj
      ((skipCounted_mono (fun _ _ _ sum => (checked_eq_some sum).2.1) 1 c run).symm.trans saturated)
  refine ⟨saturated, fun little => ?_, fun answer run => ⟨same run, ?_⟩⟩
  · obtain ⟨answer, run⟩ := isSome_skipCounted 1 c (by rw [UInt64.toNat_one]; omega)
    rw [run, same run]
  · exact skipCounted_mono (fun _ _ _ sum => (checked_eq_some sum).2.2) 1 c run

/-- An array of two, with a third value behind it. -/
theorem skipCounted_pair :
    let c := Cursor.start [0x92, 0xc0, 0xc3, 0xc2]
    c.rest.length ≤ 10 * 2 ^ 30 ∧ skipCounted checked 1 c = some (skip c) ∧
      skipCounted wrapping 1 c = some (skip c) := by
  intro c
  have little : c.rest.length ≤ 10 * 2 ^ 30 := by decide
  obtain ⟨-, exact', same⟩ := skipCounted_eq c (by decide)
  exact ⟨little, exact' little, (same _ (exact' little)).2⟩

/-! ## 6. The counter at its end -/

/-- The header of the largest map. -/
def largestMap : List UInt8 := [0xdf, 0xff, 0xff, 0xff, 0xff]

/-- So many of these headers in front of an input. -/
def maps (k : ℕ) (rest : List UInt8) : List UInt8 := (List.replicate k largestMap).flatten ++ rest

/-- So many nils in front of an input. -/
def nils (k : ℕ) (rest : List UInt8) : List UInt8 := List.replicate k Header.nil.toByte ++ rest

variable {position k : ℕ} {rest : List UInt8} {trace : Trace}

/-- So many maps, five bytes each. -/
theorem length_maps : (maps k rest).length = 5 * k + rest.length := by
  simp [maps, largestMap, Nat.mul_comm]

/-- And one more in front. -/
theorem maps_succ : maps (k + 1) rest = largestMap ++ maps k rest := by
  simp [maps, List.replicate_succ]

theorem head_largestMap :
    head ⟨position, largestMap ++ rest, trace⟩ =
      (.ok (.map .w32, 2 ^ 33 - 2), ⟨position + 5, rest, trace⟩) := by
  have length : 2 * ofBigEndian largestMap.tail = 2 ^ 33 - 2 := by decide
  rw [← length]
  rfl

/-- A value is taken off and others are added, at the last number too if there are others. -/
theorem saturating_capped (owing : 0 < n) (kept : n < 2 ^ 64 ∨ 0 < more) :
    saturating (capped n - 1) more = some (capped (n - 1 + more)) := by
  refine congrArg some (UInt64.toNat_inj.1 ?_)
  rw [toNat_capped, toNat_capped, (toNat_sub_one (capped_ne_zero owing)).2, toNat_capped]
  omega

theorem skipCounted_maps (owing : 0 < n) :
    skipCounted plain (capped n) ⟨position, maps k rest, trace⟩ =
      skipCounted plain (capped (n + k * (2 ^ 33 - 3))) ⟨position + 5 * k, rest, trace⟩ := by
  induction k generalizing n position with
  | zero => rw [Nat.zero_mul, Nat.mul_zero]; rfl
  | succ k ih =>
    have sum : owe plain (.map .w32) (capped n - 1) (2 ^ 33 - 2) = _ :=
      saturating_capped owing (.inr (by decide))
    have all : n - 1 + (2 ^ 33 - 2) + k * (2 ^ 33 - 3) = n + (k + 1) * (2 ^ 33 - 3) := by omega
    have far : position + 5 + 5 * k = position + 5 * (k + 1) := by omega
    rw [maps_succ, skipCounted_head (capped_ne_zero owing) head_largestMap, sum, Option.bind_some,
      ih (by omega), all, far]

theorem head_nil :
    head ⟨position, Header.nil.toByte :: rest, trace⟩ =
      (.ok (.nil, 0), ⟨position + 1, rest, trace⟩) := rfl

theorem skipCounted_nils (fits : n + k < 2 ^ 64) :
    skipCounted plain (capped (n + k)) ⟨position, nils k rest, trace⟩ =
      skipCounted plain (capped n) ⟨position + k, rest, trace⟩ := by
  induction k generalizing position with
  | zero => rfl
  | succ k ih =>
    have owing : 0 < n + (k + 1) := by omega
    have sum : owe plain .nil (capped (n + (k + 1)) - 1) 0 = some (capped (n + k)) :=
      saturating_capped owing (.inl fits)
    have far : position + 1 + k = position + (k + 1) := by omega
    have front : nils (k + 1) rest = Header.nil.toByte :: nils k rest := rfl
    rw [front, skipCounted_head (capped_ne_zero owing) head_nil, sum, Option.bind_some,
      ih (by omega), far]

/-- **Behind 2^31 + 1 headers of the largest map the counter is at its end, and the array that
follows is added plainly.**  A program that checks the addition stops.  One that does not goes on
with thirteen values owed and is done behind the thirteen nils, where nearly all are missing. -/
theorem skipCounted_overflow :
    let input := maps (2 ^ 31 + 1) ((Header.fixArray 15).toByte :: nils 13 [])
    let last : Cursor := ⟨10737418259, [], {}⟩
    input.length < 2 ^ 63 ∧
      skipCounted checked 1 (.start input) = none ∧
      skipCounted wrapping 1 (.start input) = some (.ok (), last) ∧
      skip (.start input) = (.error (.truncated 1 0), last) := by
  intro input last
  have short : input.length < 2 ^ 63 := by
    rw [length_maps]
    decide
  have behind (plain : UInt64 → ℕ → Option UInt64) : skipCounted plain 1 (.start input) =
      (plain 18446744073709551614 15).bind fun counter =>
        skipCounted plain counter ⟨10737418246, nils 13 [], {}⟩ := by
    have one : (1 : UInt64) = capped 1 := rfl
    have array : head ⟨0 + 5 * (2 ^ 31 + 1), (Header.fixArray 15).toByte :: nils 13 [], {}⟩ =
        (.ok (.fixArray 15, 15), ⟨10737418246, nils 13 [], {}⟩) := rfl
    have atEnd : capped (1 + (2 ^ 31 + 1) * (2 ^ 33 - 3)) - 1 = 18446744073709551614 := rfl
    rw [one, Cursor.start, skipCounted_maps (by decide),
      skipCounted_head (capped_ne_zero (by decide)) array, atEnd]
    rfl
  refine ⟨short, behind checked, ?_, ?_⟩
  · have again : wrapping 18446744073709551614 15 = some (capped (0 + 13)) := rfl
    rw [behind, again, Option.bind_some, skipCounted_nils (by decide)]
    exact skipCounted_zero
  · -- an addition that stays at the end loses nothing, and so tells what is skipped without an end
    have full : saturating 18446744073709551614 15 =
        some (capped (18446744073709551602 + 13)) := rfl
    have missing : skipCounted saturating 1 (.start input) =
        some (.error (.truncated 1 0), last) := by
      rw [behind, full, Option.bind_some, skipCounted_nils (by decide)]
      exact skipCounted_refused (capped_ne_zero (by decide)) rfl
    have endless : skipCounted saturating 1 (.start input) = some (skip (.start input)) :=
      skipCounted_saturating 1 1 _ (Nat.lt_trans short (by decide)) (.inl rfl)
    exact Option.some.inj (endless.symm.trans missing)

end MessagePack.Read
