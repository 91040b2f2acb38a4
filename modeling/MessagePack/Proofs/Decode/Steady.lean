import MessagePack.Codec
import MessagePack.Proofs.Decode.Composed
import MessagePack.Proofs.Decode.Skip
/-!
# Input that comes later

Reading never looks beyond what it needs.  So a run that does not end for want of input goes the
same way when more input stands behind: the same result or fault, the same destination, the same
cursor.  `Read.Steady` and `Decoded.Steady` say so of reads and of runs into a destination; the
single steps have the property and composing keeps it.

Two things follow for whole operations.  What was accepted has an end of its own: with more input
it is refused for the excess alone, and cut short anywhere it is refused for want of input.  And a
refusal for any other cause is final.

Main statement: `Codec.decodeInto_append`.
-/

namespace MessagePack

/-! ## 1. Cursors with more behind -/

namespace Cursor

/-- The cursor with more input behind. -/
def extend (c : Cursor) (more : List UInt8) : Cursor := { c with rest := c.rest ++ more }

/-- What is taken before may be taken after more input has come. -/
theorem extend_advance {c : Cursor} {k : Nat} (enough : k ≤ c.rest.length) (more : List UInt8) :
    (c.extend more).advance k = (c.advance k).extend more := by
  simp only [advance, extend, List.drop_append_of_le_length enough]

end Cursor

/-- The fault that input is wanting. -/
def Fault.isTruncated : Fault → Bool
  | .truncated .. => true
  | _ => false

/-- Whether an outcome is the fault that input is wanting. -/
def isShort {α : Type} : Except Fault α → Bool
  | .error f => f.isTruncated
  | .ok _ => false

theorem exists_of_isShort {α : Type} {outcome : Except Fault α} (short : isShort outcome = true) :
    ∃ needed remaining, outcome = .error (.truncated needed remaining) := by
  rcases outcome with f | a
  · cases f with
    | truncated needed remaining => exact ⟨needed, remaining, rfl⟩
    | _ => cases short
  · cases short

/-! ## 2. Steady reads -/

namespace Read

variable {α β : Type} {r : Read α} {next : α → Read β}

/-- Unless input is wanting, the read does the same with more input behind. -/
def Steady (r : Read α) : Prop :=
  ∀ c more, isShort (r c).1 = true ∨ r (c.extend more) = ((r c).1, (r c).2.extend more)

/-- What does not look is steady. -/
theorem steady_pure (a : α) : Steady (pure a : Read α) := fun _ _ => .inr rfl

/-- And so is what fails at once. -/
theorem steady_fail (f : Fault) : Steady (fail f : Read α) := fun _ _ => .inr rfl

/-- Steady reads in a row are steady: if the first is not short, the second begins where it did. -/
theorem Steady.bind (hr : Steady r) (hn : ∀ a, Steady (next a)) : Steady (r >>= next) := by
  intro c more
  rw [run_bind, run_bind]
  have first := hr c more
  rcases e : r c with ⟨f | a, c'⟩
  · rw [e] at first
    rcases first with short | same
    · exact .inl short
    · rw [same]
      exact .inr rfl
  · rw [e] at first
    rcases first with short | same
    · cases short
    · rw [same]
      exact hn a c' more

/-- A byte that is there stays there. -/
theorem steady_takeByte : Steady takeByte := by
  rintro ⟨position, rest, known⟩ more
  cases rest with
  | nil => exact .inl rfl
  | cons b rest => exact .inr rfl

/-- Also if it is only looked at. -/
theorem steady_peekByte : Steady peekByte := by
  rintro ⟨position, rest, known⟩ more
  cases rest with
  | nil => exact .inl rfl
  | cons b rest => exact .inr rfl

/-- And so do many. -/
theorem steady_takeMany (n : Nat) : Steady (takeMany n) := by
  intro c more
  by_cases enough : (c.rest.take n).length = n
  · have le : n ≤ c.rest.length := by
      rw [List.length_take] at enough
      omega
    have same : (c.extend more).rest.take n = c.rest.take n := List.take_append_of_le_length le
    refine .inr ?_
    simp only [takeMany, same, if_pos enough, Cursor.extend_advance le]
  · simp only [takeMany, if_neg enough]
    exact .inl rfl

/-- A fault names a place that later input does not move. -/
theorem steady_located {r : Nat → Read α} (each : ∀ place, Steady (r place)) :
    Steady fun c => r c.position c :=
  fun c more => each c.position c more

/-- A header that is there, with its body, is skipped the same. -/
theorem steady_skipHead : Steady skipHead := by
  have unsigned : ∀ w, Steady (takeUnsigned w) := fun w =>
    (steady_takeMany _).bind fun _ => steady_pure _
  have fixed : ∀ n : Nat, Steady (do let _ ← takeMany n; return 0 : Read Nat) := fun n =>
    (steady_takeMany n).bind fun _ => steady_pure 0
  refine (steady_takeByte.bind fun _ => steady_pure _).bind ?_
  rintro ⟨b, h⟩
  cases h with
  | nil | bool | posFix | negFix | fixArray | fixMap => exact steady_pure _
  | uint | int | single | double | fixText | fixExt => exact fixed _
  | text w | bin w => exact (unsigned w).bind fixed
  | ext w => exact (unsigned w).bind fun n => fixed (1 + n)
  | array w => exact unsigned w
  | map w => exact (unsigned w).bind fun _ => steady_pure _
  | unused => exact steady_fail _

/-- Values owed are skipped in turn, each from where the one before it ended. -/
theorem steady_skipOwed (owed : Nat) (c : Cursor) (more : List UInt8) :
    isShort (skipOwed owed c).1 = true ∨
      skipOwed owed (c.extend more) = ((skipOwed owed c).1, (skipOwed owed c).2.extend more) := by
  match owed with
  | 0 =>
    rw [skipOwed, skipOwed]
    exact .inr rfl
  | owed + 1 =>
    have head := steady_skipHead c more
    rw [skipOwed_succ, skipOwed_succ]
    rcases e : skipHead c with ⟨f | n, c'⟩
    · rw [e] at head
      rcases head with short | same
      · exact .inl short
      · rw [same]
        exact .inr rfl
    · rw [e] at head
      rcases head with short | same
      · cases short
      · -- the recursion is on what is left of the input
        have shorter := skipHead_shrinks e
        rw [same]
        exact steady_skipOwed (owed + n) c' more
termination_by c.rest.length

/-- The trace does not look at the input, so neither does counting levels. -/
theorem Steady.nested (hr : Steady r) : Steady r.nested := by
  intro c more
  have inner := hr (c.retrace .down) more
  unfold Read.nested
  rcases inner with short | same
  · exact .inl short
  · exact .inr (congrArg (fun e : Except Fault α × Cursor => (e.1, e.2.retrace .up)) same)

theorem Composed.steady {n : ℕ} (composed : r.Composed n) : Steady r := by
  induction composed with
  | pure a => exact steady_pure a
  | fail f => exact steady_fail f
  | peekByte => exact steady_peekByte
  | takeByte => exact steady_takeByte
  | takeMany n => exact steady_takeMany n
  | skip => exact steady_skipOwed 1
  | bind _ _ first then' => exact first.bind then'
  | located _ each => exact steady_located each
  | nested _ inner => exact inner.nested

end Read

/-! ## 3. Steady runs into a destination -/

namespace Decoded

variable {run first : Cursor → Decoded}

/-- Unless input is wanting, the run does the same with more input behind. -/
def Steady (run : Cursor → Decoded) : Prop :=
  ∀ c more, isShort (run c).outcome = true ∨
    run (c.extend more) = ⟨(run c).outcome, (run c).dest, (run c).cursor.extend more⟩

theorem steady_afterRead {α : Type} {r : Read α} {next : α → Cursor → Decoded} {left : Datum}
    (hr : r.Steady) (hn : ∀ a, Steady (next a)) : Steady (afterRead r left next) := by
  intro c more
  have read := hr c more
  unfold afterRead
  rcases e : r c with ⟨f | a, c'⟩
  · rw [e] at read
    rcases read with short | same
    · exact .inl short
    · rw [same]
      exact .inr rfl
  · rw [e] at read
    rcases read with short | same
    · cases short
    · rw [same]
      exact hn a c' more

theorem steady_afterRun {next : Datum → Cursor → Decoded} {left : Datum → Datum}
    (hf : Steady first) (hn : ∀ x, Steady (next x)) : Steady (afterRun first left next) := by
  intro c more
  have run := hf c more
  unfold afterRun
  rcases e : first c with ⟨f | _, x, c'⟩
  · rw [e] at run
    rcases run with short | same
    · exact .inl short
    · rw [same]
      exact .inr rfl
  · rw [e] at run
    rcases run with short | same
    · cases short
    · rw [same]
      exact hn x c' more

theorem Steady.nested (hr : Steady run) : Steady (nested run) := by
  intro c more
  rcases hr (c.retrace .down) more with short | same
  · exact .inl short
  · exact .inr (congrArg (fun r : Decoded => { r with cursor := r.cursor.retrace .up }) same)

theorem Composed.steady {n : ℕ} (composed : Composed run n) : Steady run := by
  induction composed with
  | ended outcome d => exact fun _ _ => .inr rfl
  | afterRead left read _ then' => exact steady_afterRead read.steady then'
  | afterRun left _ _ run then' => exact steady_afterRun run then'
  | consult id _ run => exact fun c more => run (c.consult id) more
  | overflow os _ run => exact fun c more => run (c.overflow os) more
  | nested _ run => exact run.nested

end Decoded

/-! ## 4. Whole operations -/

namespace Datum

variable (cx : Context) (n : Nat) (t : Ty) (d : Datum) (b s : List UInt8)

/-- Unless input is wanting, a reader leaves more input behind as it is. -/
theorem read_start_append : isShort (read cx n t d (.start b)).outcome = true ∨
    read cx n t d (.start (b ++ s)) =
      ⟨(read cx n t d (.start b)).outcome, (read cx n t d (.start b)).dest,
        (read cx n t d (.start b)).cursor.extend s⟩ :=
  (composed_read cx n t d).steady (.start b) s

end Datum

namespace Codec

variable {c : Codec} {t : Ty} {d : Datum} {mode : Mode} {b s : List UInt8} {f : Fault}

/-- Decoding is accepted exactly when reading is and leaves nothing over. -/
theorem decodeInto_eq_ok : (c.decodeInto t d b mode).1 = .ok () ↔
    (d.read (c.context mode) maxDepth t (.start b)).outcome = .ok () ∧
      (d.read (c.context mode) maxDepth t (.start b)).cursor.rest = [] := by
  unfold decodeInto settle reading finish
  dsimp only
  rcases d.read (c.context mode) maxDepth t (.start b) with ⟨f | _, x, position, rest, known⟩
  · simp
  · cases rest <;> simp

/-- What was left over stays so. -/
theorem decodeInto_of_excess {x : Datum} {cursor : Cursor}
    (run : d.read (c.context mode) maxDepth t (.start b) = ⟨.ok (), x, cursor⟩)
    (excess : cursor.rest ≠ []) :
    (c.decodeInto t d b mode).1 = .error (.trailing cursor.rest.length) ∧
      (c.decodeInto t d b mode).2.1 = x := by
  unfold decodeInto settle reading finish
  dsimp only
  rw [run]
  obtain ⟨position, rest, known⟩ := cursor
  cases rest with
  | nil => exact absurd rfl excess
  | cons b rest => exact ⟨rfl, rfl⟩

/-- More input behind an accepted one is left over. -/
theorem decodeInto_append_of_ok (accepted : (c.decodeInto t d b mode).1 = .ok ()) (more : s ≠ []) :
    (c.decodeInto t d (b ++ s) mode).1 = .error (.trailing s.length) ∧
      (c.decodeInto t d (b ++ s) mode).2.1 = (c.decodeInto t d b mode).2.1 := by
  obtain ⟨ok, ended⟩ := decodeInto_eq_ok.1 accepted
  rcases Datum.read_start_append (c.context mode) maxDepth t d b s with short | same
  · rw [ok] at short
    cases short
  · rw [ok] at same
    have rest : ((d.read (c.context mode) maxDepth t (.start b)).cursor.extend s).rest = s := by
      rw [Cursor.extend, ended, List.nil_append]
    have excess := decodeInto_of_excess same (by rwa [rest])
    rwa [rest] at excess

/-- An accepted input that is cut short anywhere lacks input. -/
theorem decodeInto_of_append_ok (accepted : (c.decodeInto t d (b ++ s) mode).1 = .ok ())
    (more : s ≠ []) :
    ∃ needed remaining, (c.decodeInto t d b mode).1 = .error (.truncated needed remaining) := by
  obtain ⟨ok, ended⟩ := decodeInto_eq_ok.1 accepted
  rcases Datum.read_start_append (c.context mode) maxDepth t d b s with short | same
  · obtain ⟨needed, remaining, wanting⟩ := exists_of_isShort short
    refine ⟨needed, remaining, ?_⟩
    unfold decodeInto settle reading
    dsimp only
    rw [wanting]
  · rw [same] at ended
    exact absurd (List.append_eq_nil_iff.1 ended).2 more

/-- A refusal for any cause but the length of the input is final. -/
theorem decodeInto_append_of_error (refused : (c.decodeInto t d b mode).1 = .error f)
    (enough : f.isTruncated = false) (sized : ∀ remaining, f ≠ .trailing remaining) :
    (c.decodeInto t d (b ++ s) mode).1 = .error f ∧
      (c.decodeInto t d (b ++ s) mode).2.1 = (c.decodeInto t d b mode).2.1 := by
  have run := Datum.read_start_append (c.context mode) maxDepth t d b s
  unfold decodeInto settle reading at refused ⊢
  dsimp only at refused ⊢
  rcases e : d.read (c.context mode) maxDepth t (.start b) with ⟨f' | _, x, cursor⟩
  · rw [e] at refused run
    cases refused
    rcases run with short | same
    · exact absurd (short.symm.trans enough) (by decide)
    · rw [same]
      exact ⟨rfl, rfl⟩
  · -- reading succeeded, so the refusal is for what it left over
    rw [e] at refused
    dsimp only [finish] at refused
    split at refused
    · cases refused
    · cases refused
      exact absurd rfl (sized _)

variable (c t d mode b s)

/-- **What is accepted ends of its own, and what is refused stays refused.**  An accepted input is
refused for the excess alone when more stands behind it, with the destination as it was accepted.
Cut short anywhere it is refused for want of input.  Any other refusal is final: with more input
behind it is the same refusal and leaves the same destination. -/
theorem decodeInto_append :
    ((c.decodeInto t d b mode).1 = .ok () → s ≠ [] →
      (c.decodeInto t d (b ++ s) mode).1 = .error (.trailing s.length) ∧
        (c.decodeInto t d (b ++ s) mode).2.1 = (c.decodeInto t d b mode).2.1) ∧
    ((c.decodeInto t d (b ++ s) mode).1 = .ok () → s ≠ [] →
      ∃ needed remaining, (c.decodeInto t d b mode).1 = .error (.truncated needed remaining)) ∧
    ∀ f, (c.decodeInto t d b mode).1 = .error f →
      (∀ needed remaining, f ≠ .truncated needed remaining) →
      (∀ remaining, f ≠ .trailing remaining) →
      (c.decodeInto t d (b ++ s) mode).1 = .error f ∧
        (c.decodeInto t d (b ++ s) mode).2.1 = (c.decodeInto t d b mode).2.1 := by
  refine ⟨decodeInto_append_of_ok, decodeInto_of_append_ok, ?_⟩
  intro f refused enough sized
  refine decodeInto_append_of_error refused ?_ sized
  cases f with
  | truncated needed remaining => exact absurd rfl (enough needed remaining)
  | _ => rfl

/-- A map from texts to truth values: a whole one in front of another byte, and one whose key is an
array. -/
theorem decodeInto_append_bools :
    let c := Codec.fresh { records := [] }
    let t : Ty := .map .sorted .text .bool
    (c.decodeInto t (.map []) ([0x81, 0xa1, 97, 0xc3] ++ [0xc0]) .named).1 =
        .error (.trailing 1) ∧
      (c.decodeInto t (.map []) ([0x81, 0xa1, 97, 0xc3] ++ [0xc0]) .named).2.1 =
        .map [(.text "a", .bool true)] ∧
      (∃ needed remaining, (c.decodeInto t (.map []) [0x81, 0xa1, 97] .named).1 =
        .error (.truncated needed remaining)) ∧
      ∀ s, (c.decodeInto t (.map [(.text "b", .bool true)]) ([0x81, 0x90] ++ s) .named).1 =
          .error (.structuralKey 0x90) ∧
        (c.decodeInto t (.map [(.text "b", .bool true)]) ([0x81, 0x90] ++ s) .named).2.1 =
          .map [] := by
  intro c t
  have accepted : (c.decodeInto t (.map []) [0x81, 0xa1, 97, 0xc3] .named).1 = .ok () := rfl
  have left : (c.decodeInto t (.map []) [0x81, 0xa1, 97, 0xc3] .named).2.1 =
      .map [(.text "a", .bool true)] := rfl
  have refused : (c.decodeInto t (.map [(.text "b", .bool true)]) [0x81, 0x90] .named).1 =
      .error (.structuralKey 0x90) := rfl
  have emptied : (c.decodeInto t (.map [(.text "b", .bool true)]) [0x81, 0x90] .named).2.1 =
      .map [] := rfl
  obtain ⟨excess, kept⟩ := (decodeInto_append c t (.map []) .named [0x81, 0xa1, 97, 0xc3] [0xc0]).1
    accepted (by decide)
  have cut := (decodeInto_append c t (.map []) .named [0x81, 0xa1, 97] [0xc3]).2.1 accepted
    (by decide)
  refine ⟨excess, kept.trans left, cut, fun s => ?_⟩
  obtain ⟨same, kept⟩ := (decodeInto_append c t (.map [(.text "b", .bool true)]) .named
    [0x81, 0x90] s).2.2 _ refused (by rintro _ _ ⟨⟩) (by rintro _ ⟨⟩)
  exact ⟨same, kept.trans emptied⟩

end Codec

end MessagePack
