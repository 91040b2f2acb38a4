import MessagePack.Decode.Calls
import MessagePack.Proofs.Decode.Composed
import MessagePack.Proofs.Decode.Skip
/-!
# Calls in any order

A cursor may be asked for anything at any time, after a fault too and on any level.  Whatever is
asked of it, it stands in the input, moves forward or stays, and comes back up from every level that
it went down.

Every read is composed of single steps, and these only move forward; so does everything that is
composed of them.  Whoever goes down a level counts it up in the trace, and down again behind the
body however that ended, so the depth is restored step by step as well: in a read into a destination
just as in calls that were made further down by hand.

`Decoder.trail` gives every cursor that a call has on its way, those on deeper levels included, so
that all of this can be said of the whole way and not of its end alone.

Main statement: `Decoder.invariants`.
-/

namespace MessagePack

/-! ## 1. Reads -/

namespace Cursor

/-- A cursor that has moved over some of the unread bytes. -/
def Reaches (c c' : Cursor) : Prop :=
  ∃ k, k ≤ c.rest.length ∧ c'.position = c.position + k ∧ c'.rest = c.rest.drop k

/-- Such a cursor at the same depth.  Layouts may have been looked up. -/
structure Onward (c c' : Cursor) : Prop where
  reaches : c.Reaches c'
  depth_eq : c'.trace.depth = c.trace.depth

variable {c c' c'' : Cursor}

/-- Nothing needs to be taken. -/
theorem Reaches.refl (c : Cursor) : c.Reaches c := ⟨0, Nat.zero_le _, rfl, rfl⟩

/-- What is taken adds up. -/
theorem Reaches.trans (first : c.Reaches c') (second : c'.Reaches c'') : c.Reaches c'' := by
  obtain ⟨j, hj, position, rest⟩ := first
  obtain ⟨k, hk, position', rest'⟩ := second
  rw [rest, List.length_drop] at hk
  refine ⟨j + k, by omega, by omega, ?_⟩
  rw [rest', rest, List.drop_drop]

/-- And the position only grows. -/
theorem Reaches.position_le (reaches : c.Reaches c') : c.position ≤ c'.position := by
  obtain ⟨k, -, position, -⟩ := reaches
  omega

/-- Nothing needs to be done. -/
theorem Onward.refl (c : Cursor) : c.Onward c := ⟨.refl c, rfl⟩

/-- What is done adds up. -/
theorem Onward.trans (first : c.Onward c') (second : c'.Onward c'') : c.Onward c'' :=
  ⟨first.reaches.trans second.reaches, second.depth_eq.trans first.depth_eq⟩

/-- As long as there is input, it may be taken. -/
theorem Onward.advance {k : ℕ} (enough : k ≤ c.rest.length) : c.Onward (c.advance k) :=
  ⟨⟨k, enough, rfl, rfl⟩, rfl⟩

/-- What moves on one level further down moves on, once it is back up. -/
theorem Onward.nested (inner : (c.retrace .down).Onward c') : c.Onward (c'.retrace .up) := by
  refine ⟨inner.reaches, ?_⟩
  change c'.trace.depth - 1 = _
  rw [inner.depth_eq]
  exact Nat.add_sub_cancel _ _

end Cursor

namespace Read

variable {α : Type} {r : Read α}

/-- A byte is taken, if there is one. -/
theorem advances_takeByte : Advances takeByte := by
  rintro ⟨position, rest, consulted⟩
  cases rest with
  | nil => exact ⟨0, Nat.zero_le _, (Cursor.advance_zero _).symm⟩
  | cons b rest => exact ⟨1, by simp, rfl⟩

/-- A look takes nothing. -/
theorem advances_peekByte : Advances peekByte := by
  rintro ⟨position, rest, consulted⟩
  refine ⟨0, Nat.zero_le _, ?_⟩
  cases rest <;> rfl

/-- A header with its body is taken as far as it is there. -/
theorem advances_skipHead : Advances skipHead :=
  (advances_takeByte.bind fun _ => advances_return _).bind fun bh => advances_skipBody bh.1 bh.2

/-- Values owed are skipped in turn, each from where the one before it ended. -/
theorem advances_skipOwed (owed : ℕ) (c : Cursor) :
    ∃ k, k ≤ c.rest.length ∧ (skipOwed owed c).2 = c.advance k := by
  match owed with
  | 0 =>
    rw [skipOwed]
    exact ⟨0, Nat.zero_le _, (Cursor.advance_zero c).symm⟩
  | owed + 1 =>
    obtain ⟨j, hj, moved⟩ := advances_skipHead c
    rw [skipOwed_succ]
    rcases e : skipHead c with ⟨f | more, c'⟩
    · rw [e] at moved
      exact ⟨j, hj, moved⟩
    · -- at least the header's byte is gone, which the recursion goes down by
      have shorter := skipHead_shrinks e
      rw [e] at moved
      obtain rfl : c' = c.advance j := moved
      obtain ⟨k, hk, later⟩ := advances_skipOwed (owed + more) (c.advance j)
      simp only [Cursor.advance, List.length_drop] at hk
      exact ⟨j + k, by omega, by rw [later, Cursor.advance_advance]⟩
termination_by c.rest.length

theorem Advances.onward (advances : Advances r) (c : Cursor) : c.Onward (r c).2 := by
  obtain ⟨k, enough, moved⟩ := advances c
  rw [moved]
  exact .advance enough

/-- **Whatever is composed of single steps moves forward and comes back to its depth.** -/
theorem Composed.onward {n : ℕ} (composed : r.Composed n) (c : Cursor) : c.Onward (r c).2 := by
  induction composed generalizing c with
  | pure | fail => exact .refl c
  | peekByte => exact advances_peekByte.onward c
  | takeByte => exact advances_takeByte.onward c
  | takeMany n => exact (advances_takeMany n).onward c
  | skip => exact Advances.onward (advances_skipOwed 1) c
  | @bind _ _ _ r next _ _ first then' =>
    have moved := first c
    rw [run_bind]
    -- Behind a fault nothing more is read.
    rcases e : r c with ⟨f | a, c'⟩
    · rw [e] at moved
      exact moved
    · rw [e] at moved
      exact moved.trans (then' a c')
  | located _ each => exact each c.position c
  | nested _ inner => exact (inner (c.retrace .down)).nested

/-- Looking ahead consumes nothing. -/
theorem peekHeader_stays (c : Cursor) : (peekHeader c).2 = c := by
  obtain ⟨position, rest, consulted⟩ := c
  cases rest <;> rfl

/-- Not even a look at a key takes anything. -/
theorem checkKey_stays (c : Cursor) : (checkKey c).2 = c := by
  obtain ⟨position, rest, consulted⟩ := c
  cases rest with
  | nil => rfl
  | cons b rest =>
    change ((if (Header.ofByte b).isContainer then fail (.structuralKey b) else return () :
      Read Unit)
      ⟨position, b :: rest, consulted⟩).2 = _
    split <;> rfl

/-- Only a nil is consumed. -/
theorem tryNil_stays {c : Cursor} (other : (tryNil c).1 ≠ .ok true) : (tryNil c).2 = c := by
  obtain ⟨position, rest, consulted⟩ := c
  cases rest with
  | nil => rfl
  | cons b rest =>
    have looked : tryNil ⟨position, b :: rest, consulted⟩ =
        (if b = Header.nil.toByte then takeByte >>= fun _ => return true
          else return false : Read Bool)
          ⟨position, b :: rest, consulted⟩ := rfl
    rw [looked] at other ⊢
    split at other
    · exact absurd rfl other
    · rename_i different
      rw [if_neg different]
      rfl

end Read

namespace Decoded

variable {run : Cursor → Decoded}

theorem Composed.onward {n : ℕ} (composed : Composed run n) (c : Cursor) :
    c.Onward (run c).cursor := by
  induction composed generalizing c with
  | ended outcome d => exact .refl c
  | afterRead left read _ then' =>
    have first := read.onward c
    unfold Decoded.afterRead
    split
    · rename_i a c' e
      rw [e] at first
      exact first.trans (then' a c')
    · rename_i f c' e
      rw [e] at first
      exact first
  | afterRun left _ _ run then' =>
    have first := run c
    unfold Decoded.afterRun
    split
    · rename_i x c' e
      rw [e] at first
      exact first.trans (then' x c')
    · rename_i f x c' e
      rw [e] at first
      exact first
  | consult id _ run => exact ⟨(run (c.consult id)).reaches, (run (c.consult id)).depth_eq⟩
  | overflow os _ run => exact ⟨(run (c.overflow os)).reaches, (run (c.overflow os)).depth_eq⟩
  | nested _ inner => exact (inner (c.retrace .down)).nested

end Decoded

namespace Decoder

/-! ## 2. Calls -/

variable {cx : Context} {input : List UInt8} {c c' mid : Cursor}

/-- An answer is a read with its result named. -/
theorem onward_answer {α : Type} {n : ℕ} {r : Read α} (composed : r.Composed n) (give : α → Answer)
    (c : Cursor) : c.Onward (answer r give c).2 :=
  (composed.bind fun a => .pure (give a)).onward c

/-- Coming back up undoes going down, wherever the body stopped. -/
theorem onward_down {body : Read Answer} (inside : ∀ c : Cursor, c.Onward (body c).2) (levels : ℕ)
    (c : Cursor) : c.Onward (down body levels c).2 := by
  induction levels generalizing c with
  | zero => exact inside c
  | succ levels ih =>
    unfold down
    split
    · exact .refl c
    · exact (ih (c.retrace .down)).nested

mutual

/-- **A call moves forward and comes back to its depth**, whatever it is and however it ends. -/
theorem onward_call (cx : Context) : ∀ (asked : Call) (c : Cursor), c.Onward (call cx asked c).2
  | .mode, c => .refl c
  | .peekHeader, c => onward_answer (n := 0) .peekHeader _ c
  | .takeHeader, c => onward_answer (n := 0) .takeHeader _ c
  | .tryNil, c => onward_answer (n := 0) .tryNil _ c
  | .bool, c => onward_answer (n := 0) .bool _ c
  | .number k, c => onward_answer (n := 0) (.number k) _ c
  | .narrowed k t, c => onward_answer (n := 0) ((Read.Composed.number k).bind (.narrow t k)) _ c
  | .raw k, c => onward_answer (n := 0) (.raw k) _ c
  | .text, c => onward_answer (n := 0) .text _ c
  | .arrayLength k, c => onward_answer (n := 0) (.arrayLength k) _ c
  | .mapLength k, c => onward_answer (n := 0) (.mapLength k) _ c
  | .checkKey, c => onward_answer (n := 0) .checkKey _ c
  | .skip, c => onward_answer (n := 0) .skip _ c
  | .ext k, c => onward_answer (n := 0) (.ext k) _ c
  | .takeMany n, c => onward_answer (n := 0) (.takeMany n) _ c
  | .datum t x, c => (Datum.composed_read cx (maxDepth - c.trace.depth) t x).onward c
  | .nested levels calls, c => onward_down (fun c => onward_callEach cx calls c) levels c

theorem onward_callEach (cx : Context) :
    ∀ (calls : List Call) (c : Cursor), c.Onward (callEach cx calls c).2
  | [], c => .refl c
  | asked :: later, c =>
    (onward_call cx asked c).trans (onward_callEach cx later (call cx asked c).2)

end

/-! ## 3. The whole way -/

/-- Every cursor on the way down so many levels, and those of `body` on the last of them. -/
def downTrail (body : Cursor → List Cursor) : ℕ → Cursor → List Cursor
  | 0, c => body c
  | levels + 1, c =>
    if maxDepth ≤ c.trace.depth then []
    else
      let below := c.retrace .down
      below :: downTrail body levels below

mutual

/-- Every cursor that a call has on its way, in order: those between the calls that it makes on
deeper levels, and the one that it ends with. -/
def trail (cx : Context) : Call → Cursor → List Cursor
  | .nested levels calls, c =>
    downTrail (fun c => trailEach cx calls c) levels c ++ [(call cx (.nested levels calls) c).2]
  | asked, c => [(call cx asked c).2]

/-- Every cursor that calls one after another have on their way. -/
def trailEach (cx : Context) : List Call → Cursor → List Cursor
  | [], _ => []
  | asked :: later, c => trail cx asked c ++ trailEach cx later (call cx asked c).2

end

/-- A way that leads from one place of an input to another: forward all along, and nowhere deeper
than there are levels if it does not start there. -/
structure Way (c : Cursor) (way : List Cursor) (c' : Cursor) : Prop where
  reached : ∀ x ∈ way, c.Reaches x ∧ x.Reaches c'
  ordered : way.Pairwise Cursor.Reaches
  shallow : c.trace.depth ≤ maxDepth → ∀ x ∈ way, x.trace.depth ≤ maxDepth

namespace Way

variable {way later : List Cursor}

theorem nil (c c' : Cursor) : Way c [] c' := ⟨nofun, .nil, fun _ => nofun⟩

theorem append (first : Way c way mid) (second : Way mid later c') (start : c.Onward mid)
    (last : mid.Onward c') : Way c (way ++ later) c' where
  reached x mem := by
    rcases List.mem_append.1 mem with early | late
    · obtain ⟨front, behind⟩ := first.reached x early
      exact ⟨front, behind.trans last.reaches⟩
    · obtain ⟨front, behind⟩ := second.reached x late
      exact ⟨start.reaches.trans front, behind⟩
  ordered := List.pairwise_append.2 ⟨first.ordered, second.ordered, fun x early y late =>
    (first.reached x early).2.trans (second.reached y late).1⟩
  shallow bound x mem := by
    rcases List.mem_append.1 mem with early | late
    · exact first.shallow bound x early
    · exact second.shallow (by rw [start.depth_eq]; exact bound) x late

theorem single (start : c.Onward c') : Way c [c'] c' where
  reached x mem := by
    obtain rfl := List.mem_singleton.1 mem
    exact ⟨start.reaches, .refl _⟩
  ordered := List.pairwise_singleton _ _
  shallow bound x mem := by
    obtain rfl := List.mem_singleton.1 mem
    rw [start.depth_eq]
    exact bound

/-- A way one level further down, with the cursor that it starts from. -/
theorem descend (below : Way (c.retrace .down) way mid) (moved : (c.retrace .down).Onward mid)
    (room : c.trace.depth < maxDepth) :
    Way c (c.retrace .down :: way) (mid.retrace .up) where
  reached x mem := by
    rcases List.mem_cons.1 mem with rfl | later
    · exact ⟨.refl _, moved.reaches⟩
    · exact below.reached x later
  ordered := List.pairwise_cons.2 ⟨fun x later => (below.reached x later).1, below.ordered⟩
  shallow _ x mem := by
    rcases List.mem_cons.1 mem with rfl | later
    · exact room
    · exact below.shallow room x later

end Way

theorem way_down {trail : Cursor → List Cursor} {body : Read Answer}
    (onward : ∀ c : Cursor, c.Onward (body c).2) (inside : ∀ c, Way c (trail c) (body c).2)
    (levels : ℕ) (c : Cursor) : Way c (downTrail trail levels c) (down body levels c).2 := by
  induction levels generalizing c with
  | zero => exact inside c
  | succ levels ih =>
    unfold downTrail down
    -- at the limit nothing is called, and nothing stands on the way
    split
    · exact .nil _ _
    · rename_i full
      have moved := onward_down onward levels (c.retrace .down)
      exact (ih (c.retrace .down)).descend moved (Nat.lt_of_not_le full)

mutual

/-- Every call goes its way. -/
theorem way_call (cx : Context) (asked : Call) (c : Cursor) :
    Way c (trail cx asked c) (call cx asked c).2 := by
  have moved := onward_call cx asked c
  cases asked with
  | nested levels calls =>
    have below : Way c (downTrail (fun c => trailEach cx calls c) levels c)
        (call cx (.nested levels calls) c).2 :=
      way_down (fun c => onward_callEach cx calls c) (fun c => way_callEach cx calls c) levels c
    rw [trail]
    exact below.append (.single (.refl _)) moved (.refl _)
  | _ => exact .single moved

theorem way_callEach (cx : Context) :
    ∀ (calls : List Call) (c : Cursor), Way c (trailEach cx calls c) (callEach cx calls c).2
  | [], c => .nil _ _
  | asked :: later, c => by
    rw [trailEach]
    exact (way_call cx asked c).append (way_callEach cx later (call cx asked c).2)
      (onward_call cx asked c) (onward_callEach cx later (call cx asked c).2)

end

/-- The end of a call is on its way. -/
theorem mem_trail (cx : Context) (asked : Call) (c : Cursor) :
    (call cx asked c).2 ∈ trail cx asked c := by
  cases asked with
  | nested levels calls => exact List.mem_append_right _ (List.mem_singleton_self _)
  | _ => exact List.mem_singleton_self _

/-- What is reported after each call is where a cursor on the way stands. -/
theorem report_of_mem {calls : List Call} {c : Cursor} {report : Report}
    (mem : report ∈ (callEach cx calls c).1) :
    ∃ x ∈ trailEach cx calls c, report.2 = (x.position, x.rest.length) := by
  induction calls generalizing c with
  | nil => cases mem
  | cons asked later ih =>
    rw [trailEach]
    rcases List.mem_cons.1 mem with rfl | behind
    · exact ⟨_, List.mem_append_left _ (mem_trail cx asked c), rfl⟩
    · obtain ⟨x, there, e⟩ := ih behind
      exact ⟨x, List.mem_append_right _ there, e⟩

end Decoder

/-! ## 4. Cursors in an input -/

namespace Cursor

variable {input : List UInt8} {c c' : Cursor}

/-- A cursor that stands in an input, no deeper than there are levels. -/
structure Within (input : List UInt8) (c : Cursor) : Prop where
  position_le : c.position ≤ input.length
  rest_eq : c.rest = input.drop c.position
  depth_le : c.trace.depth ≤ maxDepth

namespace Within

/-- A cursor that has just been made stands within its input. -/
theorem start (input : List UInt8) : (Cursor.start input).Within input :=
  ⟨Nat.zero_le _, rfl, Nat.zero_le _⟩

theorem length_rest (within : c.Within input) : c.rest.length = input.length - c.position := by
  rw [within.rest_eq, List.length_drop]

theorem reaches (within : c.Within input) (reaches : c.Reaches c')
    (shallow : c'.trace.depth ≤ maxDepth) : c'.Within input := by
  obtain ⟨k, enough, position, rest⟩ := reaches
  have length := within.length_rest
  have inside := within.position_le
  refine ⟨by omega, ?_, shallow⟩
  rw [rest, position, within.rest_eq, List.drop_drop]

/-- The bytes that are taken are those of the input at the position, if it has so many. -/
theorem takeMany (within : c.Within input) (cx : Context) (n : ℕ) :
    Decoder.call cx (.takeMany n) c =
      if c.position + n ≤ input.length then
        (.ok (.bytes ((input.drop c.position).take n)), c.advance n)
      else (.error (.truncated n (input.length - c.position)), c) := by
  have length := within.length_rest
  have inside := within.position_le
  have taken : (c.rest.take n).length = min n (input.length - c.position) := by
    rw [List.length_take, length]
  change Decoder.answer (Read.takeMany n) .bytes c = _
  rw [Decoder.answer, Read.run_bind, Read.takeMany]
  -- what is left is the input without what was taken, so there are as many bytes as are asked for
  -- exactly if these fit
  by_cases room : c.position + n ≤ input.length
  · have all : (c.rest.take n).length = n := by omega
    rw [if_pos room, ← within.rest_eq]
    simp only [if_pos all]
    rfl
  · have short : (c.rest.take n).length ≠ n := by omega
    have missing : (c.rest.take n).length = input.length - c.position := by omega
    rw [if_neg room]
    simp only [if_neg short]
    rw [missing]

end Within

end Cursor

namespace Decoder

variable {cx : Context} {c : Cursor}

/-! ## 5. All of it -/

theorem answer_stays {α : Type} {r : Read α} {give : α → Answer} (stays : (r c).2 = c) :
    (answer r give c).2 = c := by
  rw [answer, Read.run_bind]
  rcases e : r c with ⟨f | a, c'⟩ <;> rw [e] at stays <;> exact stays

theorem tryNil_stays (other : (call cx .tryNil c).1 ≠ .ok (.bool true)) :
    (call cx .tryNil c).2 = c := by
  refine answer_stays (Read.tryNil_stays fun found => other ?_)
  change (answer Read.tryNil .bool c).1 = _
  rw [answer, Read.run_bind]
  rcases e : Read.tryNil c with ⟨f | a, c'⟩ <;> rw [e] at found <;> cases found
  rfl

/-- **Whatever is asked of a cursor, in whatever order and after whatever faults**, it stands in the
input and never goes back, it is never deeper than there are levels, and every call ends at the
depth where it began, a read into a destination too, which goes down no more levels than are left.
Looking ahead, checking a key, finding no nil and missing bytes leave it where it is. -/
theorem invariants (cx : Context) (input : List UInt8) (calls : List Call) :
    let way := Cursor.start input :: trailEach cx calls (.start input)
    (∀ c ∈ way, c.Within input) ∧
    (way.Pairwise fun c c' => c.position ≤ c'.position) ∧
    (∀ report ∈ (callEach cx calls (.start input)).1, report.2.1 + report.2.2 = input.length) ∧
    (∀ c ∈ way, ∀ n, call cx (.takeMany n) c =
      if c.position + n ≤ input.length then
        (.ok (.bytes ((input.drop c.position).take n)), c.advance n)
      else (.error (.truncated n (input.length - c.position)), c)) ∧
    ∀ c : Cursor, (∀ asked, (call cx asked c).2.trace.depth = c.trace.depth) ∧
      (∀ t d, Decoded.Composed (Datum.read cx (maxDepth - c.trace.depth) t d)
        (maxDepth - c.trace.depth)) ∧
      (call cx .peekHeader c).2 = c ∧ (call cx .checkKey c).2 = c ∧
      ((call cx .tryNil c).1 ≠ .ok (.bool true) → (call cx .tryNil c).2 = c) := by
  intro way
  have whole := way_callEach cx calls (.start input)
  -- the start is within the input, and every other cursor is reached from it
  have within : ∀ c ∈ way, c.Within input := by
    intro c mem
    rcases List.mem_cons.1 mem with rfl | later
    · exact .start input
    · exact (Cursor.Within.start input).reaches (whole.reached c later).1
        (whole.shallow (Nat.zero_le _) c later)
  refine ⟨within, ?_, fun report mem => ?_, fun c mem => (within c mem).takeMany cx,
    fun c => ⟨fun asked => (onward_call cx asked c).depth_eq, Datum.composed_read cx _,
      answer_stays (Read.peekHeader_stays c), answer_stays (Read.checkKey_stays c), tryNil_stays⟩⟩
  · refine List.pairwise_cons.2 ⟨fun x mem => (whole.reached x mem).1.position_le, ?_⟩
    exact whole.ordered.imp fun reaches => reaches.position_le
  · obtain ⟨x, there, e⟩ := report_of_mem mem
    have here := within x (List.mem_cons_of_mem _ there)
    have length := here.length_rest
    have inside := here.position_le
    rw [e]
    dsimp only
    omega

end Decoder

end MessagePack
