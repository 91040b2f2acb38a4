import MessagePack.Codec
import MessagePack.Proofs.Encode.Runs
/-!
# Writing within bounds

Nothing says that whoever writes a value puts the same in both passes, or stops at a put that was
refused.  So the bound on the buffer cannot come from the scripts: it is an invariant of the sink.
Every put keeps it, and with it every run, wherever the run fails and whatever is put afterwards;
then the one test at the end decides.

`Script.trail` and `Pass.trail` give every sink that a run leaves behind a put on its way, so that
the invariant can be said of the whole way and not of its end alone.

Main statements: `Pass.fits_trail`, the buffer stays within the bound all the way, and
`Codec.encodeSteps_exact`, bytes are returned exactly when they are as many as were counted.
-/

namespace MessagePack

/-! ## 1. Puts -/

theorem getLastD_append {α : Type} (xs ys : List α) (a : α) :
    (xs ++ ys).getLastD a = ys.getLastD (xs.getLastD a) := by
  simp only [List.getLastD_eq_getLast?, List.getLast?_append]
  cases ys.getLast? <;> rfl

namespace Sink

/-- A buffer that holds no more than was predicted. -/
def Fits (predicted : Nat) (s : Sink) : Prop :=
  ∃ buffer, s = .writing predicted buffer ∧ buffer.size ≤ predicted

/-- Every sink that one run of bytes after another leaves, up to the first that is refused. -/
def trail : Sink → List (List UInt8) → List Sink
  | _, [] => []
  | s, bs :: rest =>
    let (outcome, s) := s.put bs
    s :: match outcome with
      | .ok _ => s.trail rest
      | .error _ => []

variable {predicted : Nat} {s : Sink}

/-- What fits is within the bound. -/
theorem Fits.position_le (h : s.Fits predicted) : s.position ≤ predicted := by
  obtain ⟨buffer, rfl, bound⟩ := h
  exact bound

/-- **A put keeps the bound**: it takes all the bytes, and they fit, or none. -/
theorem Fits.put (h : s.Fits predicted) (bs : List UInt8) : (s.put bs).2.Fits predicted := by
  obtain ⟨buffer, rfl, bound⟩ := h
  simp only [Sink.put]
  split
  · exact ⟨buffer, rfl, bound⟩
  · exact ⟨buffer ++ bs, rfl, by rw [size_append_list]; omega⟩

/-- Also between the runs of one put. -/
theorem Fits.trail (h : s.Fits predicted) (runs : List (List UInt8)) :
    ∀ x ∈ s.trail runs, x.Fits predicted := by
  induction runs generalizing s with
  | nil => nofun
  | cons bs rest ih =>
    have here := h.put bs
    rintro x mem
    simp only [Sink.trail] at mem
    rcases List.mem_cons.1 mem with rfl | later
    · exact here
    · split at later
      · exact ih here x later
      · cases later

/-- The trail ends where the puts end. -/
theorem putEach_last (s : Sink) (runs : List (List UInt8)) :
    (s.putEach runs).2 = (s.trail runs).getLastD s := by
  induction runs generalizing s with
  | nil => rfl
  | cons bs rest ih =>
    simp only [putEach, trail, List.getLastD_cons]
    split
    · rename_i u s' e
      rw [e]
      exact ih s'
    · rename_i f s' e
      rw [e]
      rfl

end Sink

/-! ## 2. Runs -/

namespace Script

/-- Every sink that a run leaves behind one of its puts, in order. -/
def trail : Script → Writer → List Sink
  | .done, _ | .consult _, _ | .overflow _, _ | .fail _, _ => []
  | .put bs, w => [(w.sink.put bs).2]
  | .uniform items, ⟨.sizing count, _⟩ => [.sizing (count + items.count * items.width)]
  | .uniform items, ⟨.writing predicted buffer, _⟩ =>
    (Sink.writing predicted buffer).trail items.puts
  | .attempt body, w => body.trail w
  | .seq a b, w =>
    a.trail w ++
      match (a.run w).1 with
      | .ok _ => b.trail (a.run w).2
      | .error _ => []

/-- The trail ends where the run ends. -/
theorem run_last (s : Script) (w : Writer) : (s.run w).2.sink = (s.trail w).getLastD w.sink := by
  induction s generalizing w with
  | done | put bs | consult id | overflow os | fail f => rfl
  | uniform items =>
    obtain ⟨sink, known⟩ := w
    cases sink with
    | sizing count => rfl
    | writing predicted buffer => exact Sink.putEach_last _ _
  | attempt body ih => exact ih w
  | seq a b iha ihb =>
    simp only [run, trail, getLastD_append]
    rw [← iha w]
    split
    · rename_i u w' e
      rw [e]
      exact ihb w'
    · rename_i f w' e
      rw [e]
      rfl

variable {predicted : Nat} {w : Writer}

theorem fits_run (s : Script) (h : w.sink.Fits predicted)
    (way : ∀ x ∈ s.trail w, x.Fits predicted) : (s.run w).2.sink.Fits predicted := by
  rw [run_last]
  have mem : (s.trail w).getLastD w.sink ∈ w.sink :: s.trail w := List.getLastD_mem_cons
  rcases List.mem_cons.1 mem with e | mem
  · rwa [e]
  · exact way _ mem

/-- **A run of any script keeps the bound all the way**, failed puts and what follows them
included. -/
theorem fits_trail (s : Script) (h : w.sink.Fits predicted) :
    ∀ x ∈ s.trail w, x.Fits predicted := by
  induction s generalizing w with
  | done | consult id | overflow os | fail f => nofun
  | put bs =>
    rintro x mem
    obtain rfl := List.mem_singleton.1 mem
    exact h.put bs
  | uniform items =>
    obtain ⟨sink, known⟩ := w
    obtain ⟨buffer, rfl, bound⟩ := h
    exact Sink.Fits.trail ⟨buffer, rfl, bound⟩ items.puts
  | attempt body ih => exact ih h
  | seq a b iha ihb =>
    rintro x mem
    rcases List.mem_append.1 mem with first | second
    · exact iha h x first
    · split at second
      · exact ihb (a.fits_run h (iha h)) x second
      · cases second

end Script

/-! ## 3. Passes -/

namespace Pass

/-- Every sink that a pass leaves behind one of its puts, in order. -/
def trail : List Step → Writer → List Sink
  | [], _ => []
  | s :: rest, w =>
    s.script.trail w ++
      match (s.script.run w).1, s.keepsGoing with
      | .error _, false => []
      | _, _ => trail rest (s.script.run w).2

/-- The trail ends where the pass ends. -/
theorem run_last (steps : List Step) (w : Writer) :
    (run steps w).writer.sink = (trail steps w).getLastD w.sink := by
  induction steps generalizing w with
  | nil => rfl
  | cons s rest ih =>
    simp only [run, trail, getLastD_append]
    rw [← s.script.run_last w]
    cases (s.script.run w).1 with
    | ok u => exact ih _
    | error f =>
      cases s.keepsGoing with
      | false => rfl
      | true => exact ih _

variable {predicted : Nat} {w : Writer}

/-- **A pass of any steps keeps the bound all the way**, faults passed over or not. -/
theorem fits_trail (steps : List Step) (h : w.sink.Fits predicted) :
    ∀ x ∈ trail steps w, x.Fits predicted := by
  induction steps generalizing w with
  | nil => nofun
  | cons s rest ih =>
    have here := s.script.fits_trail h
    rintro x mem
    rcases List.mem_append.1 mem with first | second
    · exact here x first
    · split at second
      · cases second
      · exact ih (s.script.fits_run h here) x second

theorem fits_run (steps : List Step) (h : w.sink.Fits predicted) :
    (run steps w).writer.sink.Fits predicted := by
  rw [run_last]
  have mem : (trail steps w).getLastD w.sink ∈ w.sink :: trail steps w := List.getLastD_mem_cons
  rcases List.mem_cons.1 mem with e | mem
  · rwa [e]
  · exact fits_trail steps h _ mem

/-- What a pass reports of its steps stays within the bound too. -/
theorem fits_log (steps : List Step) (h : w.sink.Fits predicted) :
    ∀ entry ∈ (run steps w).log, entry.position ≤ predicted := by
  induction steps generalizing w with
  | nil => nofun
  | cons s rest ih =>
    have here := s.script.fits_run h (s.script.fits_trail h)
    rintro entry mem
    simp only [run] at mem
    split at mem
    · obtain rfl := List.mem_singleton.1 mem
      exact here.position_le
    · rcases List.mem_cons.1 mem with rfl | later
      · exact here.position_le
      · exact ih here entry later

end Pass

/-! ## 4. Encodings -/

/-- The test at the end: what is in the buffer, if it is as much as was predicted. -/
theorem Sink.finish_eq_ok {predicted : Nat} {buffer : Array UInt8} {bs : List UInt8} :
    (Sink.writing predicted buffer).finish = .ok bs ↔
      bs = buffer.toList ∧ bs.length = predicted := by
  simp only [finish]
  split
  · rename_i full
    constructor
    · rintro ⟨⟩
      exact ⟨rfl, by rwa [Array.length_toList]⟩
    · rintro ⟨rfl, -⟩
      rfl
  · rename_i short
    constructor
    · rintro ⟨⟩
    · rintro ⟨rfl, full⟩
      rw [Array.length_toList] at full
      exact absurd full short

namespace Encoding

variable (sizing writing : List Step)

theorem ofSteps_sized : (ofSteps sizing writing).sized = Pass.run sizing .sizing := by
  simp only [ofSteps]
  split
  · rfl
  · split <;> rfl

theorem ofSteps_of_fault {f : Fault} (h : (Pass.run sizing .sizing).outcome = .error f) :
    ofSteps sizing writing = ⟨Pass.run sizing .sizing, none, .error f⟩ := by
  simp only [ofSteps, h]

theorem ofSteps_of_ok (h : (Pass.run sizing .sizing).outcome = .ok ()) :
    ofSteps sizing writing =
      let sized := Pass.run sizing .sizing
      let written := Pass.run writing sized.writer.writing
      ⟨sized, some written,
        match written.outcome with
        | .error f => .error f
        | .ok _ => written.writer.sink.finish⟩ := by
  simp only [ofSteps, h]
  cases (Pass.run writing (Pass.run sizing .sizing).writer.writing).outcome <;> rfl

end Encoding

/-- **Bytes are returned exactly when they are as many as were counted.**  The steps of the two
passes are any two lists.  A fault that ends the first pass is returned and there is no second; in
the second the buffer never holds more bytes than the first one counted, behind no put and behind no
step; a fault that ends it is returned; and if none does, the buffer is returned when it holds as
many bytes as were counted, and otherwise both numbers are. -/
theorem Codec.encodeSteps_exact (c : Codec) (sizing writing : List MessagePack.Step) (mode : Mode) :
    let e := (c.encodeSteps sizing writing mode).1
    let counted := e.sized.writer.sink.position
    (∀ f, e.sized.outcome = .error f → e.written = none ∧ e.result = .error f) ∧
      (e.sized.outcome = .ok () → ∃ written buffer,
        e.written = some written ∧ written.writer.sink = .writing counted buffer ∧
        buffer.size ≤ counted ∧
        (∀ s ∈ Pass.trail writing e.sized.writer.writing, s.position ≤ counted) ∧
        (∀ entry ∈ written.log, entry.position ≤ counted) ∧
        (∀ f, written.outcome = .error f → e.result = .error f) ∧
        (written.outcome = .ok () →
          (∀ bs, e.result = .ok bs ↔ bs = buffer.toList ∧ bs.length = counted) ∧
          (buffer.size ≠ counted → e.result = .error (.sizeMismatch counted buffer.size)))) := by
  intro e counted
  have sized : e.sized = Pass.run sizing .sizing := Encoding.ofSteps_sized sizing writing
  rw [sized]
  refine ⟨?_, ?_⟩
  · rintro f ended
    have whole : e = _ := Encoding.ofSteps_of_fault sizing writing ended
    rw [whole]
    exact ⟨rfl, rfl⟩
  · rintro ended
    have whole : e = _ := Encoding.ofSteps_of_ok sizing writing ended
    -- the second pass starts with an empty buffer, which fits whatever was counted
    have start : (Pass.run sizing .sizing).writer.writing.sink.Fits counted := by
      simp only [counted, sized]
      exact ⟨#[], rfl, Nat.zero_le _⟩
    obtain ⟨buffer, filled, bound⟩ := Pass.fits_run writing start
    refine ⟨Pass.run writing _, buffer, by rw [whole], filled, bound,
      fun s mem => (Pass.fits_trail writing start s mem).position_le,
      Pass.fits_log writing start, ?_, ?_⟩
    · rintro f faulted
      rw [whole]
      simp only [faulted]
    · rintro finished
      have result : e.result = (Sink.writing counted buffer).finish := by
        rw [whole]
        simp only [finished, filled]
      rw [result]
      refine ⟨fun bs => Sink.finish_eq_ok, fun short => ?_⟩
      simp only [Sink.finish]
      rw [if_neg short]

/-- Three bytes are counted.  In the second pass four bytes are refused behind their header of two,
which stays, and that is passed over; the one byte behind it fits. -/
theorem Codec.encodeSteps_exact_refused :
    let sizing : List MessagePack.Step := [⟨.put [1, 2, 3], false⟩]
    let writing : List MessagePack.Step := [⟨.bin [1, 2, 3, 4], true⟩, ⟨.put [9], false⟩]
    let e := ((fresh ⟨[], rfl, rfl⟩).encodeSteps sizing writing .named).1
    e.sized.outcome = .ok () ∧
      (∀ s ∈ Pass.trail writing e.sized.writer.writing, s.position ≤ 3) ∧
      e.result = .ok [0xc4, 4, 9] := by
  intro sizing writing e
  have counted : e.sized.outcome = .ok () := rfl
  have exact := ((fresh ⟨[], rfl, rfl⟩).encodeSteps_exact sizing writing .named).2 counted
  obtain ⟨written, buffer, second, filled, -, way, -, -, finished⟩ := exact
  have passed : e.written = some (Pass.run writing e.sized.writer.writing) := rfl
  obtain rfl := Option.some.inj (second.symm.trans passed)
  have full : (Pass.run writing e.sized.writer.writing).writer.sink =
      .writing 3 #[0xc4, 4, 9] := rfl
  obtain ⟨-, rfl⟩ := Sink.writing.inj (full.symm.trans filled)
  have ended : (Pass.run writing e.sized.writer.writing).outcome = .ok () := rfl
  exact ⟨counted, way, ((finished ended).1 _).2 ⟨rfl, rfl⟩⟩

end MessagePack
