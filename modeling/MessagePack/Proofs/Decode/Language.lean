import MessagePack.Proofs.Codec.Reachable
import MessagePack.Proofs.Decode.Faults
import MessagePack.Proofs.Decode.Reading
import MessagePack.Proofs.Decode.Shape
import MessagePack.Proofs.Decode.Skip
import MessagePack.Proofs.Time.Payload
/-!
# What is read as a dynamic value

Skipping accepts every complete value.  Reading one as a dynamic value asks more of it, and each
demand concerns one value of the tree alone: no key is an array or a map, a text is UTF-8 and an
extension suits the binding of its tag.  Besides, the tree must not be too deep.

`WireValue.Readable` states these demands.  Main statements: `Value.exists_readsAs` and
`Value.sound_read`, bytes are read exactly when every part of their tree is readable, and
`Codec.decodeValue_language`, the same for whole operations of a codec.
-/

namespace MessagePack

namespace WireValue

/-- What reading asks of one value of a tree beyond its being complete; `admits` says which
extensions suit the bindings. -/
structure Readable (admits : Int8 → List UInt8 → Prop) (w : WireValue) : Prop where
  /-- No key is an array or a map. -/
  keys : ∀ k ∈ w.keys, k.header.isContainer = false
  /-- The payload of a text is the UTF-8 of some text. -/
  text : w.header.isText = true → ∃ s : String, w.header.Holds w.body (utf8Bytes s)
  /-- An extension has a tag and a payload that suit the bindings. -/
  extension : w.header.isExt = true →
    ∃ tag payload, w.header.HoldsExt w.body tag payload ∧ admits tag payload

/-- A well-formed tree that nests at most so many levels, readable everywhere. -/
structure Accepted (admits : Int8 → List UInt8 → Prop) (n : Nat) (w : WireValue) : Prop where
  formed : w.Everywhere Formed
  shallow : w.depth ≤ n
  readable : w.Everywhere (Readable admits)

variable {admits : Int8 → List UInt8 → Prop} {w : WireValue} {n : Nat} {b : UInt8}
  {body : List UInt8}

/-- A value without parts. -/
theorem accepted_flat (single : (Header.ofByte b).isContainer = false)
    (own : (Header.ofByte b).Owes body 0)
    (text : (Header.ofByte b).isText = true →
      ∃ s : String, (Header.ofByte b).Holds body (utf8Bytes s))
    (ext : (Header.ofByte b).isExt = true →
      ∃ tag payload, (Header.ofByte b).HoldsExt body tag payload ∧ admits tag payload) :
    (node b body []).Accepted admits n := by
  refine ⟨.leaf own, ?_, .leaf ⟨?_, text, ext⟩⟩
  · rw [depth, if_neg (by simp [single])]
    exact Nat.zero_le n
  · have none : (node b body []).keys = [] := by simp [WireValue.keys, inside, pairs]
    simp [none]

/-- An array or a map, one level above what it holds. -/
theorem accepted_deep {ws : List WireValue} (deep : (Header.ofByte b).isContainer = true)
    (own : (Header.ofByte b).Owes body ws.length) (each : ∀ x ∈ ws, x.Accepted admits n)
    (keys : (Header.ofByte b).isMap = true → ∀ e ∈ pairs ws, e.1.header.isContainer = false) :
    (node b body ws).Accepted admits (n + 1) := by
  refine ⟨⟨own, fun x hx => (each x hx).formed⟩, ?_,
    ⟨⟨fun k hk => ?_, fun text => ?_, fun ext => ?_⟩, fun x hx => (each x hx).readable⟩⟩
  · exact (depth_le_of_deep deep).2 ⟨n, rfl, fun x hx => (each x hx).shallow⟩
  · unfold WireValue.keys at hk
    split at hk
    · rename_i map
      obtain ⟨e, he, rfl⟩ := List.mem_map.1 hk
      exact keys map e he
    · cases hk
  · exact absurd (text.symm.trans (Header.isText_of_isContainer deep)) nofun
  · exact absurd (ext.symm.trans (Header.isExt_of_isContainer deep)) nofun

end WireValue

namespace Value

open Parse Read WireValue

variable {registry : Registry} {deeper : Option (Read Value)} {h : Header} {b : UInt8}
  {body : List UInt8} {n : Nat} {w : WireValue}

/-- An extension that is read as some value. -/
def Admits (registry : Registry) (tag : Int8) (payload : List UInt8) : Prop :=
  ∃ v, ofExt registry tag payload = .ok v

/-! ## 1. Readable values are read

A tree is readable if texts are valid, keys are no containers and extensions are admitted,
everywhere in it.  By induction on the tree, each part being readable, there is a value that it is
read as.  Sizes and headers do not matter here any more. -/

/-- A value without parts is read if its text or its extension allows it. -/
theorem exists_readsAs_flat (single : h.isContainer = false) (own : h.Owes body 0)
    (text : h.isText = true → ∃ s : String, h.Holds body (utf8Bytes s))
    (ext : h.isExt = true →
      ∃ tag payload, h.HoldsExt body tag payload ∧ Admits registry tag payload) :
    ∃ v, h.ReadsAs registry body v := by
  cases h with
  | nil =>
    obtain ⟨rfl, -⟩ := own
    exact ⟨.nil, .nil⟩
  | bool b =>
    obtain ⟨rfl, -⟩ := own
    exact ⟨.bool b, .bool b⟩
  | posFix v =>
    obtain ⟨rfl, -⟩ := own
    exact ⟨_, .uint (.posFix v)⟩
  | negFix k =>
    obtain ⟨rfl, -⟩ := own
    exact ⟨_, .int (.negFix k)⟩
  | uint w => exact ⟨_, .uint (.uint own.1)⟩
  | int w => exact ⟨_, .int (.int own.1)⟩
  | single => exact ⟨_, .single (.single own.1)⟩
  | double => exact ⟨_, .double (.double own.1)⟩
  | fixText | text =>
    obtain ⟨s, holds⟩ := text rfl
    exact ⟨.text s, .text rfl holds⟩
  | bin w =>
    obtain ⟨size, payload, rfl, width, length, -⟩ := own
    exact ⟨.bin payload, .bin rfl (.bin width length)⟩
  | fixExt | ext =>
    obtain ⟨tag, payload, holds, v, rich⟩ := ext rfl
    exact ⟨v, .extension holds rich⟩
  | unused => exact own.elim
  | fixArray | array | fixMap | map => cases single

/-- **A tree whose parts are all readable is read as some value.** -/
theorem exists_readsAs (formed : w.Everywhere Formed)
    (readable : w.Everywhere (Readable (Admits registry))) : ∃ v, w.ReadsAs registry v := by
  induction formed with
  | @mk w own within ih =>
    obtain ⟨b, body, ws⟩ := w
    have own' : (Header.ofByte b).Owes body ws.length := own
    have inner : ∀ x ∈ ws, ∃ v, x.ReadsAs registry v := fun x hx =>
      ih x hx (readable.within x hx)
    -- one value for each part, so that the whole can be made of them
    choose! value reads using inner
    cases deep : (Header.ofByte b).isContainer with
    | false =>
      obtain rfl : ws = [] := own.inside_eq_nil deep
      obtain ⟨v, alone⟩ :=
        exists_readsAs_flat deep own' readable.here.text readable.here.extension
      exact ⟨v, .flat alone⟩
    | true =>
      rcases Header.isArray_or_isMap deep with array | map
      · have each : List.Forall₂ (ReadsAs registry) ws (ws.map value) := by
          rw [List.forall₂_map_right_iff, List.forall₂_same]
          exact reads
        obtain ⟨length, each⟩ := List.forall₂_iff_zip.1 each
        exact ⟨_, .array array own' length fun _ h => each h⟩
      · obtain ⟨k, even⟩ := own'.even map
        obtain ⟨es, rfl, rfl⟩ := exists_unpair even
        have each : List.Forall₂
            (fun e x => e.1.ReadsAs registry x.1 ∧ e.2.ReadsAs registry x.2) es
            (es.map fun e => (value e.1, value e.2)) := by
          rw [List.forall₂_map_right_iff, List.forall₂_same]
          exact forall_mem_unpair.1 reads
        obtain ⟨length, each⟩ := List.forall₂_iff_zip.1 each
        -- the keys are containers in no readable map
        have single : ∀ e ∈ es, e.1.header.isContainer = false := fun e he =>
          readable.here.keys e.1 (by
            rw [keys_of_isMap map]
            exact List.mem_map_of_mem he)
        rw [even] at own'
        exact ⟨_, .map map own' single length (fun _ h => (each h).1) fun _ h => (each h).2⟩

/-- Its bytes are read as that value, given the levels. -/
theorem exists_takes_read (accepted : w.Accepted (Admits registry) n) :
    ∃ v, (read registry n).parse.Takes w.bytes v := by
  obtain ⟨v, reads⟩ := exists_readsAs accepted.formed accepted.readable
  exact ⟨v, reads.takes accepted.shallow⟩

/-! ## 2. Nothing else is read

The other way round the step is gone through, header by header.  What it took is known to be a
header, its body and, for arrays and maps, what was taken one level down; from that a tree is
made. -/

/-- These are the bytes of a tree that nests at most so many levels and is readable everywhere. -/
def Language (registry : Registry) (n : Nat) (u : List UInt8) : Prop :=
  ∃ w : WireValue, w.bytes = u ∧ w.Accepted (Admits registry) n

/-- No value takes no bytes. -/
theorem Language.ne_nil {u : List UInt8} (h : Language registry n u) : u ≠ [] := by
  obtain ⟨⟨b, body, inside⟩, rfl, -⟩ := h
  exact List.cons_ne_nil _ _

/-- A value without parts whose header makes no demands. -/
theorem sound_plain {p : Parse Value} (flat : p.Sound fun u _ => Flat u) (b : UInt8)
    (text : (Header.ofByte b).isText = false) (ext : (Header.ofByte b).isExt = false) :
    p.Sound (Ahead b fun u _ => Language registry n u) := by
  refine flat.mono fun u v h => ⟨h.ne_nil, ?_⟩
  rintro body rfl
  obtain ⟨b', body', e, single, own⟩ := h
  obtain ⟨rfl, rfl⟩ := List.cons.inj e
  refine ⟨.node b body [], bytes_flat b body, ?_⟩
  exact accepted_flat single own (by simp [text]) (by simp [ext])

/-- A text that was read was valid. -/
theorem sound_string (text : (Header.ofByte b).isText = true) :
    (Read.text.parse >>= fun s => Pure.pure (Value.text s)).Sound
      (Ahead b fun u _ => Language registry n u) := by
  refine loads_text.map ?_
  rintro u s ⟨bytes, loads, same⟩
  refine ⟨loads.flat.ne_nil, ?_⟩
  rintro body rfl
  cases bytes with
  | none =>
    obtain ⟨rfl, -⟩ := List.cons.inj loads
    cases text
  | some payload =>
    obtain rfl : payload = utf8Bytes s := same
    obtain ⟨b', body', e, holds⟩ := loads
    obtain ⟨rfl, rfl⟩ := List.cons.inj e
    refine ⟨.node b body [], bytes_flat b body, ?_⟩
    refine accepted_flat holds.flat holds.owes (fun _ => ⟨s, holds⟩) fun ext => ?_
    exact absurd (ext.symm.trans (Header.isExt_of_isText text)) nofun

/-- A value without parts whose header was looked at. -/
theorem sound_bare {next : Parse Value} {Q : List UInt8 → Value → Prop} (behind : next.Sound Q)
    (accepted : ∀ body v, Q body v → (node b body []).Accepted (Admits registry) n) :
    (takeHeader.parse >>= fun _ => next).Sound (Ahead b fun u _ => Language registry n u) :=
  sound_taken behind fun body v holds =>
    ⟨.node b body [], bytes_flat b body, accepted body v holds⟩

/-- The values that a header owes are read behind it, one level down. -/
theorem sound_holder {q : Parse (Option Nat)} {each : Nat} (next : Nat → Parse Value)
    (other : Header.ofByte b ≠ .nil) (opens : q.Sound (Opens each))
    (inside : ∀ k, (next k).Sound fun u _ => ∃ m ws, n = m + 1 ∧ bytesAll ws = u ∧
      ws.length = each * k ∧ (∀ x ∈ ws, x.Accepted (Admits registry) m) ∧
      ((Header.ofByte b).isMap = true → ∀ e ∈ pairs ws, e.1.header.isContainer = false)) :
    (q >>= fun length => next (length.getD 0)).Sound
      (Ahead b fun u _ => Language registry n u) := by
  refine (opens.bind fun length => inside (length.getD 0)).mono ?_
  rintro u v ⟨front, back, length, rfl, opened, m, ws, rfl, rfl, owed, accepted, keys⟩
  cases length with
  | none =>
    obtain rfl : front = [Header.nil.toByte] := opened
    refine ⟨List.cons_ne_nil _ _, fun body e => (other ?_).elim⟩
    rw [← (List.cons.inj e).1]
    exact Header.stands_nil
  | some k =>
    obtain ⟨b', body, rfl, deep, own⟩ := opened
    refine ⟨List.cons_ne_nil _ _, fun rest e => ?_⟩
    obtain ⟨rfl, rfl⟩ := List.cons.inj e
    refine ⟨.node _ body ws, rfl, accepted_deep deep ?_ accepted keys⟩
    rwa [owed]

/-- A key is no array and no map, and both a key and its value are read one level down. -/
theorem sound_entry {r : Read Value} (hr : r.parse.Sound fun u _ => Language registry n u) :
    (readEntry r).parse.Sound fun u _ => ∃ e : WireValue × WireValue,
      e.1.bytes ++ e.2.bytes = u ∧ e.1.Accepted (Admits registry) n ∧
        e.2.Accepted (Admits registry) n ∧ e.1.header.isContainer = false := by
  have value : ∀ k : Value, (r.parse >>= fun v => Pure.pure (k, v)).Sound fun u _ =>
      Language registry n u := fun k => hr.map fun _ _ h => h
  have pair := hr.bind value
  unfold readEntry
  simp only [parse_bind, parse_pure]
  refine (sound_checkKey pair ?_).mono ?_
  · rintro u ⟨k, v⟩ ⟨front, back, a, rfl, key, -⟩
    exact List.append_ne_nil_of_left_ne_nil key.ne_nil back
  · rintro u ⟨k, v⟩ ⟨b, rest, e, single, front, back, a, rfl, ⟨x, rfl, hx⟩, ⟨y, rfl, hy⟩⟩
    refine ⟨⟨x, y⟩, rfl, hx, hy, ?_⟩
    obtain ⟨b', body, inside⟩ := x
    obtain ⟨rfl, -⟩ := List.cons.inj e
    exact single

/-- What is read one level down, if there is one. -/
theorem sound_below {α : Type} {next : Read Value → Read α} {Q : Nat → List UInt8 → Prop}
    (each : ∀ m, n = m + 1 → (next (read registry m)).parse.Sound fun u _ => Q m u) :
    (descend (oneDown registry n) next).parse.Sound fun u _ => ∃ m, n = m + 1 ∧ Q m u := by
  cases n with
  | zero => exact sound_failure
  | succ m =>
    have inner := (each m rfl).nested
    rw [← parse_nested] at inner
    exact inner.mono fun _ _ h => ⟨m, rfl, h⟩

/-- An extension that its binding, if there is one, takes. -/
theorem sound_rich {q : Parse (Int8 × List UInt8)} {Q : List UInt8 → Int8 → List UInt8 → Prop}
    (hq : q.Sound fun u e => Q u e.1 e.2) :
    (q >>= fun e => (Read.ofExcept (ofExt registry e.1 e.2)).parse).Sound fun u _ =>
      ∃ tag payload, Q u tag payload ∧ Admits registry tag payload := by
  have rich : ∀ e : Int8 × List UInt8, (Read.ofExcept (ofExt registry e.1 e.2)).parse.Sound
      fun u _ => u = [] ∧ Admits registry e.1 e.2 := by
    intro e
    cases decoded : ofExt registry e.1 e.2 with
    | error f => exact sound_failure
    | ok v => exact sound_pure ⟨rfl, v, decoded⟩
  refine (hq.bind rich).mono ?_
  rintro u v ⟨front, back, e, rfl, holds, rfl, admits⟩
  rw [List.append_nil]
  exact ⟨e.1, e.2, holds, admits⟩

/-- A value is read so, if those one level down are. -/
theorem sound_readStep (below : ∀ m, n = m + 1 →
    (read registry m).parse.Sound fun u _ => Language registry m u) :
    (readStep registry (oneDown registry n)).parse.Sound fun u _ => Language registry n u := by
  unfold readStep
  rw [parse_bind]
  refine sound_ahead fun b => ?_
  -- the header that was looked at decides, and the reader behind it looks again
  generalize e : Header.ofByte b = h
  cases h with
  | nil | bool =>
    simp only [parse_bind, parse_pure]
    refine sound_bare (Q := fun body _ => body = []) (sound_pure rfl) ?_
    rintro body v rfl
    refine accepted_flat ?_ ?_ ?_ ?_ <;> rw [e]
    · rfl
    · exact ⟨rfl, rfl⟩
    · nofun
    · nofun
  | posFix | uint | negFix | int | single | double =>
    simp only [parse_bind, parse_pure]
    exact sound_plain (sound_narrowed _ _ _) b (by rw [e]; rfl) (by rw [e]; rfl)
  | fixText | text =>
    simp only [parse_bind, parse_pure]
    exact sound_string (by rw [e]; rfl)
  | bin =>
    simp only [parse_bind, parse_pure]
    exact sound_plain ((sound_raw .bin).map fun _ _ flat => flat) b (by rw [e]; rfl)
      (by rw [e]; rfl)
  | fixArray | array =>
    simp only [parse_bind, parse_pure]
    refine sound_holder (fun k => (descend (oneDown registry n) fun r =>
      repeated r k []).parse >>= fun items => Pure.pure (.array items)) (by rw [e]; nofun)
      (sound_arrayLength .dynamic) fun k => ?_
    refine (sound_below fun m down => sound_repeated (below m down) k []).map ?_
    -- the items were read one level down, each of them from a tree
    rintro _ _ ⟨m, rfl, ws, rfl, rfl, each⟩
    exact ⟨m, ws, rfl, bytesAll_eq_flatMap ws, (Nat.one_mul _).symm, each, by rw [e]; nofun⟩
  | fixMap | map =>
    simp only [parse_bind, parse_pure]
    refine sound_holder (fun k => (descend (oneDown registry n) fun r =>
      repeated (readEntry r) k []).parse >>= fun entries => Pure.pure (.map entries))
      (by rw [e]; nofun) (sound_mapLength .dynamic) fun k => ?_
    refine (sound_below fun m down => sound_repeated (sound_entry (below m down)) k []).map ?_
    rintro _ _ ⟨m, rfl, es, rfl, rfl, each⟩
    refine ⟨m, unpair es, rfl, bytesAll_unpair es, length_unpair es, ?_, fun _ => ?_⟩
    · exact forall_mem_unpair.2 fun e he => ⟨(each e he).1, (each e he).2.1⟩
    · rw [pairs_unpair]
      exact fun e he => (each e he).2.2
  | fixExt | ext =>
    simp only [parse_bind, forTag?_ofExt]
    refine sound_bare (sound_rich (sound_extBody .dynamic b _)) ?_
    rintro body v ⟨tag, payload, holds, admits⟩
    -- a payload under an extension's header is no text's
    rw [← e] at holds
    exact accepted_flat holds.flat holds.owes (fun text => absurd
      (holds.isExt.symm.trans (Header.isExt_of_isText text)) nofun) fun _ =>
        ⟨tag, payload, holds, admits⟩
  | unused => exact sound_failure

/-- **Whatever is read as a dynamic value is a tree that is readable everywhere.** -/
theorem sound_read (registry : Registry) (n : Nat) :
    (read registry n).parse.Sound fun u _ => Language registry n u := by
  induction n with
  | zero =>
    rw [read_eq]
    exact sound_readStep nofun
  | succ n ih =>
    rw [read_eq]
    refine sound_readStep fun m down => ?_
    cases down
    exact ih

end Value

/-! ## 3. Trees that skipping accepts

What a complete value lacks to be readable can be told from outside: the input is a tree in any
case, and some part of it is not readable, or it nests too deep. -/

/-- Skipping takes the whole input exactly when it is the bytes of a well-formed tree. -/
theorem Read.skip_start_iff (input : List UInt8) :
    ((skip (.start input)).1 = .ok () ∧ (skip (.start input)).2.rest = []) ↔
      ∃ w : WireValue, w.bytes = input ∧ w.Everywhere WireValue.Formed := by
  constructor
  · rintro ⟨success, ended⟩
    have run : skip (.start input) = (.ok (), (skip (.start input)).2) := by rw [← success]
    obtain ⟨used, took, ⟨k, complete⟩, -⟩ := sound_skip _ _ _ (parse_eq_some.2 run)
    rw [ended, List.append_nil] at took
    obtain rfl : input = used := took
    exact complete.exists_tree
  · rintro ⟨w, rfl, formed⟩
    obtain ⟨known, run⟩ := (takes_skip (WireValue.complete formed)).run (c := .start w.bytes)
      (List.append_nil _).symm
    rw [parse_eq_some.1 run]
    exact ⟨rfl, rfl⟩

/-! ## 4. Timestamps alone have a binding

With nothing registered the timestamp's tag is the only one that asks for anything.  All other
extensions are kept raw, whatever they hold. -/

namespace Registry

/-- No tag but that of timestamps has a binding. -/
def OnlyTimestamps (r : Registry) : Prop :=
  ∀ tag, r.claims tag = true → tag = Binding.timestampTag

variable {r : Registry} {tag : Int8} {payload : List UInt8}

/-- At first no other tag is bound. -/
theorem onlyTimestamps_initial : initial.OnlyTimestamps := by
  intro tag claimed
  unfold claims initial at claimed
  rw [forTag?_insert] at claimed
  split at claimed
  · assumption
  · cases claimed

/-- Every other tag is free. -/
theorem OnlyTimestamps.forTag?_other (only : r.OnlyTimestamps)
    (other : tag ≠ Binding.timestampTag) : r.forTag? tag = none := by
  cases found : r.forTag? tag with
  | none => rfl
  | some binding => exact absurd (only tag (by rw [claims, found]; rfl)) other

end Registry

namespace Value

variable {r : Registry} {tag : Int8} {payload : List UInt8}

/-- A timestamp's payload is a timestamp or it is refused. -/
theorem ofExt_timestamp (con : r.Consistent) (payload : List UInt8) :
    ofExt r Binding.timestampTag payload =
      match Timestamp.ofPayload payload with
      | .ok t => .ok (.timestamp t)
      | .error e => .error (.extension Binding.timestampTag e.message) := by
  unfold ofExt
  rw [con.forTag?_timestamp]
  change Except.map _ (Binding.timestamp.decode payload) = _
  unfold Binding.timestamp
  dsimp only
  cases Timestamp.ofPayload payload <;> rfl

/-- Any other extension is kept as it is. -/
theorem ofExt_other (only : r.OnlyTimestamps) (other : tag ≠ Binding.timestampTag) :
    ofExt r tag payload = .ok (.ext tag payload) := by
  unfold ofExt
  rw [only.forTag?_other other]

/-- Only the payload of a timestamp has to have a form. -/
theorem admits_iff (con : r.Consistent) (only : r.OnlyTimestamps) :
    Admits r tag payload ↔ (tag = Binding.timestampTag → Timestamp.IsPayload payload) := by
  unfold Admits
  by_cases own : tag = Binding.timestampTag
  · subst own
    rw [ofExt_timestamp con, ← Timestamp.ofPayload_eq_ok_iff]
    cases Timestamp.ofPayload payload with
    | ok t => exact ⟨fun _ _ => ⟨t, rfl⟩, fun _ => ⟨_, rfl⟩⟩
    | error e => exact ⟨nofun, fun some' => nomatch some' rfl⟩
  · rw [ofExt_other only own]
    exact ⟨fun _ same => absurd same own, fun _ => ⟨_, rfl⟩⟩

/-- What is refused is refused as a timestamp. -/
theorem ofInput_of_ofExt (con : r.Consistent) (only : r.OnlyTimestamps) {f : Fault}
    (refused : ofExt r tag payload = .error f) : f.OfInput := by
  by_cases own : tag = Binding.timestampTag
  · subst own
    rw [ofExt_timestamp con] at refused
    split at refused
    · cases refused
    · cases refused
      exact .timestamp _
  · rw [ofExt_other only own] at refused
    cases refused

end Value

/-! ## 5. Whole operations -/

namespace Codec

open WireValue

variable {c : Codec} {input : List UInt8} {v : Value}

/-- An input is read as a value from its start, and nothing may be left. -/
theorem decodeValue_eq (c : Codec) (input : List UInt8) :
    (c.decodeValue input).1 =
      match Value.read c.registry maxDepth (.start input) with
      | (.ok v, d) => (finish d).map fun _ => v
      | (.error f, _) => .error f := by
  unfold decodeValue decode decodeInto settle reading
  rw [Datum.read_dynamic]
  dsimp only [context, Decoded.afterRead]
  rcases Value.read c.registry maxDepth (.start input) with ⟨f | v, d⟩
  · rfl
  · dsimp only [Decoded.ended]
    cases finish d <;> rfl

/-- What a whole input is read as is decoded from it. -/
theorem decodeValue_of_takes (takes : (Value.read c.registry maxDepth).parse.Takes input v) :
    (c.decodeValue input).1 = .ok v := by
  obtain ⟨known, run⟩ := takes.run (c := .start input) (List.append_nil _).symm
  rw [decodeValue_eq, Read.parse_eq_some.1 run]
  rfl

/-- A value is decoded exactly from the bytes of a tree that is readable everywhere. -/
theorem decodeValue_ok_iff :
    (∃ v, (c.decodeValue input).1 = .ok v) ↔ Value.Language c.registry maxDepth input := by
  constructor
  · rintro ⟨v, success⟩
    rw [decodeValue_eq] at success
    split at success
    · rename_i v' d run
      obtain ⟨used, took, language, -⟩ :=
        Value.sound_read c.registry maxDepth _ _ _ (Read.parse_eq_some.2 run)
      unfold finish at success
      split at success
      · rename_i ended
        rw [ended, List.append_nil] at took
        obtain rfl : input = used := took
        exact language
      · cases success
    · cases success
  · rintro ⟨w, rfl, accepted⟩
    obtain ⟨v, takes⟩ := Value.exists_takes_read accepted
    exact ⟨v, decodeValue_of_takes takes⟩

/-- What is decoded from an input is what its tree is read as. -/
theorem exists_readsAs_of_decodeValue (decoded : (c.decodeValue input).1 = .ok v) :
    ∃ w : WireValue, w.bytes = input ∧ w.Everywhere Formed ∧ w.depth ≤ maxDepth ∧
      w.ReadsAs c.registry v := by
  obtain ⟨w, rfl, accepted⟩ := decodeValue_ok_iff.1 ⟨v, decoded⟩
  obtain ⟨v', reads⟩ := Value.exists_readsAs accepted.formed accepted.readable
  have decoded' := decodeValue_of_takes (reads.takes accepted.shallow)
  cases decoded.symm.trans decoded'
  exact ⟨w, rfl, accepted.formed, accepted.shallow, reads⟩

/-- What is refused is a fault of the input. -/
theorem ofInput_of_decodeValue (refused : ∀ {tag payload f},
      Value.ofExt c.registry tag payload = .error f → f.OfInput) {f : Fault}
    (failed : (c.decodeValue input).1 = .error f) : f.OfInput := by
  rw [decodeValue_eq] at failed
  have ends := Value.ends_read refused maxDepth (.start input)
  unfold Read.Ends at ends
  split at failed
  · rename_i v d run
    unfold finish at failed
    split at failed
    · cases failed
    · cases failed
      exact .trailing _
  · rename_i g d run
    rw [run] at ends
    cases failed
    exact ends

/-- **A codec with no binding but that of timestamps decodes exactly its language**: the inputs that
skipping takes whole and whose tree (there is one, and only one) nests at most `maxDepth` levels,
has no array or map for a key, no text that is not UTF-8 and no timestamp but in one of its three
forms.  Any other input is itself at fault. -/
theorem decodeValue_language (reachable : c.Reachable) (only : c.registry.OnlyTimestamps)
    (input : List UInt8) :
    ((∃ v, (c.decodeValue input).1 = .ok v) ↔
      ((Read.skip (.start input)).1 = .ok () ∧ (Read.skip (.start input)).2.rest = []) ∧
        ∀ w : WireValue, w.bytes = input → w.Everywhere Formed →
          w.depth ≤ maxDepth ∧ w.Everywhere (Readable fun tag payload =>
            tag = Binding.timestampTag → Timestamp.IsPayload payload)) ∧
      ∀ f, (c.decodeValue input).1 = .error f → f.OfInput := by
  have con := reachable.consistent.registry
  have admits : Value.Admits c.registry = fun tag payload =>
      tag = Binding.timestampTag → Timestamp.IsPayload payload := by
    funext tag payload
    exact propext (Value.admits_iff con only)
  refine ⟨?_, fun f => ofInput_of_decodeValue (Value.ofInput_of_ofExt con only)⟩
  rw [decodeValue_ok_iff, Value.Language, admits, Read.skip_start_iff]
  constructor
  · rintro ⟨w, rfl, formed, shallow, readable⟩
    refine ⟨⟨w, rfl, formed⟩, fun w' same formed' => ?_⟩
    obtain rfl := unique formed' formed same
    exact ⟨shallow, readable⟩
  · rintro ⟨⟨w, rfl, formed⟩, each⟩
    obtain ⟨shallow, readable⟩ := each w rfl formed
    exact ⟨w, rfl, formed, shallow, readable⟩

/-- A map that holds a timestamp and an empty array. -/
theorem decodeValue_language_map :
    let c := fresh ⟨[], rfl, rfl⟩
    let input : List UInt8 := [0x82, 0xa1, 97, 0xd6, 0xff, 0, 0, 0, 1, 0xa1, 98, 0x90]
    c.Reachable ∧ c.registry.OnlyTimestamps ∧ (∃ v, (c.decodeValue input).1 = .ok v) ∧
      ((Read.skip (.start input)).1 = .ok () ∧ (Read.skip (.start input)).2.rest = []) ∧
        ∀ w : WireValue, w.bytes = input → w.Everywhere Formed →
          w.depth ≤ maxDepth ∧ w.Everywhere (Readable fun tag payload =>
            tag = Binding.timestampTag → Timestamp.IsPayload payload) := by
  intro c input
  have reachable : c.Reachable := .fresh _
  have only : c.registry.OnlyTimestamps := Registry.onlyTimestamps_initial
  have decoded : ∃ v, (c.decodeValue input).1 = .ok v := by
    refine ⟨.map [(.text "a", .timestamp ⟨1, noNanos⟩), (.text "b", .array [])], ?_⟩
    unfold c input
    rfl
  exact ⟨reachable, only, decoded, (decodeValue_language reachable only input).1.1 decoded⟩

end Codec

end MessagePack
