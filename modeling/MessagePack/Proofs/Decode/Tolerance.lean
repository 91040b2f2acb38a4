import MessagePack.Proofs.Codec.Reachable
import MessagePack.Proofs.Decode.Steady
import MessagePack.Proofs.Decode.Whole
import MessagePack.Proofs.Record.Resolution
import MessagePack.Proofs.Wire.Tree
/-!
# Records tolerate what they do not know

A record that is written with more than its reader knows is read as if the rest were not there.
Entries that name none of its fields may stand anywhere among those of a map, and further values may
follow those of an array that has one for each field.  What they hold does not matter, as long as it
is complete.

The entries of an accepted map are steps from one destination to the next (`InPlace.Enters`).
A step for an unknown entry leaves the destination alone, and so it can be put in anywhere.

Main statements: `InPlace.Enters.inserted`, `InPlace.Fills.append` and
`Codec.decodeInto_record_unknown`.
-/

namespace MessagePack

/-- `ys` is `xs` with elements that `P` holds of put in anywhere. -/
inductive Inserted {α : Type} (P : α → Prop) : List α → List α → Prop
  | nil : Inserted P [] []
  | keep {x : α} {xs ys : List α} (rest : Inserted P xs ys) : Inserted P (x :: xs) (x :: ys)
  | insert {y : α} {xs ys : List α} (new : P y) (rest : Inserted P xs ys) : Inserted P xs (y :: ys)

namespace InPlace

open Parse Read Decoded WireValue Header

variable {cx : Context} {r : Ty → InPlace} {id : RecordId} {layout : Layout} {d x : Datum}
  {es es' : List (WireValue × WireValue)} {ws : List WireValue} {ss : List Slot}

/-! ## 1. Entries of maps -/

/-- An entry whose key names no slot: a valid text other than their names, or a complete value that
is no text, no array and no map.  Its value is complete. -/
structure Unknown (ss : List Slot) (e : WireValue × WireValue) : Prop where
  key : e.1.Everywhere Formed
  single : e.1.header.isContainer = false
  other : e.1.header.isText = true →
    ∃ name : String, e.1.header.Holds e.1.body (utf8Bytes name) ∧ ∀ s ∈ ss, s.name ≠ name
  value : e.2.Everywhere Formed

/-- The entries lead a destination from `d` to `x`, one after another. -/
inductive Enters (cx : Context) (r : Ty → InPlace) (id : RecordId) (layout : Layout) :
    List (WireValue × WireValue) → Datum → Datum → Prop
  | nil {d : Datum} : Enters cx r id layout [] d d
  | cons {e : WireValue × WireValue} {es : List (WireValue × WireValue)} {found : Option Slot}
      {d mid x : Datum} (key : (slotNamed layout).parse.Takes e.1.bytes found)
      (value : (parse (slotOrSkip cx r id d found)).Takes e.2.bytes mid)
      (rest : Enters cx r id layout es mid x) : Enters cx r id layout (e :: es) d x

/-- A text is looked up among the names of the slots. -/
theorem takes_slotNamed_text {key : WireValue} {name : String} (formed : key.Formed)
    (text : key.header.isText = true) (holds : key.header.Holds key.body (utf8Bytes name)) :
    (slotNamed layout).parse.Takes key.bytes
      ((layout.position name).bind fun i => layout.slots[i]?) := by
  obtain ⟨b, body, inside⟩ := key
  obtain rfl : inside = [] := formed.inside_eq_nil holds.flat
  rw [bytes_flat, ← toByte_ofByte b]
  exact takes_slotNamed (stands_ofByte b) text holds

/-- The key of an unknown entry names no slot. -/
theorem takes_slotNamed_unknown {e : WireValue × WireValue} (unknown : Unknown layout.slots e)
    (resolved : ∀ name, (∀ s ∈ layout.slots, s.name ≠ name) → layout.position name = none) :
    (slotNamed layout).parse.Takes e.1.bytes none := by
  obtain ⟨key, single, other, -⟩ := unknown
  -- a text is looked up and found in no slot; anything else is skipped as a value
  by_cases text : e.1.header.isText = true
  · obtain ⟨name, holds, free⟩ := other text
    have takes : (slotNamed layout).parse.Takes e.1.bytes _ :=
      takes_slotNamed_text key.here text holds
    rwa [resolved name free] at takes
  · obtain ⟨⟨b, body, inside⟩, w⟩ := e
    change ¬ (ofByte b).isText = true at text
    obtain rfl : inside = [] := key.here.inside_eq_nil single
    unfold slotNamed
    rw [bytes_flat, parse_bind]
    refine takes_checkKey_cons single ?_
    rw [parse_bind, ← toByte_ofByte b]
    refine takes_peekHeader (stands_ofByte b) ?_
    dsimp only
    rw [if_neg text]
    have value := complete key
    rw [bytes_flat, ← toByte_ofByte b] at value
    simp only [parse_bind, parse_pure]
    exact (takes_skip value).map

/-- A value without a slot is skipped, and the destination stays. -/
theorem takes_slotOrSkip_none {w : WireValue} (formed : w.Everywhere Formed) (d : Datum) :
    (parse (slotOrSkip cx r id d none)).Takes w.bytes d := by
  rw [slotOrSkip, parse_skipping]
  exact (takes_skip (complete formed)).map

/-- **Unknown entries may be put in anywhere.** -/
theorem Enters.inserted (enters : Enters cx r id layout es d x)
    (resolved : ∀ name, (∀ s ∈ layout.slots, s.name ≠ name) → layout.position name = none)
    (more : Inserted (Unknown layout.slots) es es') : Enters cx r id layout es' d x := by
  induction more generalizing d with
  | nil => exact enters
  | keep _ ih =>
    cases enters with
    | cons key value rest => exact .cons key value (ih rest)
  | insert unknown _ ih =>
    exact .cons (takes_slotNamed_unknown unknown resolved) (takes_slotOrSkip_none unknown.value d)
      (ih enters)

/-- Entries that lead somewhere are taken, one after another. -/
theorem Enters.takes (enters : Enters cx r id layout es d x) :
    (parse (namedSlots cx r id layout es.length d)).Takes (bytesAll (unpair es)) x := by
  induction enters with
  | nil => exact takes_pure _
  | @cons e es found d mid x key value rest ih =>
    rw [List.length_cons, parse_namedSlots_succ]
    exact key.bind (value.bind ih)

variable (each : ∀ t d, (parse (r t d)).Whole 1)
include each

/-- **What is taken entry by entry are entries that lead to what is read.** -/
theorem sound_namedSlots (n : Nat) (d : Datum) :
    (parse (namedSlots cx r id layout n d)).Sound fun u x =>
      ∃ es, es.length = n ∧ (∀ w ∈ unpair es, w.Everywhere Formed) ∧ u = bytesAll (unpair es) ∧
        Enters cx r id layout es d x := by
  induction n generalizing d with
  | zero => exact sound_pure ⟨[], rfl, by simp [unpair], rfl, .nil⟩
  | succ n ih =>
    rw [parse_namedSlots_succ]
    refine ((whole_slotNamed layout).takes.bind fun found =>
      (whole_slotOrSkip each d found).takes.bind ih).mono ?_
    rintro _ x ⟨_, _, found, rfl, ⟨⟨_, key⟩, takesKey⟩, _, _, mid, rfl, ⟨⟨_, value⟩, takesValue⟩,
      es, rfl, formed, rfl, rest⟩
    obtain ⟨k, rfl, hk⟩ := key.exists_tree
    obtain ⟨w, rfl, hw⟩ := value.exists_tree
    refine ⟨(k, w) :: es, rfl, ?_, rfl, .cons takesKey takesValue rest⟩
    rw [forall_mem_unpair] at formed ⊢
    exact List.forall_mem_cons.2 ⟨⟨hk, hw⟩, formed⟩

omit each

/-! ## 2. Values of arrays -/

/-- The values lead a destination from `d` to `x`, those beyond the slots passed over. -/
inductive Fills (cx : Context) (r : Ty → InPlace) (id : RecordId) :
    List WireValue → List Slot → Datum → Datum → Prop
  | nil {ss : List Slot} {d : Datum} : Fills cx r id [] ss d d
  | cons {w : WireValue} {ws : List WireValue} {ss : List Slot} {d mid x : Datum}
      (value : (parse (slotOrSkip cx r id d ss.head?)).Takes w.bytes mid)
      (rest : Fills cx r id ws ss.tail mid x) : Fills cx r id (w :: ws) ss d x

/-- Behind the last slot every value is passed over. -/
theorem fills_nil (formed : ∀ w ∈ ws, w.Everywhere Formed) : Fills cx r id ws [] d d := by
  induction ws with
  | nil => exact .nil
  | cons w ws ih =>
    obtain ⟨first, rest⟩ := List.forall_mem_cons.1 formed
    exact .cons (takes_slotOrSkip_none first d) (ih rest)

/-- **More values may follow where each slot has one.** -/
theorem Fills.append (fills : Fills cx r id ws ss d x) (enough : ss.length ≤ ws.length)
    {more : List WireValue} (formed : ∀ w ∈ more, w.Everywhere Formed) :
    Fills cx r id (ws ++ more) ss d x := by
  -- each value takes a slot away, so none are left where the values end
  induction fills with
  | nil =>
    obtain rfl := List.eq_nil_of_length_eq_zero (Nat.le_zero.1 enough)
    exact fills_nil formed
  | @cons w ws ss d mid x value rest ih =>
    refine .cons value (ih ?_)
    rw [List.length_tail]
    exact Nat.sub_le_of_le_add enough

/-- Values that lead somewhere are taken, one after another. -/
theorem Fills.takes (fills : Fills cx r id ws ss d x) :
    (parse (slots cx r id ws.length ss d)).Takes (bytesAll ws) x := by
  induction fills with
  | nil => exact takes_pure _
  | cons value rest ih =>
    rw [List.length_cons, parse_slots_succ]
    exact value.bind ih

include each in
/-- **What is taken value by value are values that lead to what is read.** -/
theorem sound_slots (n : Nat) (ss : List Slot) (d : Datum) :
    (parse (slots cx r id n ss d)).Sound fun u x =>
      ∃ ws, ws.length = n ∧ (∀ w ∈ ws, w.Everywhere Formed) ∧ u = bytesAll ws ∧
        Fills cx r id ws ss d x := by
  induction n generalizing ss d with
  | zero => exact sound_pure ⟨[], rfl, by simp, rfl, .nil⟩
  | succ n ih =>
    rw [parse_slots_succ]
    refine ((whole_slotOrSkip each d ss.head?).takes.bind fun mid => ih ss.tail mid).mono ?_
    rintro _ x ⟨_, _, mid, rfl, ⟨⟨_, value⟩, takes⟩, ws, rfl, formed, rfl, rest⟩
    obtain ⟨w, rfl, hw⟩ := value.exists_tree
    exact ⟨w :: ws, rfl, List.forall_mem_cons.2 ⟨hw, formed⟩, rfl, .cons takes rest⟩

/-! ## 3. Records -/

/-- No payload is taken for a record that no binding claims. -/
theorem receive_unclaimed (con : cx.registry.Consistent)
    (unclaimed : cx.registry.forHost? (.record id) = none) (tag : Int8) (payload : List UInt8) :
    ∃ f, receive cx (.record id) tag payload = .error f := by
  unfold receive
  cases known : cx.registry.forTag? tag with
  | none => exact ⟨_, rfl⟩
  | some b =>
    -- a binding for this very record would claim it
    have own : b.host ≠ .record id := by
      intro same
      have claims := (con.byTag known).2
      rw [same, unclaimed] at claims
      cases claims
    dsimp only
    rw [if_neg own]
    exact ⟨_, rfl⟩

/-- Only a nil is read as a record that no binding claims and that has no fields of its own. -/
theorem sound_extension_unclaimed (con : cx.registry.Consistent)
    (unclaimed : cx.registry.forHost? (.record id) = none) :
    (parse (extension cx (.record id) d)).Sound fun u _ => u = [Header.nil.toByte] := by
  have nil : (Read.ext .ext).parse.Sound fun u e => e = none → u = [Header.nil.toByte] := by
    unfold Read.ext
    rw [parse_bind]
    refine (sound_header (Q := fun b v e => e = none → b = Header.nil.toByte ∧ v = [])
      fun b => ?_).mono ?_
    · cases known : ofByte b with
      | nil =>
        refine sound_pure fun _ => ⟨?_, rfl⟩
        rw [← known, toByte_ofByte]
      | _ =>
        simp only [parse_bind, parse_pure]
        exact (sound_extBody .ext b _).map fun u e _ none' => nomatch none'
    · rintro u e ⟨b, v, rfl, alone⟩ none'
      obtain ⟨rfl, rfl⟩ := alone none'
      rfl
  have unreceived : ∀ tag payload, bound? cx (.record id) tag payload = none := by
    intro tag payload
    obtain ⟨f, refused⟩ := receive_unclaimed con unclaimed tag payload
    rw [bound?, refused]
    rfl
  rw [parse_extension]
  refine (nil.bind (Q := fun e w _ => e = none ∧ w = []) fun e => ?_).mono ?_
  · rcases e with _ | ⟨tag, payload⟩
    · exact sound_pure ⟨rfl, rfl⟩
    · simp only [unreceived]
      exact sound_failure
  · rintro u x ⟨v, w, e, rfl, alone, none', rfl⟩
    rw [alone none']
    rfl

/-- What announces entries is the header of a map. -/
theorem sound_mapHeader : (mapLength .record).parse.Sound fun u n => Opens 2 u n ∧
    ∀ b v, u = b :: v → n ≠ none → (ofByte b).isMap = true := by
  refine (sound_mapLength .record).and ?_
  unfold mapLength
  rw [parse_bind]
  refine (sound_header (Q := fun b _ n => n ≠ none → (ofByte b).isMap = true) fun b => ?_).mono ?_
  · cases known : ofByte b with
    | nil => exact sound_pure fun some' => (some' rfl).elim
    | fixMap n => exact sound_pure fun _ => rfl
    | map w =>
      simp only [parse_bind, parse_pure]
      exact (sound_takeUnsigned w).map fun _ _ _ _ => rfl
    | _ => exact sound_failure
  · rintro u n ⟨b, v, rfl, map⟩ b' v' e
    obtain ⟨rfl, -⟩ := List.cons.inj e
    exact map

/-- What announces values is the header of an array. -/
theorem sound_arrayHeader : (arrayLength .record).parse.Sound fun u n => Opens 1 u n ∧
    ∀ b v, u = b :: v → n ≠ none → (ofByte b).isArray = true := by
  refine (sound_arrayLength .record).and ?_
  unfold arrayLength
  rw [parse_bind]
  refine (sound_header (Q := fun b _ n => n ≠ none → (ofByte b).isArray = true)
    fun b => ?_).mono ?_
  · cases known : ofByte b with
    | nil => exact sound_pure fun some' => (some' rfl).elim
    | fixArray n => exact sound_pure fun _ => rfl
    | array w =>
      simp only [parse_bind, parse_pure]
      exact (sound_takeUnsigned w).map fun _ _ _ _ => rfl
    | _ => exact sound_failure
  · rintro u n ⟨b, v, rfl, array⟩ b' v' e
    obtain ⟨rfl, -⟩ := List.cons.inj e
    exact array

section

variable {b : UInt8} {body : List UInt8}

/-- A map of entries that lead from `d` to `x` is read as `x`. -/
theorem takes_fields_named (mode : cx.mode = .named) (map : (ofByte b).isMap = true)
    (own : (ofByte b).Owes body (2 * es.length)) (enters : Enters cx r id (cx.layout id) es d x) :
    (parse (fields cx r id d)).Takes (node b body (unpair es)).bytes x := by
  rw [parse_fields_named mode, bytes, ← toByte_ofByte b]
  exact (takes_mapLength .record (stands_ofByte b) map own).bind (u := _ :: body) enters.takes

/-- An array of values that lead from `d` to `x` is read as `x`. -/
theorem takes_fields_positional (mode : cx.mode = .positional) (array : (ofByte b).isArray = true)
    (own : (ofByte b).Owes body ws.length) (fills : Fills cx r id ws (cx.layout id).slots d x) :
    (parse (fields cx r id d)).Takes (node b body ws).bytes x := by
  rw [parse_fields_positional mode, bytes, ← toByte_ofByte b]
  exact (takes_arrayLength .record (stands_ofByte b) array own).bind (u := _ :: body) fills.takes

end

variable (each : ∀ t d, (parse (r t d)).Whole 1)
include each

/-- **A record that is read from a map is a nil, or entries that lead to what is read.** -/
theorem sound_fields_named (mode : cx.mode = .named) (d : Datum) :
    (parse (fields cx r id d)).Sound fun u x => u = [Header.nil.toByte] ∨
      ∃ b body es, (node b body (unpair es)).Everywhere Formed ∧ (ofByte b).isMap = true ∧
        u = (node b body (unpair es)).bytes ∧ Enters cx r id (cx.layout id) es d x := by
  rw [parse_fields_named mode]
  refine (sound_mapHeader.bind (Q := fun n w x => n = none ∧ w = [] ∨
    ∃ es, n = some es.length ∧ (∀ w ∈ unpair es, w.Everywhere Formed) ∧ w = bytesAll (unpair es) ∧
      Enters cx r id (cx.layout id) es d x) fun n => ?_).mono ?_
  · cases n with
    | none => exact sound_pure (.inl ⟨rfl, rfl⟩)
    | some n =>
      refine (sound_namedSlots each n d).mono ?_
      rintro w x ⟨es, rfl, entered⟩
      exact .inr ⟨es, rfl, entered⟩
  · rintro u x ⟨v, w, n, rfl, ⟨opens, map⟩, ⟨rfl, rfl⟩ | ⟨es, rfl, formed, rfl, enters⟩⟩
    · rw [List.append_nil]
      exact .inl opens
    · obtain ⟨b, body, rfl, -, own⟩ := opens
      have here : (node b body (unpair es)).Formed := by rwa [← length_unpair] at own
      exact .inr ⟨b, body, es, ⟨here, formed⟩, map b body rfl (Option.some_ne_none _), rfl, enters⟩

/-- **A record that is read from an array is a nil, or values that lead to what is read.** -/
theorem sound_fields_positional (mode : cx.mode = .positional) (d : Datum) :
    (parse (fields cx r id d)).Sound fun u x => u = [Header.nil.toByte] ∨
      ∃ b body ws, (node b body ws).Everywhere Formed ∧ (ofByte b).isArray = true ∧
        u = (node b body ws).bytes ∧ Fills cx r id ws (cx.layout id).slots d x := by
  rw [parse_fields_positional mode]
  refine (sound_arrayHeader.bind (Q := fun n w x => n = none ∧ w = [] ∨
    ∃ ws, n = some ws.length ∧ (∀ w ∈ ws, w.Everywhere Formed) ∧ w = bytesAll ws ∧
      Fills cx r id ws (cx.layout id).slots d x) fun n => ?_).mono ?_
  · cases n with
    | none => exact sound_pure (.inl ⟨rfl, rfl⟩)
    | some n =>
      refine (sound_slots each n _ d).mono ?_
      rintro w x ⟨ws, rfl, filled⟩
      exact .inr ⟨ws, rfl, filled⟩
  · rintro u x ⟨v, w, n, rfl, ⟨opens, array⟩, ⟨rfl, rfl⟩ | ⟨ws, rfl, formed, rfl, fills⟩⟩
    · rw [List.append_nil]
      exact .inl opens
    · obtain ⟨b, body, rfl, -, own⟩ := opens
      have here : (node b body ws).Formed := by rwa [Nat.one_mul] at own
      exact .inr ⟨b, body, ws, ⟨here, formed⟩, array b body rfl (Option.some_ne_none _), rfl, fills⟩

end InPlace

/-! ## 4. Whole operations -/

namespace Codec

open Parse Read Decoded WireValue Header InPlace

variable {c : Codec} {t : Ty} {d x : Datum} {input : List UInt8} {mode : Mode} {id : RecordId}

/-- A record that no binding claims is carried by one only if it has no other form. -/
theorem isBound_of_unclaimed (unclaimed : c.registry.forHost? (.record id) = none) (mode : Mode) :
    (c.context mode).isBound id = ((c.catalog.decl id).form == .external) := by
  change ((c.registry.forHost? (.record id)).isSome || _) = _
  rw [unclaimed]
  rfl

/-- A record that no binding claims is read by its fields, or as a nil if only a binding could carry
it. -/
theorem parse_read_record (reachable : c.Reachable)
    (unclaimed : c.registry.forHost? (.record id) = none) (d : Datum) :
    (∀ mode, (Decoded.parse (Datum.read (c.context mode) maxDepth (.record id) d)).Sound
      fun u _ => u = [Header.nil.toByte]) ∨
    ∀ mode, Decoded.parse (Datum.read (c.context mode) maxDepth (.record id) d) = fun cursor =>
      (Decoded.parse (fields (c.context mode)
        (Datum.read (c.context mode) (maxDepth - 1)) id d)).nested (cursor.consult id) := by
  have step : ∀ mode, Datum.read (c.context mode) maxDepth (.record id) =
      record (c.context mode) (Datum.oneDown (c.context mode) maxDepth) id := by
    intro mode
    rw [Datum.read_eq, Datum.readStep]
  cases external : (c.catalog.decl id).form == .external with
  | true =>
    refine .inl fun mode => ?_
    rw [step, parse_record_bound ((isBound_of_unclaimed unclaimed mode).trans external)]
    exact sound_extension_unclaimed reachable.consistent.registry unclaimed
  | false =>
    refine .inr fun mode => ?_
    rw [step, parse_record ((isBound_of_unclaimed unclaimed mode).trans external)]
    rfl

variable (c id d input)

/-- **A record tolerates what it does not know.**  If a record that no binding claims is read from
a map, it is read alike from the map with entries put in anywhere that name none of its fields, and
if it is read from an array with a value for each field, alike with further values behind them.
What was put in has to be complete, nothing more. -/
theorem decodeInto_record_unknown (reachable : c.Reachable)
    (unclaimed : c.registry.forHost? (.record id) = none) :
    ((c.decodeInto (.record id) d input .named).1 = .ok () →
      input = [Header.nil.toByte] ∨
      ∃ b body es, (node b body (unpair es)).Everywhere Formed ∧ (ofByte b).isMap = true ∧
        input = (node b body (unpair es)).bytes ∧
        ∀ es', Inserted (Unknown (Layout.resolve c.catalog id .named).slots) es es' →
          ∀ b' body', (ofByte b').isMap = true → (ofByte b').Owes body' (2 * es'.length) →
            (c.decodeInto (.record id) d (node b' body' (unpair es')).bytes .named).1 = .ok () ∧
            (c.decodeInto (.record id) d (node b' body' (unpair es')).bytes .named).2.1 =
              (c.decodeInto (.record id) d input .named).2.1) ∧
    ((c.decodeInto (.record id) d input .positional).1 = .ok () →
      input = [Header.nil.toByte] ∨
      ∃ b body ws, (node b body ws).Everywhere Formed ∧ (ofByte b).isArray = true ∧
        input = (node b body ws).bytes ∧
        ((Layout.resolve c.catalog id .positional).slots.length ≤ ws.length →
          ∀ more, (∀ w ∈ more, w.Everywhere Formed) → ∀ b' body', (ofByte b').isArray = true →
            (ofByte b').Owes body' (ws ++ more).length →
            (c.decodeInto (.record id) d (node b' body' (ws ++ more)).bytes .positional).1 =
              .ok () ∧
            (c.decodeInto (.record id) d (node b' body' (ws ++ more)).bytes .positional).2.1 =
              (c.decodeInto (.record id) d input .positional).2.1)) := by
  have layouts : ∀ mode, (c.context mode).layout id = Layout.resolve c.catalog id mode := by
    intro mode
    rw [reachable.context_eq mode]
  have each : ∀ mode t d,
    (Decoded.parse (Datum.read (c.context mode) (maxDepth - 1) t d)).Whole 1 :=
    fun mode => Datum.whole_read (c.context mode) (maxDepth - 1)
  -- a record without fields of its own can only have been read from a nil
  rcases parse_read_record reachable unclaimed d with only | fields
  · exact ⟨fun accepted => .inl (holds_of_accepted accepted (only .named)),
      fun accepted => .inl (holds_of_accepted accepted (only .positional))⟩
  · constructor
    · intro accepted
      have read := holds_of_accepted accepted
        (fields .named ▸ (sound_fields_named (each .named) rfl d).nested.retrace _)
      refine read.imp_right ?_
      rintro ⟨b, body, es, formed, map, bytes, enters⟩
      refine ⟨b, body, es, formed, map, bytes, fun es' more b' body' map' own' => ?_⟩
      rw [← layouts .named] at more
      have resolved : ∀ name, (∀ s ∈ ((c.context .named).layout id).slots, s.name ≠ name) →
          ((c.context .named).layout id).position name = none := by
        rw [layouts .named]
        exact fun name free => Layout.position_resolve_eq_none free
      refine decodeInto_of_takes ?_
      rw [fields .named]
      exact (takes_fields_named rfl map' own' (enters.inserted resolved more)).nested.retrace _
    · intro accepted
      have read := holds_of_accepted accepted
        (fields .positional ▸ (sound_fields_positional (each .positional) rfl d).nested.retrace _)
      refine read.imp_right ?_
      rintro ⟨b, body, ws, formed, array, bytes, fills⟩
      refine ⟨b, body, ws, formed, array, bytes, fun enough more new b' body' array' own' => ?_⟩
      rw [← layouts .positional] at enough
      refine decodeInto_of_takes ?_
      rw [fields .positional]
      exact (takes_fields_positional rfl array' own' (fills.append enough new)).nested.retrace _

/-- A note of one byte: a map with an entry more, from nil to a text that is not UTF-8, and an array
with a value more. -/
theorem decodeInto_record_unknown_note :
    let c := fresh { records := [{ name := "Note", fields := [{ name := "a", type := .byte }] }] }
    let d : Datum := .record [.int 1]
    c.registry.forHost? (.record 0) = none ∧
      (c.decodeInto (.record 0) d [0x81, 0xa1, 97, 5] .named).1 = .ok () ∧
      (c.decodeInto (.record 0) d [0x82, 0xc0, 0xa1, 0xff, 0xa1, 97, 5] .named).1 = .ok () ∧
      (c.decodeInto (.record 0) d [0x82, 0xc0, 0xa1, 0xff, 0xa1, 97, 5] .named).2.1 =
        .record [.int 5] ∧
      (c.decodeInto (.record 0) d [0x91, 5] .positional).1 = .ok () ∧
      (c.decodeInto (.record 0) d [0x92, 5, 0xc0] .positional).1 = .ok () ∧
      (c.decodeInto (.record 0) d [0x92, 5, 0xc0] .positional).2.1 = .record [.int 5] := by
  intro c d
  have named : (c.decodeInto (.record 0) d [0x81, 0xa1, 97, 5] .named).1 = .ok () := by
    decide +kernel
  have five : (c.decodeInto (.record 0) d [0x81, 0xa1, 97, 5] .named).2.1 = .record [.int 5] := by
    decide +kernel
  have positional : (c.decodeInto (.record 0) d [0x91, 5] .positional).1 = .ok () := by
    decide +kernel
  have five' : (c.decodeInto (.record 0) d [0x91, 5] .positional).2.1 = .record [.int 5] := by
    decide +kernel
  have nil : (node 0xc0 [] []).Everywhere Formed := .leaf ⟨rfl, rfl⟩
  have broken : (node 0xa1 [0xff] []).Everywhere Formed := .leaf ⟨rfl, rfl⟩
  obtain ⟨accepted, same⟩ : (c.decodeInto (.record 0) d [0x82, 0xc0, 0xa1, 0xff, 0xa1, 97, 5]
      .named).1 = .ok () ∧ (c.decodeInto (.record 0) d [0x82, 0xc0, 0xa1, 0xff, 0xa1, 97, 5]
      .named).2.1 = (c.decodeInto (.record 0) d [0x81, 0xa1, 97, 5] .named).2.1 := by
    let field : WireValue × WireValue := (node 0xa1 [97] [], node 5 [] [])
    have read : (node 0x81 [] (unpair [field])).Everywhere Formed :=
      everywhere_formed_unpair ⟨rfl, rfl⟩
        (List.forall_mem_singleton.2 ⟨.leaf ⟨rfl, rfl⟩, .leaf ⟨rfl, rfl⟩⟩)
    rcases (decodeInto_record_unknown c d _ 0 (.fresh _) rfl).1 named with nil | found
    · cases nil
    obtain ⟨b, body, es, formed, -, bytes, all⟩ := found
    obtain ⟨rfl, rfl, inside⟩ := node.inj (WireValue.unique formed read bytes.symm)
    obtain rfl : es = [field] := by rw [← pairs_unpair es, inside, pairs_unpair]
    have unknown : Unknown (Layout.resolve c.catalog 0 .named).slots
        (node 0xc0 [] [], node 0xa1 [0xff] []) :=
        ⟨nil, rfl, fun text => absurd text (by decide), broken⟩
    exact all [_, field] (.insert unknown (.keep .nil)) 0x82 [] rfl ⟨rfl, rfl⟩
  obtain ⟨accepted', same'⟩ : (c.decodeInto (.record 0) d [0x92, 5, 0xc0] .positional).1 = .ok () ∧
      (c.decodeInto (.record 0) d [0x92, 5, 0xc0] .positional).2.1 =
        (c.decodeInto (.record 0) d [0x91, 5] .positional).2.1 := by
    have read : (node 0x91 [] [node 5 [] []]).Everywhere Formed := by
      refine ⟨⟨rfl, rfl⟩, ?_⟩
      simpa [inside] using .leaf ⟨rfl, rfl⟩
    rcases (decodeInto_record_unknown c d _ 0 (.fresh _) rfl).2 positional with nil | found
    · cases nil
    obtain ⟨b, body, ws, formed, -, bytes, all⟩ := found
    obtain ⟨rfl, rfl, rfl⟩ := node.inj (WireValue.unique formed read bytes.symm)
    have enough : (Layout.resolve c.catalog 0 .positional).slots.length ≤ 1 := by decide +kernel
    exact all enough [node 0xc0 [] []] (by simpa using nil) 0x92 [] rfl ⟨rfl, rfl⟩
  exact ⟨rfl, named, accepted, same.trans five, positional, accepted', same'.trans five'⟩

end Codec

end MessagePack
