import MessagePack.Proofs.Codec.Reachable
import MessagePack.Proofs.Encode.ByType
import MessagePack.Proofs.Record.Resolution
/-!
# Maps that need no counting

A record written as a map begins with the number of its entries.  As a rule the slots that are
present are counted first; a layout that never omits any is taken at its word, and the number of its
slots stands for the count.  Layouts are settled before any record is seen, from tags and from how
deep the fields lie, but whether a field is there to be written is up to the record.

For a record that hands out its visible fields the shortcut is none: both ways give one script,
which runs in the same way whether it is sized or written.  A record that hides one of them is
refused by the shortcut, while counting would leave the field out.

Main statements: `Datum.uncounted_eq_counted` and `Codec.encode_uncounted`.
-/

namespace MessagePack

/-! ## 1. The two ways -/

namespace Datum

/-- A record as a map without counting: the number of slots, and every field looked up. -/
def uncounted (cx : Context) (id : RecordId) (d : Datum) : Script :=
  .header .map (cx.layout id).slots.length ++ .all ((cx.layout id).slots.map (directScript cx id d))

/-- A record as a map with counting: how many slots are present, and those. -/
def counted (cx : Context) (id : RecordId) (d : Datum) : Script :=
  .header .map ((cx.layout id).slots.countP fun s => (cx.present? id d s).isSome) ++
    .all ((cx.layout id).slots.map (presentScript cx id d))

variable {cx : Context} {id : RecordId} {d : Datum} {s : Slot} {t : Ty} {x : Datum}

theorem directScript_of_lookup (found : cx.catalog.lookup id s.path d = some (t, x)) :
    directScript cx id d s = .text s.name ++ x.script cx t := by
  rw [directScript, found]

/-- **Where nothing is left out and every field is found, counting changes nothing.** -/
theorem uncounted_eq_counted
    (kept : ∀ s ∈ (cx.layout id).slots, s.omitEmpty = false)
    (found : ∀ s ∈ (cx.layout id).slots, (cx.catalog.lookup id s.path d).isSome = true) :
    uncounted cx id d = counted cx id d := by
  have present : ∀ s ∈ (cx.layout id).slots,
      cx.present? id d s = cx.catalog.lookup id s.path d := by
    intro s slot
    obtain ⟨⟨t, x⟩, here⟩ := Option.isSome_iff_exists.1 (found s slot)
    rw [Context.present?, here, Option.filter_some, kept s slot]
    rfl
  have count : ((cx.layout id).slots.countP fun s => (cx.present? id d s).isSome) =
      (cx.layout id).slots.length := by
    refine List.countP_eq_length.2 fun s slot => ?_
    rw [present s slot]
    exact found s slot
  have entries : (cx.layout id).slots.map (presentScript cx id d) =
      (cx.layout id).slots.map (directScript cx id d) := by
    refine List.map_congr_left fun s slot => ?_
    obtain ⟨⟨t, x⟩, here⟩ := Option.isSome_iff_exists.1 (found s slot)
    rw [presentScript, present s slot, here, directScript_of_lookup here]
  rw [uncounted, counted, count, entries]

end Datum

/-! ## 2. Records that hand out their fields -/

namespace Catalog

variable {c : Catalog} {id : RecordId} {mode : Mode} {d : Datum} {s : Slot}

/-- The record hands out its visible fields, those aside that lend it others. -/
def HandsOut (c : Catalog) (id : RecordId) : Prop :=
  ∀ f ∈ (c.decl id).fields, f.isVisible = true → f.promoted? = none → f.reachable = true

/-- A derived record hands out all its fields. -/
theorem Derived.handsOut (derived : c.Derived id) : c.HandsOut id :=
  fun f field _ _ => derived id .self f field

/-- A layout that never omits has slots of the record's own fields, none of which leaves out
zeros. -/
theorem own_of_neverOmits (never : (Layout.resolve c id mode).neverOmits = true)
    (slot : s ∈ (Layout.resolve c id mode).slots) :
    s.omitEmpty = false ∧ ∃ i f, s.path = [i] ∧ c.field? id i = some f ∧ f.isVisible = true ∧
      f.promoted? = none := by
  have own := List.all_eq_true.1 never s slot
  simp only [Bool.and_eq_true, Bool.not_eq_true', beq_iff_eq] at own
  obtain ⟨kept, depth⟩ := own
  obtain ⟨s', candidate, rfl⟩ := mem_candidates.1 (mem_uniqueShallowest slot)
  refine ⟨kept, ?_⟩
  cases candidate with
  | own field visible direct => exact ⟨_, _, rfl, field, visible, direct⟩
  | lent _ _ _ _ inner =>
    -- the place of the lending field stands in front of a path that is not empty
    have longer := List.length_pos_iff.2 inner.path_ne_nil
    simp only [below, List.nil_append, List.length_cons] at depth
    omega

/-- **A slot of such a layout is always found.** -/
theorem lookup_of_neverOmits (handed : c.HandsOut id) (typed : c.OfType (.record id) d)
    (never : (Layout.resolve c id mode).neverOmits = true)
    (slot : s ∈ (Layout.resolve c id mode).slots) :
    ∃ (f : FieldDecl) (x : Datum), c.lookup id s.path d = some (f.type, x) := by
  obtain ⟨-, i, f, path, field, visible, direct⟩ := own_of_neverOmits never slot
  have hands := handed f (List.mem_of_getElem? field) visible direct
  have isDirect : f.isDirect = true := by simp [FieldDecl.isDirect, visible, direct, hands]
  cases typed with
  | @record id fs length each =>
    have within : i < fs.length := length ▸ (List.getElem?_eq_some_iff.1 field).1
    refine ⟨f, fs[i], ?_⟩
    rw [path, lookup, direct?_eq field isDirect]
    simp [Datum.fields, List.getElem?_eq_getElem within]

end Catalog

/-! ## 3. Writing without counting -/

namespace Codec

/-- **A map that is written without counting is the one that counting gives.**  For a record that
hands out its visible fields, as a derived one does, both ways are one script, so they agree in both
passes, faults included.  A fault is one of lengths or that of a field's own datum: no field of the
record is found hidden. -/
theorem encode_uncounted {c : Codec} (reachable : c.Reachable) {id : RecordId}
    (unclaimed : c.registry.forHost? (.record id) = none)
    (byFields : (c.catalog.decl id).form ≠ .external)
    (never : (c.layoutOf .named id).neverOmits = true) {d : Datum}
    (typed : c.catalog.OfType (.record id) d) :
    let cx := c.context .named
    (c.catalog.Derived id → c.catalog.HandsOut id) ∧ (c.catalog.HandsOut id →
      d.script cx (.record id) = .consult id ++ Datum.uncounted cx id d ∧
      Datum.uncounted cx id d = Datum.counted cx id d ∧
      (c.encode (.record id) d .named).1 = (Script.consult id ++ Datum.counted cx id d).bytes ∧
      (∀ s ∈ (cx.layout id).slots, ∃ t x, cx.catalog.lookup id s.path d = some (t, x) ∧
        Datum.directScript cx id d s = .text s.name ++ x.script cx t) ∧
      ∀ f, (Datum.uncounted cx id d).effect.2 = .error f → (∃ cause, f = .unwritable cause) ∨
        ∃ s ∈ (cx.layout id).slots, ∃ t x, cx.catalog.lookup id s.path d = some (t, x) ∧
          (x.script cx t).effect.2 = .error f) := by
  intro cx
  refine ⟨Catalog.Derived.handsOut, fun handed => ?_⟩
  have resolved : c.layoutOf .named id = .resolve c.catalog id .named :=
    reachable.consistent.resolved .named id
  have unbound :
      (cx.hasBinding (.record id) || (cx.catalog.decl id).form == .external) = false := by
    change ((c.registry.forHost? (.record id)).isSome || _) = false
    rw [unclaimed]
    exact beq_eq_false_iff_ne.2 byFields
  have found : ∀ s ∈ (cx.layout id).slots, ∃ t x, cx.catalog.lookup id s.path d = some (t, x) := by
    intro s slot
    change s ∈ (c.layoutOf .named id).slots at slot
    rw [resolved] at never slot
    obtain ⟨f, x, here⟩ := Catalog.lookup_of_neverOmits handed typed never slot
    exact ⟨f.type, x, here⟩
  have script := Datum.script_direct cx d unbound rfl never
  have same : Datum.uncounted cx id d = Datum.counted cx id d := by
    refine Datum.uncounted_eq_counted (fun s slot => ?_) fun s slot => ?_
    · change s ∈ (c.layoutOf .named id).slots at slot
      rw [resolved] at never slot
      exact (Catalog.own_of_neverOmits never slot).1
    · obtain ⟨t, x, here⟩ := found s slot
      rw [here]
      rfl
  refine ⟨script, same, ?_, fun s slot => ?_, ?_⟩
  · change (d.script cx (.record id)).encode.result = _
    rw [Script.encode_result, script]
    change (Script.consult id ++ Datum.uncounted cx id d).bytes = _
    rw [same]
  · obtain ⟨t, x, here⟩ := found s slot
    exact ⟨t, x, here, Datum.directScript_of_lookup here⟩
  · refine Script.FaultsIn.append (Script.faultsIn_header (fun cause => .inl ⟨cause, rfl⟩) _ _) ?_
    refine .all fun entry mem => ?_
    obtain ⟨s, slot, rfl⟩ := List.mem_map.1 mem
    obtain ⟨t, x, here⟩ := found s slot
    rw [Datum.directScript_of_lookup here]
    refine .append (Script.faultsIn_text (fun cause => .inl ⟨cause, rfl⟩) s.name) fun f fault => ?_
    exact .inr ⟨s, slot, t, x, here, fault⟩

/-- A record of two fields, written by hand, that may or may not hand out the second. -/
def twoFields (hands : Bool) : Catalog where
  records := [
    { name := "Two", form := .manual,
      fields := [{ name := "a", type := .byte },
        { name := "b", type := .byte, reachable := hands }] }]
  isGrounded := by cases hands <;> decide
  isTyped := rfl

theorem ofType_twoFields (hands : Bool) :
    (twoFields hands).OfType (.record 0) (.record [.int 1, .int 2]) := by
  refine .record rfl fun i f x field here => ?_
  match i with
  | 0 | 1 =>
    cases field
    cases here
    exact .whole (by decide)
  | i + 2 => cases here

/-- Its slots are its two fields, whether it hands them out or not. -/
theorem slots_twoFields (hands : Bool) :
    ((fresh (twoFields hands)).layoutOf .named 0).slots =
      [⟨"a", [0], false⟩, ⟨"b", [1], false⟩] := by
  cases hands <;> decide +kernel

/-- A byte is written as a whole number. -/
theorem script_byte (cx : Context) (n : Nat) : (Datum.int n).script cx .byte = .uint n := by
  rw [Datum.script]
  rfl

theorem encode_uncounted_twoFields :
    let c := fresh (twoFields true)
    let d : Datum := .record [.int 1, .int 2]
    c.catalog.HandsOut 0 ∧ (c.layoutOf .named 0).neverOmits = true ∧
      (c.encode (.record 0) d .named).1 = .ok [0x82, 0xa1, 97, 1, 0xa1, 98, 2] ∧
      Datum.uncounted (c.context .named) 0 d = Datum.counted (c.context .named) 0 d := by
  intro c d
  have handed : c.catalog.HandsOut 0 := fun f field _ _ => by
    rcases List.mem_cons.1 field with rfl | field
    · rfl
    · rw [List.mem_singleton.1 field]
  have never : (c.layoutOf .named 0).neverOmits = true := by decide +kernel
  have all := encode_uncounted (.fresh _) rfl (by decide) never (ofType_twoFields true)
  obtain ⟨-, same, encoded, -⟩ := all.2 handed
  have slots : ((c.context .named).layout 0).slots = _ := slots_twoFields true
  refine ⟨handed, never, encoded.trans ?_, same⟩
  rw [← same, Datum.uncounted, slots]
  change (_ ++ (_ ++ Script.all [.text "a" ++ (Datum.int (1 : Nat)).script (c.context .named) .byte,
    .text "b" ++ (Datum.int (2 : Nat)).script (c.context .named) .byte])).bytes = _
  rw [script_byte, script_byte]
  rfl

/-- **A record that hides a visible field is refused**, though counting would write the rest of
it. -/
theorem uncounted_ne_counted :
    let c := fresh (twoFields false)
    let cx := c.context .named
    let d : Datum := .record [.int 1, .int 2]
    c.Reachable ∧ c.registry.forHost? (.record 0) = none ∧
      (c.catalog.decl 0).form ≠ .external ∧ (c.layoutOf .named 0).neverOmits = true ∧
      c.catalog.OfType (.record 0) d ∧
      (Datum.uncounted cx 0 d).bytes = .error (.misfit (.hiddenField "b")) ∧
      (Datum.counted cx 0 d).bytes = .ok [0x81, 0xa1, 97, 1] ∧
      (c.encode (.record 0) d .named).1 = .error (.misfit (.hiddenField "b")) := by
  intro c cx d
  have never : (c.layoutOf .named 0).neverOmits = true := by decide +kernel
  have slots : (cx.layout 0).slots = _ := slots_twoFields false
  have uncounted : Datum.uncounted cx 0 d =
      .header .map 2 ++ .all [.text "a" ++ .uint 1, .fail (.misfit (.hiddenField "b"))] := by
    rw [Datum.uncounted, slots, ← script_byte cx 1]
    rfl
  have counted : Datum.counted cx 0 d = .header .map 1 ++ .all [.text "a" ++ .uint 1, .done] := by
    rw [Datum.counted, slots, ← script_byte cx 1]
    rfl
  refine ⟨.fresh _, rfl, by decide, never, ofType_twoFields false, ?_, ?_, ?_⟩
  · rw [uncounted]
    rfl
  · rw [counted]
    rfl
  · change (d.script cx (.record 0)).encode.result = _
    rw [Script.encode_result, Datum.script_direct cx d rfl rfl never]
    change (Script.consult 0 ++ Datum.uncounted cx 0 d).bytes = _
    rw [uncounted]
    rfl

end Codec

end MessagePack
