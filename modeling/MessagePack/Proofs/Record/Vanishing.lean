import MessagePack.Proofs.Record.Places
import MessagePack.Proofs.Record.Zero
/-!
# Data that count as zeros

A datum that `Catalog.isZero` holds of need not be what is fresh of its type: a float's zero may
have a sign, and a record may keep anything in fields that are not visible.  Along a path of fields
it still cannot be told from a fresh one, where the defaults of records are zeros: either both
records have something at the end of the path or neither has, and what the first has there counts as
a zero again.

Main statements: `Catalog.isZero_initial` and `Catalog.lookup_of_isZero`.
-/

namespace MessagePack.Catalog

variable {c : Catalog} {id inner : RecordId} {t : Ty} {d x : Datum}

/-! ## 1. Zeros by their fields -/

/-- **If a datum of a type counts as a zero, what is fresh of the type does.** -/
theorem isZero_initial (zeros : c.ZeroDefaults) (typed : c.OfType t d)
    (zero : c.isZero t d = true) :
    c.isZero t (c.initial t) = true := by
  induction typed with
  | bool | text | bytes | dynamic | timestamp | clockTime | list | absent | map =>
    rw [isZero]
    rfl
  | single =>
    rw [isZero]
    exact (by decide : (default : Single).classify.isZero = true)
  | double =>
    rw [isZero]
    exact (by decide : (default : Double).classify.isZero = true)
  | @whole t i fits =>
    cases t with
    | single | double => cases fits
    | uint | int =>
      rw [isZero]
      rfl
  | array | tuple =>
    rw [isZero] at zero ⊢
    exact zero
  | present =>
    rw [isZero] at zero
    cases zero
  | box _ ih =>
    rw [isZero] at zero ⊢
    exact ih zero
  | record length _ ih =>
    obtain ⟨plain, each⟩ := isZero_record_iff.1 zero
    rw [initial_record, isZero_record_iff]
    refine ⟨plain, fun i f x field visible here => ?_⟩
    have within : i < _ := (List.getElem?_eq_some_iff.1 field).1
    rw [← length] at within
    rw [List.getElem?_map, show (c.decl _).fields[i]? = some f from field] at here
    cases here
    rw [zeros _ i f field]
    have own := List.getElem?_eq_getElem within
    exact ih i f _ field own (each i f _ field visible own)

/-! ## 2. What is in sight -/

/-- A datum of the type may show the record `id`: it is that record, or one of its visible fields
shows it.  What stands behind options or in containers is left out, as a zero has nothing there. -/
inductive Shows (c : Catalog) : Ty → RecordId → Prop
  | self {id : RecordId} : Shows c (.record id) id
  | box {t : Ty} {id : RecordId} (held : Shows c t id) : Shows c (.box t) id
  | field {id inner : RecordId} {f : FieldDecl} (field : f ∈ (c.decl id).fields)
      (visible : f.isVisible = true) (shows : Shows c f.type inner) : Shows c (.record id) inner

/-- What an embedding field that counts as a zero holds is a record that counts as a zero, where
what is fresh holds a fresh one; or both hold nothing. -/
theorem recordIn_of_isZero : ∀ {t : Ty} {x : Datum}, c.OfType t x → c.isZero t x = true →
    t.embedded? = some inner → (t.recordIn? x = none ∧ t.recordIn? (c.initial t) = none) ∨
      ∃ r, t.recordIn? x = some r ∧ t.recordIn? (c.initial t) = some (c.initial (.record inner)) ∧
        c.OfType (.record inner) r ∧ c.isZero (.record inner) r = true ∧
        ∀ k, c.Shows (.record inner) k → c.Shows t k
  | .record _, x, typed, zero, embeds => by
    cases embeds
    exact .inr ⟨x, rfl, rfl, typed, zero, fun _ shows => shows⟩
  | .box t, x, typed, zero, embeds => by
    rw [isZero] at zero
    rcases recordIn_of_isZero (t := t) typed.unbox zero embeds with
      none' | ⟨r, inside, inside', typed, zero, sight⟩
    · exact .inl none'
    · exact .inr ⟨r, inside, inside', typed, zero, fun k shows => .box (sight k shows)⟩
  | .option t, x, typed, zero, _ => by
    rw [isZero, Option.isNone_iff_eq_none] at zero
    refine .inl ⟨?_, rfl⟩
    rw [Ty.recordIn?, zero]

variable {i : Nat} {f : FieldDecl} {found : Ty × RecordId}

theorem visible_of_direct (direct : c.direct? id i = some f) : f.isVisible = true := by
  have isDirect := (Option.filter_eq_some_iff.1 direct).2
  simp only [FieldDecl.isDirect, Bool.and_eq_true] at isDirect
  exact isDirect.1.1

theorem visible_of_enter (field : c.field? id i = some f) (enter : c.enter? id i = some found) :
    f.isVisible = true := by
  cases visible : f.isVisible with
  | true => rfl
  | false => simp [enter?, field, FieldDecl.entered?, visible] at enter

/-- What a record that counts as a zero has in a visible field, and what a fresh one has there. -/
theorem field_of_isZero (zeros : c.ZeroDefaults) (typed : c.OfType (.record id) d)
    (zero : c.isZero (.record id) d = true)
    (field : c.field? id i = some f) (visible : f.isVisible = true) :
    ∃ x, d.fields[i]? = some x ∧ (c.initial (.record id)).fields[i]? = some (c.initial f.type) ∧
      c.OfType f.type x ∧ c.isZero f.type x = true := by
  cases typed with
  | @record id fs length each =>
    have within : i < fs.length := length ▸ (List.getElem?_eq_some_iff.1 field).1
    have here := List.getElem?_eq_getElem within
    refine ⟨fs[i], here, ?_, each i f _ field here,
      (isZero_record_iff.1 zero).2 i f _ field visible here⟩
    rw [fields_initial field, zeros id i f field]

/-- **A record that counts as a zero looks like a fresh one along every path.** -/
theorem lookup_of_isZero (zeros : c.ZeroDefaults) (typed : c.OfType (.record id) d)
    (zero : c.isZero (.record id) d = true)
    (path : List Nat) :
    (c.lookup id path d = none ∧ c.lookup id path (c.initial (.record id)) = none) ∨
      ∃ t x, c.lookup id path d = some (t, x) ∧
        c.lookup id path (c.initial (.record id)) = some (t, c.initial t) ∧ c.OfType t x ∧
        c.isZero t x = true ∧ ∀ k, c.Shows t k → c.Shows (.record id) k := by
  induction path generalizing id d with
  | nil => exact .inl ⟨rfl, rfl⟩
  | cons i rest ih =>
    rcases eq_or_ne rest [] with rfl | some'
    · cases direct : c.direct? id i with
      | none => exact .inl ⟨by rw [lookup, direct]; rfl, by rw [lookup, direct]; rfl⟩
      | some f =>
        have field := direct?_eq_some direct
        have visible := visible_of_direct direct
        obtain ⟨x, here, here', typed, zero⟩ := field_of_isZero zeros typed zero field visible
        refine .inr ⟨f.type, x, ?_, ?_, typed, zero, fun k shows =>
          .field (List.mem_of_getElem? field) visible shows⟩
        · rw [lookup_own direct, here, Option.map_some]
        · rw [lookup_own direct, here', Option.map_some]
    · obtain ⟨j, rest, rfl⟩ := List.exists_cons_of_ne_nil some'
      cases enter : c.enter? id i with
      | none => exact .inl ⟨by rw [lookup, enter]; rfl, by rw [lookup, enter]; rfl⟩
      | some entered =>
        obtain ⟨t, inner⟩ := entered
        obtain ⟨f, field, rfl, embeds⟩ := enter?_eq_some enter
        have visible := visible_of_enter field enter
        obtain ⟨x, here, here', typed, zero⟩ := field_of_isZero zeros typed zero field visible
        rw [lookup_within some' enter, lookup_within some' enter, here, here', Option.bind_some,
          Option.bind_some]
        rcases recordIn_of_isZero typed zero embeds with
          ⟨none', none''⟩ | ⟨r, inside, inside', typed, zero, sight⟩
        · exact .inl ⟨by rw [none']; rfl, by rw [none'']; rfl⟩
        · rw [inside, inside', Option.bind_some, Option.bind_some]
          rcases ih typed zero with none' | ⟨u, y, found, found', typed, zero, sight'⟩
          · exact .inl none'
          · exact .inr ⟨u, y, found, found', typed, zero, fun k shows =>
              .field (List.mem_of_getElem? field) visible (sight k (sight' k shows))⟩

end MessagePack.Catalog
