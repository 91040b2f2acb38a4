import MessagePack.Proofs.Record.Initial
import MessagePack.Record.Zero
/-!
# What may be left out

A field may leave out what `Catalog.isZero` holds of.  For a datum of the field's type that is what
is fresh of the type, or it differs from it by the sign of a float's zero, in what a record keeps
hidden or in what a record declares for its fields.

Main statement: `Catalog.vanishes_of_isZero`.
-/

namespace MessagePack.Catalog

variable {c : Catalog} {id : RecordId}

/-- **A record may be left out when it goes by its fields and all visible ones may.** -/
theorem isZero_record_iff {fs : List Datum} : c.isZero (.record id) (.record fs) = true ↔
    (c.decl id).form = .plain ∧ ∀ (i : Nat) (f : FieldDecl) (x : Datum), c.field? id i = some f →
      f.isVisible = true → fs[i]? = some x → c.isZero f.type x = true := by
  rw [isZero]
  cases form : (c.decl id).form with
  | manual | external => simp
  | plain =>
    simp only [List.all_eq_true, true_and]
    constructor
    · intro all i f x field visible here
      have place : (f, x) ∈ (c.decl id).fields.zip fs := by
        refine List.mem_of_getElem? (i := i) ?_
        rw [List.getElem?_zip_eq_some]
        exact ⟨field, here⟩
      have own : (!f.isVisible || c.isZero f.type x) = true :=
        all ⟨(f, x), place⟩ (List.mem_attach _ _)
      rwa [visible] at own
    · rintro each ⟨⟨f, x⟩, place⟩ -
      obtain ⟨i, at'⟩ := List.mem_iff_getElem?.1 place
      rw [List.getElem?_zip_eq_some] at at'
      change (!f.isVisible || c.isZero f.type x) = true
      cases visible : f.isVisible with
      | false => rfl
      | true => exact each i f x at'.1 visible at'.2

/-- The datum is its type's zero, a float's zero of either sign being one; of a record that goes by
its fields, its visible fields are. -/
inductive Vanishes (c : Catalog) : Ty → Datum → Prop
  | zero {t : Ty} : Vanishes c t (c.initial t)
  | single {x : Single} (zero : x.classify.isZero = true) : Vanishes c (.number .single) (.single x)
  | double {x : Double} (zero : x.classify.isZero = true) : Vanishes c (.number .double) (.double x)
  | box {t : Ty} {x : Datum} (held : Vanishes c t x) : Vanishes c (.box t) x
  | record {id : RecordId} {fs : List Datum} (plain : (c.decl id).form = .plain)
      (each : ∀ i f x, c.field? id i = some f → f.isVisible = true → fs[i]? = some x →
        Vanishes c f.type x) : Vanishes c (.record id) (.record fs)

/-- What is fresh may be left out. -/
theorem vanishes_of_eq {t : Ty} {x : Datum} (e : x = c.initial t) : c.Vanishes t x := by
  rw [e]
  exact .zero

/-- **What may be left out of a field vanishes.** -/
theorem vanishes_of_isZero {t : Ty} {x : Datum} (typed : c.OfType t x)
    (zero : c.isZero t x = true) : c.Vanishes t x := by
  induction typed with
  | bool b =>
    rw [isZero, Bool.not_eq_true'] at zero
    exact vanishes_of_eq (congrArg Datum.bool zero)
  | @whole t i fits =>
    cases t with
    | single | double => cases fits
    | uint | int =>
      rw [isZero] at zero
      exact vanishes_of_eq (congrArg Datum.int (beq_iff_eq.1 zero))
  | single x =>
    rw [isZero] at zero
    exact .single zero
  | double x =>
    rw [isZero] at zero
    exact .double zero
  | text s =>
    rw [isZero, beq_iff_eq] at zero
    exact vanishes_of_eq (congrArg Datum.text zero)
  | bytes b =>
    rw [isZero, List.isEmpty_iff] at zero
    exact vanishes_of_eq (congrArg Datum.bytes zero)
  | dynamic v =>
    rw [isZero] at zero
    cases v with
    | nil => exact .zero
    | _ => cases zero
  | timestamp a =>
    rw [isZero, beq_iff_eq] at zero
    exact vanishes_of_eq (congrArg Datum.timestamp zero)
  | clockTime a =>
    rw [isZero, beq_iff_eq] at zero
    exact vanishes_of_eq (congrArg Datum.clockTime zero)
  | list =>
    rw [isZero, List.isEmpty_iff] at zero
    exact vanishes_of_eq (congrArg Datum.seq zero)
  | array =>
    rw [isZero, beq_iff_eq] at zero
    rw [List.length_eq_zero_iff.1 zero]
    exact .zero
  | tuple =>
    rw [isZero] at zero
    cases zero
  | absent => exact .zero
  | present =>
    rw [isZero] at zero
    cases zero
  | box _ ih =>
    rw [isZero] at zero
    exact .box (ih zero)
  | map =>
    rw [isZero, List.isEmpty_iff] at zero
    exact vanishes_of_eq (congrArg Datum.map zero)
  | @record id fs length _ ih =>
    obtain ⟨plain, each⟩ := isZero_record_iff.1 zero
    exact .record plain fun i f x field visible here =>
      ih i f x field here (each i f x field visible here)

end MessagePack.Catalog
