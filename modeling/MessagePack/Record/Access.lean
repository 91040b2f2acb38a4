import MessagePack.Record.Initial
import MessagePack.Fault
import MessagePack.Record.Layout
/-!
# Fields behind paths

A slot's path leads through embedded records to a field.  `Catalog.lookup` follows it for reading
and finds nothing when an embedded record on the way is absent.  `Catalog.reach` follows it for
writing: absent embedded records come into being fresh, and what was allocated stays even where the
path turns out to lead nowhere.  `Catalog.put` replaces the datum at its end.
-/

namespace MessagePack

namespace Ty

/-- The record that an embedding field holds, if it holds one now. -/
def recordIn? : Ty → Datum → Option Datum
  | .record _, d => some d
  | .box t, d => t.recordIn? d
  | .option t, d =>
    match d.held? with
    | some x => t.recordIn? x
    | none => none
  | _, _ => none

/-- The datum of an embedding field that holds this record. -/
def holding : Ty → Datum → Datum
  | .box t, d => t.holding d
  | .option t, d => .present (t.holding d)
  | _, d => d

end Ty

namespace Catalog

/-- The record that an embedding field holds, a fresh one if it holds none. -/
def allocate (c : Catalog) : Ty → Datum → Datum
  | .box t, d => c.allocate t d
  | .option t, d => c.allocate t (d.held?.getD (c.initial t))
  | _, d => d

/-- A field whose own value the record hands out, by place. -/
def direct? (c : Catalog) (id : RecordId) (index : Nat) : Option FieldDecl :=
  (c.field? id index).filter (·.isDirect)

/-- A field through which an embedded record can be entered, by place: its type and that record. -/
def enter? (c : Catalog) (id : RecordId) (index : Nat) : Option (Ty × RecordId) := do
  let f ← c.field? id index
  let inner ← f.entered?
  return (f.type, inner)

/-- The field at the end of a path, with its type. -/
def lookup (c : Catalog) (id : RecordId) : List Nat → Datum → Option (Ty × Datum)
  | [], _ => none
  | [i], d => do
    let f ← c.direct? id i
    let x ← d.fields[i]?
    return (f.type, x)
  | i :: j :: rest, d => do
    let (t, inner) ← c.enter? id i
    let x ← d.fields[i]?
    let r ← t.recordIn? x
    c.lookup inner (j :: rest) r

/-- The field at the end of a path for writing, and the record with everything on the path
allocated.  `name` is the wire name, for the fault. -/
def reach (c : Catalog) (name : String) (id : RecordId) :
    List Nat → Datum → Except Fault (Ty × Datum) × Datum
  | [], d => (.error (.misfit (.emptyPath name)), d)
  | [i], d =>
    match c.direct? id i, d.fields[i]? with
    | some f, some x => (.ok (f.type, x), d)
    | _, _ => (.error (.misfit (.readOnlyField name)), d)
  | i :: j :: rest, d =>
    match c.enter? id i, d.fields[i]? with
    | some (t, inner), some x =>
      let (found, r) := c.reach name inner (j :: rest) (c.allocate t x)
      (found, d.setField i (t.holding r))
    | _, _ => (.error (.misfit (.noEmbedded i name)), d)

/-- The record with the datum at the end of a path replaced. -/
def put (c : Catalog) (id : RecordId) : List Nat → Datum → Datum → Datum
  | [], d, _ => d
  | [i], d, v => d.setField i v
  | i :: j :: rest, d, v =>
    match c.enter? id i, d.fields[i]? with
    | some (t, inner), some x =>
      d.setField i (t.holding (c.put inner (j :: rest) (c.allocate t x) v))
    | _, _ => d

end Catalog

namespace Ty

theorem sizeOf_recordIn {t : Ty} {d x : Datum} (h : t.recordIn? d = some x) :
    sizeOf x ≤ sizeOf d := by
  fun_induction recordIn? t d with
  | case1 id d => simp_all
  | case2 t d ih => exact ih h
  | case3 t d y hy ih => exact Nat.le_trans (ih h) (Nat.le_of_lt (Datum.sizeOf_held hy))
  | case4 => simp at h
  | case5 => simp at h

end Ty

/-- What stands at the end of a path is a proper part of the record. -/
theorem Catalog.sizeOf_lookup {c : Catalog} {id : RecordId} {path : List Nat} {d : Datum}
    {found : Ty × Datum} (h : c.lookup id path d = some found) :
    sizeOf found.2 < sizeOf d := by
  induction path generalizing id d with
  | nil => simp [lookup] at h
  | cons i rest ih =>
    cases rest with
    | nil =>
      simp only [lookup, bind, Option.bind_eq_some_iff] at h
      obtain ⟨f, -, x, hx, hf⟩ := h
      simp only [pure, Option.some.injEq] at hf
      subst hf
      exact Datum.sizeOf_fields (List.mem_of_getElem? hx)
    | cons j rest =>
      simp only [lookup, bind, Option.bind_eq_some_iff] at h
      obtain ⟨⟨t, inner⟩, -, x, hx, r, hr, hf⟩ := h
      have below := ih hf
      have inside := Ty.sizeOf_recordIn hr
      have part := Datum.sizeOf_fields (List.mem_of_getElem? hx)
      omega

end MessagePack
