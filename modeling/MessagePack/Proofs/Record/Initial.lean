import Mathlib.Data.List.Forall2
import MessagePack.Record.Initial
/-!
# What is fresh, and of which type

A fresh record is built from the records that it holds directly, as many levels down as there are
declarations.  A catalog is grounded, so that is always deep enough: the level does not matter, and
a fresh record holds in each field what the field declares, or what is fresh of the field's type.

`Catalog.OfType` says of which type a datum is.  A catalog is typed, so what is fresh of a type is
one of its data.  `Catalog.ZeroDefaults` says that no declaration has a say in what is fresh.

Main statements: `Catalog.initial_record` and `Catalog.ofType_initial`.
-/

namespace MessagePack

/-! ## 1. What is fresh of a record -/

namespace Ty

variable {f g : RecordId → Datum}

mutual

/-- What is fresh depends on the records that are held directly and on no others. -/
theorem initialWith_congr : ∀ t : Ty, (∀ id ∈ t.heldRecords, f id = g id) →
    t.initialWith f = t.initialWith g
  | .record id, same => same id (List.mem_singleton_self id)
  | .box t, same => initialWith_congr t same
  | .array n t, same => by
    have inner := initialWith_congr t same
    rw [initialWith, initialWith, inner]
  | .tuple ts, same => by
    have parts := initialEach_congr ts same
    rw [initialWith, initialWith, parts]
  | .bool, _ | .number _, _ | .text, _ | .bytes, _ | .dynamic, _ | .timestamp, _ | .clockTime, _
  | .list _, _ | .option _, _ | .map _ _ _, _ => rfl

theorem initialEach_congr : ∀ ts : List Ty, (∀ id ∈ heldByAny ts, f id = g id) →
    initialEach f ts = initialEach g ts
  | [], _ => rfl
  | t :: ts, same => by
    have first := initialWith_congr t fun id h => same id (List.mem_append_left _ h)
    have rest := initialEach_congr ts fun id h => same id (List.mem_append_right _ h)
    rw [initialEach, initialEach, first, rest]

end

end Ty

/-- A fresh field depends on the records that it holds directly. -/
theorem FieldDecl.initialWith_congr {f : FieldDecl} {g h : RecordId → Datum}
    (same : ∀ id ∈ f.type.heldRecords, g id = h id) : f.initialWith g = f.initialWith h := by
  rw [initialWith, initialWith, Ty.initialWith_congr f.type same]

namespace Catalog

variable {c : Catalog} {id inner : Nat} {f : FieldDecl}

/-- A record that is not declared has no fields. -/
theorem fields_eq_nil (undeclared : c.records.length ≤ id) : (c.decl id).fields = [] := by
  unfold decl
  rw [List.getElem?_eq_none undeclared]
  rfl

/-- **A record holds directly only records declared before it.** -/
theorem held_lt (field : f ∈ (c.decl id).fields) (held : inner ∈ f.type.heldRecords) :
    inner < id := by
  rcases Nat.lt_or_ge id c.records.length with declared | undeclared
  · have grounded := c.isGrounded
    simp only [MessagePack.grounded, List.all_eq_true, decide_eq_true_eq] at grounded
    have place : (c.decl id, id) ∈ c.records.zipIdx := by
      rw [List.mem_zipIdx_iff_getElem?, decl, List.getElem?_eq_getElem declared]
      rfl
    exact grounded _ place f field inner held
  · rw [fields_eq_nil undeclared] at field
    cases field

/-- Levels beyond the place of a record in the catalog do not matter. -/
theorem initials_eq {k l : Nat} (hk : id < k) (hl : id < l) :
    c.initials k id = c.initials l id := by
  induction id using Nat.strongRecOn generalizing k l with
  | ind id ih =>
    obtain ⟨k, rfl⟩ : ∃ j, k = j + 1 := ⟨k - 1, by omega⟩
    obtain ⟨l, rfl⟩ : ∃ j, l = j + 1 := ⟨l - 1, by omega⟩
    rw [initials, initials]
    congr 1
    refine List.map_congr_left fun f field => f.initialWith_congr fun inner held => ?_
    have below := held_lt field held
    exact ih inner below (by omega) (by omega)

/-- **A fresh record holds in each field what is fresh in that field.** -/
theorem initial_record (c : Catalog) (id : RecordId) :
    c.initial (.record id) = .record ((c.decl id).fields.map c.initialOf) := by
  change c.initials c.records.length id = _
  rcases Nat.lt_or_ge id c.records.length with declared | undeclared
  · obtain ⟨k, levels⟩ : ∃ k, c.records.length = k + 1 := ⟨c.records.length - 1, by omega⟩
    rw [levels, initials]
    congr 1
    refine List.map_congr_left fun f field => f.initialWith_congr fun inner held => ?_
    have below := held_lt field held
    exact initials_eq (by omega) (by omega)
  · rw [fields_eq_nil undeclared]
    cases c.records.length with
    | zero => rfl
    | succ k => rw [initials, fields_eq_nil undeclared, List.map_nil, List.map_nil]

/-- The same by one field. -/
theorem fields_initial {i : Nat} (field : c.field? id i = some f) :
    (c.initial (.record id)).fields[i]? = some (c.initialOf f) := by
  rw [initial_record, Datum.fields, List.getElem?_map,
    show (c.decl id).fields[i]? = some f from field, Option.map_some]

/-- No declaration has a say in what is fresh: a record's default is made of the defaults of its
fields' types. -/
def ZeroDefaults (c : Catalog) : Prop :=
  ∀ id i f, c.field? id i = some f → c.initialOf f = c.initial f.type

/-- So it is if no field declares anything. -/
theorem ZeroDefaults.of_all
    (all : c.records.all (fun r => r.fields.all (·.initial?.isNone)) = true) :
    c.ZeroDefaults := by
  intro id i f field
  have mem : f ∈ (c.decl id).fields := List.mem_of_getElem? field
  rcases Nat.lt_or_ge id c.records.length with declared | undeclared
  · have place : c.decl id ∈ c.records := by
      rw [decl, List.getElem?_eq_getElem declared]
      exact List.getElem_mem declared
    have silent := List.all_eq_true.1 (List.all_eq_true.1 all _ place) f mem
    rw [initialOf, FieldDecl.initialWith, Option.isNone_iff_eq_none.1 silent]
    rfl
  · rw [fields_eq_nil undeclared] at mem
    cases mem

/-! ## 2. Data of a type -/

/-- The datum is one of the type's. -/
inductive OfType (c : Catalog) : Ty → Datum → Prop
  | bool (b : Bool) : OfType c .bool (.bool b)
  | whole {t : NumType} {i : Int} (fits : t.holds i = true) : OfType c (.number t) (.int i)
  | single (x : Single) : OfType c (.number .single) (.single x)
  | double (x : Double) : OfType c (.number .double) (.double x)
  | text (s : String) : OfType c .text (.text s)
  | bytes (b : List UInt8) : OfType c .bytes (.bytes b)
  | dynamic (v : Value) : OfType c .dynamic (.dynamic v)
  | timestamp (a : Timestamp) : OfType c .timestamp (.timestamp a)
  | clockTime (a : ClockTime) : OfType c .clockTime (.clockTime a)
  | list {t : Ty} {items : List Datum} (each : ∀ x ∈ items, OfType c t x) :
      OfType c (.list t) (.seq items)
  | array {t : Ty} {items : List Datum} (each : ∀ x ∈ items, OfType c t x) :
      OfType c (.array items.length t) (.seq items)
  | tuple {parts : List (Ty × Datum)} (each : ∀ p ∈ parts, OfType c p.1 p.2) :
      OfType c (.tuple (parts.map (·.1))) (.seq (parts.map (·.2)))
  | absent {t : Ty} : OfType c (.option t) .absent
  | present {t : Ty} {x : Datum} (held : OfType c t x) : OfType c (.option t) (.present x)
  | box {t : Ty} {x : Datum} (held : OfType c t x) : OfType c (.box t) x
  | map {order : MapOrder} {kt vt : Ty} {es : List (Datum × Datum)}
      (keys : ∀ e ∈ es, OfType c kt e.1) (values : ∀ e ∈ es, OfType c vt e.2) :
      OfType c (.map order kt vt) (.map es)
  | record {id : RecordId} {fs : List Datum} (length : fs.length = (c.decl id).fields.length)
      (each : ∀ i f x, c.field? id i = some f → fs[i]? = some x → OfType c f.type x) :
      OfType c (.record id) (.record fs)

namespace OfType

variable {t kt vt : Ty} {ts : List Ty} {n : Nat} {order : MapOrder} {d x : Datum}
  {e : Datum × Datum}

/-- The items of a list are of its type. -/
theorem item (typed : c.OfType (.list t) d) (h : x ∈ d.items) : c.OfType t x := by
  cases typed with
  | list each => exact each x h

/-- So are those of an array. -/
theorem element (typed : c.OfType (.array n t) d) (h : x ∈ d.items) : c.OfType t x := by
  cases typed with
  | array each => exact each x h

/-- A tuple has as many parts as its type. -/
theorem length_parts (typed : c.OfType (.tuple ts) d) : d.items.length = ts.length := by
  cases typed
  rw [Datum.items, List.length_map, List.length_map]

/-- Each of them is of its own type. -/
theorem part {p : Ty × Datum} (typed : c.OfType (.tuple ts) d) (h : p ∈ ts.zip d.items) :
    c.OfType p.1 p.2 := by
  cases typed with
  | tuple each =>
    rw [Datum.items, List.zip_map'] at h
    obtain ⟨q, hq, rfl⟩ := List.mem_map.1 h
    exact each q hq

/-- What an option holds is of its type. -/
theorem held (typed : c.OfType (.option t) d) (h : d.held? = some x) : c.OfType t x := by
  cases typed with
  | absent => cases h
  | present held =>
    cases h
    exact held

theorem unbox (typed : c.OfType (.box t) d) : c.OfType t d := by
  cases typed with
  | box held => exact held

/-- A map's keys and values are of theirs. -/
theorem entry (typed : c.OfType (.map order kt vt) d) (h : e ∈ d.entries) :
    c.OfType kt e.1 ∧ c.OfType vt e.2 := by
  cases typed with
  | map keys values => exact ⟨keys e h, values e h⟩

/-- A record's fields are as declared. -/
theorem field {i : Nat} (typed : c.OfType (.record id) d) (field : c.field? id i = some f)
    (here : d.fields[i]? = some x) : c.OfType f.type x := by
  cases typed with
  | record length each => exact each i f x field here

end OfType

/-! ## 3. Arrays and tuples -/

namespace OfType

variable {items : List Datum} {i : Nat}

theorem array_of {n : Nat} (length : items.length = n) (each : ∀ x ∈ items, c.OfType t x) :
    c.OfType (.array n t) (.seq items) := by
  subst length
  exact .array each

theorem exists_elements {n : Nat} (typed : c.OfType (.array n t) d) :
    ∃ items, d = .seq items ∧ ∀ x ∈ items, c.OfType t x := by
  cases typed with
  | array each => exact ⟨_, rfl, each⟩

theorem emptyList : c.OfType (.list t) (.seq []) := .list (List.forall_mem_nil _)

theorem emptyMap {order : MapOrder} {kt vt : Ty} : c.OfType (.map order kt vt) (.map []) :=
  .map (List.forall_mem_nil _) (List.forall_mem_nil _)

/-- A tuple is of its type when its parts are of theirs, side by side. -/
theorem tuple_iff :
    c.OfType (.tuple ts) d ↔ ∃ ds, d = .seq ds ∧ List.Forall₂ c.OfType ts ds := by
  constructor
  · intro typed
    cases typed with
    | tuple each => exact ⟨_, rfl, List.forall₂_map_left_iff.2 (List.forall₂_map_right_iff.2
        (List.forall₂_same.2 each))⟩
  · rintro ⟨ds, rfl, each⟩
    obtain ⟨length, each⟩ := List.forall₂_iff_zip.1 each
    have parts : c.OfType (.tuple ((ts.zip ds).map (·.1))) (.seq ((ts.zip ds).map (·.2))) :=
      .tuple fun p mem => each mem
    rwa [List.map_fst_zip (Nat.le_of_eq length), List.map_snd_zip (Nat.le_of_eq length.symm)]
      at parts

/-- What stands at one place of a tuple is of the type at that place. -/
theorem of_forall₂ {ds : List Datum} (each : List.Forall₂ c.OfType ts ds) (type : ts[i]? = some t)
    (here : ds[i]? = some x) : c.OfType t x := by
  refine (List.forall₂_iff_zip.1 each).2 (List.mem_of_getElem? (i := i) ?_)
  rw [List.getElem?_zip_eq_some]
  exact ⟨type, here⟩

theorem of_replicate {n : Nat} (each : List.Forall₂ c.OfType (List.replicate n t) items)
    (mem : x ∈ items) : c.OfType t x := by
  obtain ⟨i, here⟩ := List.mem_iff_getElem?.1 mem
  have within : i < n := by
    have lt := (List.getElem?_eq_some_iff.1 here).1
    rwa [← each.length_eq, List.length_replicate] at lt
  exact of_forall₂ each (List.getElem?_replicate_of_lt within) here

/-- A record is of its type when its fields are of theirs, side by side. -/
theorem record_of_forall₂ (each : List.Forall₂ c.OfType (fieldTypes c.records id) items) :
    c.OfType (.record id) (.record items) := by
  have length := each.length_eq
  rw [fieldTypes, List.length_map] at length
  refine .record length.symm fun i f x field here => of_forall₂ each ?_ here
  rw [fieldTypes, List.getElem?_map]
  exact congrArg (Option.map _) field

end OfType

/-! ## 4. What is fresh is of its type -/

theorem ofType_of_bare {d : Datum} : ∀ t : Ty, c.OfType t.bare d → c.OfType t d
  | .box t, typed => .box (ofType_of_bare t typed)
  | .bool, typed | .number _, typed | .text, typed | .bytes, typed | .dynamic, typed
  | .timestamp, typed | .clockTime, typed | .list _, typed | .array _ _, typed | .tuple _, typed
  | .option _, typed | .map _ _ _, typed | .record _, typed => typed

mutual

/-- **What fits a type, as far as it can be checked, is of it.** -/
theorem ofType_of_fitsBare (d : Datum) (t : Ty)
    (fits : d.fitsBare (fieldTypes c.records) t = true) : c.OfType t d := by
  cases d with
  | bool b => cases t <;> first | exact .bool b | cases fits
  | int i => cases t <;> first | exact .whole fits | cases fits
  | single x =>
    cases t with
    | number n => cases n <;> first | exact .single x | cases fits
    | _ => cases fits
  | double x =>
    cases t with
    | number n => cases n <;> first | exact .double x | cases fits
    | _ => cases fits
  | text s => cases t <;> first | exact .text s | cases fits
  | bytes b => cases t <;> first | exact .bytes b | cases fits
  | dynamic v => cases t <;> first | exact .dynamic v | cases fits
  | timestamp a => cases t <;> first | exact .timestamp a | cases fits
  | clockTime a => cases t <;> first | exact .clockTime a | cases fits
  | seq ds =>
    cases t with
    | list e => exact .list fun x mem => .of_replicate (ofType_of_fitsEach ds _ fits) mem
    | array n e =>
      have each := ofType_of_fitsEach ds _ fits
      refine .array_of (each.length_eq.symm.trans List.length_replicate) fun x mem => ?_
      exact .of_replicate each mem
    | tuple ts => exact OfType.tuple_iff.2 ⟨ds, rfl, ofType_of_fitsEach ds ts fits⟩
    | _ => cases fits
  | absent => cases t <;> first | exact .absent | cases fits
  | present x =>
    cases t with
    | option e => exact .present (ofType_of_bare e (ofType_of_fitsBare x e.bare fits))
    | _ => cases fits
  | map es =>
    cases t with
    | map order kt vt =>
      have each := ofType_of_fitsEntries es kt vt fits
      exact .map (fun e mem => (each e mem).1) fun e mem => (each e mem).2
    | _ => cases fits
  | record ds =>
    cases t with
    | record id => exact .record_of_forall₂ (ofType_of_fitsEach ds _ fits)
    | _ => cases fits

/-- Part by part. -/
theorem ofType_of_fitsEach (ds : List Datum) (ts : List Ty)
    (fits : Datum.fitsEach (fieldTypes c.records) ds ts = true) : List.Forall₂ c.OfType ts ds := by
  cases ds with
  | nil =>
    cases ts with
    | nil => exact .nil
    | cons => cases fits
  | cons d ds =>
    cases ts with
    | nil => cases fits
    | cons t ts =>
      obtain ⟨first, rest⟩ := Bool.and_eq_true_iff.1 fits
      exact .cons (ofType_of_bare t (ofType_of_fitsBare d t.bare first))
        (ofType_of_fitsEach ds ts rest)

/-- Entry by entry. -/
theorem ofType_of_fitsEntries (es : List (Datum × Datum)) (kt vt : Ty)
    (fits : Datum.fitsEntries (fieldTypes c.records) es kt vt = true) :
    ∀ e ∈ es, c.OfType kt e.1 ∧ c.OfType vt e.2 := by
  cases es with
  | nil => exact List.forall_mem_nil _
  | cons e es =>
    obtain ⟨k, v⟩ := e
    obtain ⟨first, rest⟩ := Bool.and_eq_true_iff.1 fits
    obtain ⟨key, value⟩ := Bool.and_eq_true_iff.1 first
    exact List.forall_mem_cons.2 ⟨⟨ofType_of_bare kt (ofType_of_fitsBare k kt.bare key),
      ofType_of_bare vt (ofType_of_fitsBare v vt.bare value)⟩,
      ofType_of_fitsEntries es kt vt rest⟩

end

mutual

/-- What is fresh of a type is of the type, if that of the records it holds directly is. -/
theorem ofType_initial_of : ∀ t : Ty,
    (∀ id ∈ t.heldRecords, c.OfType (.record id) (c.initial (.record id))) →
      c.OfType t (c.initial t)
  | .bool, _ => .bool false
  | .number (.uint w), _ | .number (.int w), _ => by
    refine .whole ?_
    cases w <;> decide
  | .number .single, _ => .single default
  | .number .double, _ => .double default
  | .text, _ => .text ""
  | .bytes, _ => .bytes []
  | .dynamic, _ => .dynamic .nil
  | .timestamp, _ => .timestamp .epoch
  | .clockTime, _ => .clockTime .epoch
  | .list _, _ => .emptyList
  | .array n t, held => by
    refine .array_of List.length_replicate fun x mem => ?_
    rw [List.eq_of_mem_replicate mem]
    exact ofType_initial_of t held
  | .tuple ts, held => OfType.tuple_iff.2 ⟨_, rfl, ofType_initialEach_of ts held⟩
  | .option _, _ => .absent
  | .box t, held => .box (ofType_initial_of t held)
  | .map _ _ _, _ => .emptyMap
  | .record id, held => held id (List.mem_singleton_self id)

theorem ofType_initialEach_of : ∀ ts : List Ty,
    (∀ id ∈ Ty.heldByAny ts, c.OfType (.record id) (c.initial (.record id))) →
    List.Forall₂ c.OfType ts (Ty.initialEach (c.initials c.records.length) ts)
  | [], _ => .nil
  | t :: ts, held =>
    .cons (ofType_initial_of t fun id h => held id (List.mem_append_left _ h))
      (ofType_initialEach_of ts fun id h => held id (List.mem_append_right _ h))

end

/-- What a field declares for fresh records is of the field's type. -/
theorem ofType_of_declared {i : Nat} {d : Datum} (field : c.field? id i = some f)
    (declared : f.initial? = some d) : c.OfType f.type d := by
  have mem : f ∈ (c.decl id).fields := List.mem_of_getElem? field
  rcases Nat.lt_or_ge id c.records.length with known | undeclared
  · have place : c.decl id ∈ c.records := by
      rw [decl, List.getElem?_eq_getElem known]
      exact List.getElem_mem known
    have all := List.all_eq_true.1 (List.all_eq_true.1 c.isTyped _ place) f mem
    rw [declared] at all
    exact ofType_of_bare f.type (ofType_of_fitsBare d f.type.bare all)
  · rw [fields_eq_nil undeclared] at mem
    cases mem

/-- A fresh record is one. -/
theorem ofType_initial_record (c : Catalog) (id : Nat) :
    c.OfType (.record id) (c.initial (.record id)) := by
  induction id using Nat.strongRecOn with
  | ind id ih =>
    rw [initial_record]
    refine .record (List.length_map _) ?_
    intro i f x field here
    rw [List.getElem?_map, show (c.decl id).fields[i]? = some f from field] at here
    cases here
    rw [initialOf, FieldDecl.initialWith]
    cases declared : f.initial? with
    | some d => exact ofType_of_declared field declared
    | none =>
      exact ofType_initial_of f.type fun inner held =>
        ih inner (held_lt (List.mem_of_getElem? field) held)

/-- **What is fresh of a type is one of its data.** -/
theorem ofType_initial (c : Catalog) (t : Ty) : c.OfType t (c.initial t) :=
  ofType_initial_of t fun id _ => c.ofType_initial_record id

end Catalog

end MessagePack
