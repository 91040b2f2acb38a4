import MessagePack.Proofs.Record.Initial
import MessagePack.Record.Access
/-!
# Places in records

A place is a path of positions through embedded records to a field, private and ignored fields
included.  `Catalog.Leads` says by the declarations alone to which field a place leads, and
`Catalog.Holds` what a record has there: nothing if an embedded record on the way is absent.  What
would be there if the absent records on the way came into being, fresh ones, is what the place
yields, `Catalog.Yields`.

The paths of slots are places of fields that a record hands out; `Catalog.lookup`, `Catalog.reach`
and `Catalog.put` follow them.  Main statements: `Catalog.lookup_eq_some` and `Catalog.reach_eq`,
what following a path finds.
-/

namespace MessagePack

/-! ## 1. Embedding fields -/

/-- Whether a datum of an embedding field may hold no record. -/
def Ty.isOptional : Ty → Bool
  | .option _ => true
  | .box t => t.isOptional
  | _ => false

namespace FieldDecl

variable {f : FieldDecl} {inner : RecordId}

/-- The record whose fields a visible field lends to the record around it. -/
def lends? (f : FieldDecl) : Option RecordId := if f.isVisible then f.promoted? else none

/-- A field lends a record's fields if it is visible and its tag gives them no name of their own. -/
theorem lends?_eq_some :
    f.lends? = some inner ↔ f.isVisible = true ∧ f.promoted? = some inner := by
  unfold lends?
  split <;> simp_all

/-- A field whose own value is handed out lends no fields. -/
theorem lends?_of_isDirect (direct : f.isDirect = true) : f.lends? = none := by
  simp only [isDirect, Bool.and_eq_true, Option.isNone_iff_eq_none] at direct
  rw [lends?, direct.1.2]
  exact ite_self none

/-- What a field lends is the record that its type comes down to. -/
theorem embedded?_of_lends (lends : f.lends? = some inner) : f.type.embedded? = some inner := by
  have promoted := (lends?_eq_some.1 lends).2
  unfold promoted? at promoted
  split at promoted
  · exact promoted
  · cases promoted

/-- Such a field is entered if the record hands it out. -/
theorem entered?_of_lends (lends : f.lends? = some inner) (reachable : f.reachable = true) :
    f.entered? = some inner := by
  obtain ⟨visible, promoted⟩ := lends?_eq_some.1 lends
  unfold promoted? at promoted
  split at promoted
  · rename_i embeds
    simp only [Bool.and_eq_true] at embeds
    rw [entered?, visible, embeds.1, reachable]
    exact promoted
  · cases promoted

end FieldDecl

namespace Catalog

variable {c : Catalog} {id inner : RecordId} {i : Nat} {f g : FieldDecl} {t : Ty}
  {d r v x y : Datum} {p q a rest : List Nat}

/-- A datum of an embedding field, or of a record: it has the form that its type asks for, down to
all embedded records. -/
inductive Shaped (c : Catalog) : Ty → Datum → Prop
  | record {id : RecordId} {fs : List Datum} (length : fs.length = (c.decl id).fields.length)
      (each : ∀ i f x, c.field? id i = some f → f.lends?.isSome = true → fs[i]? = some x →
        Shaped c f.type x) : Shaped c (.record id) (.record fs)
  | box {t : Ty} {x : Datum} (held : Shaped c t x) : Shaped c (.box t) x
  | absent {t : Ty} : Shaped c (.option t) .absent
  | present {t : Ty} {x : Datum} (held : Shaped c t x) : Shaped c (.option t) (.present x)

/-- A datum of a type has the form that the type asks for. -/
theorem OfType.shaped (typed : c.OfType t x) :
    ∀ {inner}, t.embedded? = some inner → c.Shaped t x := by
  induction typed with
  | record length each ih =>
    intro _ _
    refine .record length ?_
    intro i f x field lends here
    obtain ⟨mid, lends⟩ := Option.isSome_iff_exists.1 lends
    exact ih i f x field here (FieldDecl.embedded?_of_lends lends)
  | box _ ih => exact fun embeds => .box (ih embeds)
  | absent => exact fun _ => .absent
  | present _ ih => exact fun embeds => .present (ih embeds)
  | _ =>
    intro _ embeds
    cases embeds

/-- So has the record in it. -/
theorem OfType.recordIn (typed : c.OfType t x) (embeds : t.embedded? = some inner)
    (inside : t.recordIn? x = some r) : c.OfType (.record inner) r := by
  induction typed with
  | record length each =>
    cases embeds
    cases inside
    exact .record length each
  | box _ ih => exact ih embeds inside
  | absent => cases inside
  | present _ ih => exact ih embeds inside
  | _ => cases embeds

namespace Shaped

/-- A field lies where it is declared. -/
theorem exists_field (shaped : c.Shaped (.record id) d) (field : c.field? id i = some f) :
    ∃ x, d.fields[i]? = some x := by
  cases shaped with
  | record length each =>
    obtain ⟨lt, -⟩ := List.getElem?_eq_some_iff.1 field
    rw [← length] at lt
    exact ⟨_, List.getElem?_eq_getElem lt⟩

/-- What an embedding field holds has the form of its type. -/
theorem embedded (shaped : c.Shaped (.record id) d) (field : c.field? id i = some f)
    (lends : f.lends? = some inner) (here : d.fields[i]? = some x) : c.Shaped f.type x := by
  cases shaped with
  | record length each => exact each i f x field (by rw [lends]; rfl) here

/-- A record with a field replaced, by what the field can hold if it is an embedding one. -/
theorem setField (shaped : c.Shaped (.record id) d) (field : c.field? id i = some f)
    (fits : f.lends?.isSome = true → c.Shaped f.type v) :
    c.Shaped (.record id) (d.setField i v) := by
  cases shaped with
  | record length each =>
    refine .record (by rw [List.length_set]; exact length) ?_
    intro j g x at' lends here
    rw [List.getElem?_set] at here
    by_cases same : i = j
    · subst same
      rw [field] at at'
      cases at'
      rw [if_pos rfl] at here
      split at here
      · cases here
        exact fits lends
      · cases here
    · rw [if_neg same] at here
      exact each j g x at' lends here

/-- The record in a datum has the form of its declaration. -/
theorem of_recordIn (shaped : c.Shaped t x) (embeds : t.embedded? = some inner)
    (inside : t.recordIn? x = some r) : c.Shaped (.record inner) r := by
  induction shaped with
  | record length each =>
    cases embeds
    cases inside
    exact .record length each
  | box _ ih => exact ih embeds inside
  | absent => cases inside
  | present _ ih => exact ih embeds inside

/-- Only an option can be without its record. -/
theorem isOptional (shaped : c.Shaped t x) (none' : t.recordIn? x = none) :
    t.isOptional = true := by
  induction shaped with
  | record => cases none'
  | box _ ih => exact ih none'
  | absent | present => rfl

/-- A type holds any record of the right form. -/
theorem holding (shaped : c.Shaped (.record inner) r) :
    ∀ {t : Ty}, t.embedded? = some inner → c.Shaped t (t.holding r)
  | .record _, embeds => by
    cases embeds
    exact shaped
  | .box t, embeds => .box (holding shaped (t := t) embeds)
  | .option t, embeds => .present (holding shaped (t := t) embeds)

end Shaped

/-- What was put into a type is found in it. -/
theorem recordIn?_holding :
    ∀ {t : Ty}, t.embedded? = some inner → t.recordIn? (t.holding r) = some r
  | .record _, _ => rfl
  | .box t, embeds => recordIn?_holding (t := t) embeds
  | .option t, embeds => recordIn?_holding (t := t) embeds

/-- A fresh option holds no record. -/
theorem recordIn?_initial_of_isOptional :
    ∀ {t : Ty}, t.isOptional = true → t.recordIn? (c.initial t) = none
  | .option _, _ => rfl
  | .box t, optional => recordIn?_initial_of_isOptional (t := t) optional

/-- What is fresh of an embedding field holds a fresh record or none. -/
theorem recordIn?_initial : ∀ {t : Ty}, t.embedded? = some inner →
    t.recordIn? (c.initial t) = some r → r = c.initial (.record inner)
  | .record _, embeds, inside => by
    cases embeds
    cases inside
    rfl
  | .box t, embeds, inside => recordIn?_initial (t := t) embeds inside

/-- Going into what is fresh ends at a fresh record. -/
theorem allocate_initial : ∀ {t : Ty}, t.embedded? = some inner →
    c.allocate t (c.initial t) = c.initial (.record inner)
  | .record _, embeds => by
    cases embeds
    rfl
  | .box t, embeds => allocate_initial (t := t) embeds
  | .option t, embeds => allocate_initial (t := t) embeds

/-- Going into what holds a record ends at that record. -/
theorem allocate_holding : ∀ {t : Ty}, t.embedded? = some inner → c.allocate t (t.holding r) = r
  | .record _, _ => rfl
  | .box t, embeds => allocate_holding (t := t) embeds
  | .option t, embeds => allocate_holding (t := t) embeds

/-- A datum is what holds the record in it. -/
theorem holding_of_recordIn : ∀ {t : Ty} {x : Datum}, t.recordIn? x = some r → t.holding r = x
  | .record _, _, inside => by
    cases inside
    rfl
  | .box t, _, inside => holding_of_recordIn (t := t) inside
  | .option t, x, inside => by
    cases x with
    | present y => exact congrArg Datum.present (holding_of_recordIn (t := t) inside)
    | _ => cases inside

/-- What is allocated is the record that is there, or a fresh one. -/
theorem allocate_eq : ∀ {t : Ty} {x : Datum}, t.embedded? = some inner →
    c.allocate t x = (t.recordIn? x).getD (c.initial (.record inner))
  | .record _, _, _ => rfl
  | .box t, _, embeds => allocate_eq (t := t) embeds
  | .option t, x, embeds => by
    cases x with
    | present y => exact allocate_eq (t := t) (x := y) embeds
    | _ => exact allocate_initial (t := t) embeds

/-- A record that is there is the one that is entered. -/
theorem allocate_of_recordIn (embeds : t.embedded? = some inner) (inside : t.recordIn? x = some r) :
    c.allocate t x = r := by
  rw [allocate_eq embeds, inside, Option.getD_some]

/-- For one that is absent a fresh one comes into being. -/
theorem allocate_of_absent (embeds : t.embedded? = some inner) (absent : t.recordIn? x = none) :
    c.allocate t x = c.initial (.record inner) := by
  rw [allocate_eq embeds, absent, Option.getD_none]

/-- A fresh record has the form of its type. -/
theorem shaped_initial (c : Catalog) (id : RecordId) :
    c.Shaped (.record id) (c.initial (.record id)) :=
  (c.ofType_initial (.record id)).shaped rfl

/-- Either has the form of its declaration. -/
theorem Shaped.allocate (shaped : c.Shaped t x) (embeds : t.embedded? = some inner) :
    c.Shaped (.record inner) (c.allocate t x) := by
  cases inside : t.recordIn? x with
  | none =>
    rw [allocate_of_absent embeds inside]
    exact c.shaped_initial inner
  | some r =>
    rw [allocate_of_recordIn embeds inside]
    exact shaped.of_recordIn embeds inside

/-! ## 2. Places

A place says nothing of whether a record hands its fields out, so it reaches fields that no path of
a slot does: those that are private, and those of records that hide them.  What an input may leave
alone is stated about places for that reason. -/

/-- The place `path` in the record `id` leads to the field `f`. -/
inductive Leads (c : Catalog) : RecordId → List Nat → FieldDecl → Prop
  | own {id : RecordId} {i : Nat} {f : FieldDecl} (field : c.field? id i = some f) :
      Leads c id [i] f
  | within {id inner : RecordId} {i : Nat} {f g : FieldDecl} {rest : List Nat}
      (field : c.field? id i = some f) (lends : f.lends? = some inner)
      (behind : Leads c inner rest g) : Leads c id (i :: rest) g

/-- The record `d` has a field at the place `path`, and the datum `x` in it. -/
inductive Holds (c : Catalog) : RecordId → List Nat → Datum → FieldDecl → Datum → Prop
  | own {id : RecordId} {i : Nat} {d x : Datum} {f : FieldDecl} (field : c.field? id i = some f)
      (here : d.fields[i]? = some x) : Holds c id [i] d f x
  | within {id inner : RecordId} {i : Nat} {d x r y : Datum} {f g : FieldDecl} {rest : List Nat}
      (field : c.field? id i = some f) (lends : f.lends? = some inner)
      (here : d.fields[i]? = some x) (inside : f.type.recordIn? x = some r)
      (behind : Holds c inner rest r g y) : Holds c id (i :: rest) d g y

/-- The place `path` of `d` yields the datum `x`: the embedded records on the way are there or come
into being, fresh ones, and then `x` is there. -/
inductive Yields (c : Catalog) : RecordId → List Nat → Datum → FieldDecl → Datum → Prop
  | own {id : RecordId} {i : Nat} {d x : Datum} {f : FieldDecl} (field : c.field? id i = some f)
      (here : d.fields[i]? = some x) : Yields c id [i] d f x
  | within {id inner : RecordId} {i : Nat} {d x y : Datum} {f g : FieldDecl} {rest : List Nat}
      (field : c.field? id i = some f) (lends : f.lends? = some inner)
      (here : d.fields[i]? = some x) (behind : Yields c inner rest (c.allocate f.type x) g y) :
      Yields c id (i :: rest) d g y

theorem Leads.ne_nil (leads : c.Leads id p f) : p ≠ [] := by
  cases leads <;> exact List.cons_ne_nil _ _

theorem Holds.ne_nil (holds : c.Holds id p d f x) : p ≠ [] := by
  cases holds <;> exact List.cons_ne_nil _ _

/-- What a record holds somewhere is in the field that the place leads to. -/
theorem Holds.leads (holds : c.Holds id p d f x) : c.Leads id p f := by
  induction holds with
  | own field => exact .own field
  | within field lends _ _ _ ih => exact .within field lends ih

/-- Whatever a record of a type holds anywhere is of the field's type. -/
theorem Holds.ofType (holds : c.Holds id p d f x) (typed : c.OfType (.record id) d) :
    c.OfType f.type x := by
  induction holds with
  | own field here =>
    cases typed with
    | record _ each => exact each _ _ _ field here
  | within field lends here inside _ ih =>
    cases typed with
    | record _ each =>
      exact ih ((each _ _ _ field here).recordIn (FieldDecl.embedded?_of_lends lends) inside)

/-- A place leads to one field, -/
theorem Leads.unique (hf : c.Leads id p f) (hg : c.Leads id p g) : f = g := by
  induction hf with
  | own field =>
    cases hg with
    | own field' => exact Option.some.inj (field.symm.trans field')
    | within _ _ behind => exact (behind.ne_nil rfl).elim
  | within field lends behind ih =>
    cases hg with
    | own => exact (behind.ne_nil rfl).elim
    | within field' lends' behind' =>
      cases field.symm.trans field'
      cases lends.symm.trans lends'
      exact ih behind'

/-- and a record holds one thing there. -/
theorem Holds.unique (hx : c.Holds id p d f x) (hy : c.Holds id p d g y) : x = y := by
  induction hx with
  | own _ here =>
    cases hy with
    | own _ here' => exact Option.some.inj (here.symm.trans here')
    | within _ _ _ _ behind => exact (behind.ne_nil rfl).elim
  | within field lends here inside behind ih =>
    cases hy with
    | own => exact (behind.ne_nil rfl).elim
    | within field' lends' here' inside' behind' =>
      cases field.symm.trans field'
      cases lends.symm.trans lends'
      cases here.symm.trans here'
      cases inside.symm.trans inside'
      exact ih behind'

/-- Nothing lies below a field that lends no fields. -/
theorem Leads.eq_of_isPrefix (hp : c.Leads id p f) (own : f.lends? = none) (hq : c.Leads id q g)
    (le : p <+: q) : p = q := by
  induction hp generalizing q with
  | own field =>
    cases hq with
    | own => exact le.eq_of_length rfl
    | within field' lends' =>
      obtain ⟨rfl, -⟩ := List.cons_prefix_cons.1 le
      cases field.symm.trans field'
      rw [own] at lends'
      cases lends'
  | within field lends behind ih =>
    cases hq with
    | own =>
      obtain ⟨rfl, short⟩ := List.cons_prefix_cons.1 le
      exact (behind.ne_nil (List.prefix_nil.1 short)).elim
    | within field' lends' behind' =>
      obtain ⟨rfl, short⟩ := List.cons_prefix_cons.1 le
      cases field.symm.trans field'
      cases lends.symm.trans lends'
      rw [ih own behind' short]

namespace Yields

theorem ne_nil (yields : c.Yields id p d f x) : p ≠ [] := by
  cases yields <;> exact List.cons_ne_nil _ _

theorem leads (yields : c.Yields id p d f x) : c.Leads id p f := by
  induction yields with
  | own field => exact .own field
  | within field lends _ _ ih => exact .within field lends ih

/-- A place yields one thing. -/
theorem unique (hx : c.Yields id p d f x) (hy : c.Yields id p d g y) : x = y := by
  induction hx with
  | own _ here =>
    cases hy with
    | own _ here' => exact Option.some.inj (here.symm.trans here')
    | within _ _ _ behind => exact (behind.ne_nil rfl).elim
  | within field lends here behind ih =>
    cases hy with
    | own => exact (behind.ne_nil rfl).elim
    | within field' lends' here' behind' =>
      cases field.symm.trans field'
      cases lends.symm.trans lends'
      cases here.symm.trans here'
      exact ih behind'

/-- Every place of a record yields something. -/
theorem exists_of_leads (leads : c.Leads id p f) (shaped : c.Shaped (.record id) d) :
    ∃ x, c.Yields id p d f x := by
  induction leads generalizing d with
  | own field =>
    obtain ⟨x, here⟩ := shaped.exists_field field
    exact ⟨x, .own field here⟩
  | @within id inner i f g rest field lends behind ih =>
    obtain ⟨y, here⟩ := shaped.exists_field field
    -- whether the record is there or comes into being, it has the form of its type
    have fits := shaped.embedded field lends here
    obtain ⟨x, below⟩ := ih (fits.allocate (FieldDecl.embedded?_of_lends lends))
    exact ⟨x, .within field lends here below⟩

/-- **Where the defaults are zeros, a fresh record yields zeros.** -/
theorem eq_of_initial (zero : c.ZeroDefaults)
    (yields : c.Yields id p (c.initial (.record id)) f x) :
    x = c.initial f.type := by
  generalize e : c.initial (.record id) = d at yields
  induction yields with
  | @own id i d x f field here =>
    rw [← e, fields_initial field, zero id i f field] at here
    exact (Option.some.inj here).symm
  | @within id inner i d x y f g rest field lends here behind ih =>
    rw [← e, fields_initial field, zero id i f field] at here
    cases here
    exact ih (allocate_initial (FieldDecl.embedded?_of_lends lends)).symm

end Yields

/-- A place yields what it holds. -/
theorem Holds.yields (holds : c.Holds id p d f x) : c.Yields id p d f x := by
  induction holds with
  | own field here => exact .own field here
  | within field lends here inside _ ih =>
    refine .within field lends here ?_
    rwa [allocate_of_recordIn (FieldDecl.embedded?_of_lends lends) inside]

/-- A place that holds something yields nothing else. -/
theorem Yields.holds (yields : c.Yields id p d f x) (holds : c.Holds id p d g y) :
    c.Holds id p d f x := by
  cases holds.leads.unique yields.leads
  rwa [yields.unique holds.yields]

/-- So what a fresh record holds anywhere is a zero. -/
theorem Holds.eq_initial (zero : c.ZeroDefaults)
    (holds : c.Holds id p (c.initial (.record id)) f x) : x = c.initial f.type :=
  holds.yields.eq_of_initial zero

/-! ## 3. Embedded records

An embedded record at a place is open if it is there, with all that is above it.  Everything that a
record can be without is below an optional one that is not. -/

/-- The embedded record at a place is there. -/
def Open (c : Catalog) (id : RecordId) (a : List Nat) (d : Datum) : Prop :=
  ∃ f x r, c.Holds id a d f x ∧ f.type.recordIn? x = some r

/-- Whatever lies in an embedded record, that record is there. -/
theorem Holds.open_of_isPrefix (holds : c.Holds id p d f x) (some' : a ≠ []) (le : a <+: p)
    (ne : a ≠ p) : c.Open id a d := by
  induction holds generalizing a with
  | own =>
    cases a with
    | nil => exact (some' rfl).elim
    | cons j a =>
      obtain ⟨rfl, short⟩ := List.cons_prefix_cons.1 le
      rw [List.prefix_nil.1 short] at ne
      exact (ne rfl).elim
  | @within id inner i d x r y f g rest field lends here inside behind ih =>
    cases a with
    | nil => exact (some' rfl).elim
    | cons j a =>
      obtain ⟨rfl, short⟩ := List.cons_prefix_cons.1 le
      cases a with
      | nil => exact ⟨f, x, r, .own field here, inside⟩
      | cons k a =>
        obtain ⟨g, y, r', holds, inside'⟩ :=
          ih (List.cons_ne_nil k a) short fun same => ne (by rw [same])
        exact ⟨g, y, r', .within field lends here inside holds, inside'⟩

/-- **Where the defaults are zeros, an optional embedded record is absent from a fresh one.** -/
theorem not_open_initial (zero : c.ZeroDefaults) (leads : c.Leads id a f)
    (optional : f.type.isOptional = true) : ¬ c.Open id a (c.initial (.record id)) := by
  rintro ⟨g, x, r, holds, inside⟩
  cases holds.leads.unique leads
  rw [holds.eq_initial zero, recordIn?_initial_of_isOptional optional] at inside
  cases inside

/-- A record has all its own fields; only below embedded records may something be missing. -/
theorem Leads.one_lt_length (leads : c.Leads id p f) (shaped : c.Shaped (.record id) d)
    (missing : ∀ x, ¬ c.Holds id p d f x) : 1 < p.length := by
  cases leads with
  | own field =>
    obtain ⟨x, here⟩ := shaped.exists_field field
    exact (missing x (.own field here)).elim
  | within _ _ behind => exact Nat.succ_lt_succ (List.length_pos_iff.2 behind.ne_nil)

/-- **What is missing from a record is missing because an optional record above it is absent.** -/
theorem exists_not_open (shaped : c.Shaped (.record id) d) (leads : c.Leads id p f)
    (missing : ∀ x, ¬ c.Holds id p d f x) :
    ∃ a g, c.Leads id a g ∧ g.lends?.isSome = true ∧ g.type.isOptional = true ∧ a <+: p ∧
      ¬ c.Open id a d := by
  induction leads generalizing d with
  | own field =>
    obtain ⟨x, here⟩ := shaped.exists_field field
    exact (missing x (.own field here)).elim
  | @within id inner i f g rest field lends behind ih =>
    obtain ⟨x, here⟩ := shaped.exists_field field
    have fits := shaped.embedded field lends here
    -- the topmost record that is absent decides; below one that is there the search goes on
    cases inside : f.type.recordIn? x with
    | none =>
      refine ⟨[i], f, .own field, by rw [lends]; rfl, fits.isOptional inside,
        List.cons_prefix_cons.2 ⟨rfl, List.nil_prefix⟩, ?_⟩
      rintro ⟨f', x', r, holds, inside'⟩
      cases holds with
      | own field' here' =>
        cases field.symm.trans field'
        cases here.symm.trans here'
        rw [inside] at inside'
        cases inside'
      | within _ _ _ _ behind => exact behind.ne_nil rfl
    | some r =>
      obtain ⟨a, h, leads, lends', optional, le, absent⟩ :=
        ih (fits.of_recordIn (FieldDecl.embedded?_of_lends lends) inside) fun y holds =>
          missing y (.within field lends here inside holds)
      refine ⟨i :: a, h, .within field lends leads, lends', optional,
        List.cons_prefix_cons.2 ⟨rfl, le⟩, ?_⟩
      rintro ⟨f', x', r', holds, inside'⟩
      cases holds with
      | own => exact leads.ne_nil rfl
      | within field' lends' here' inside'' behind' =>
        cases field.symm.trans field'
        cases lends.symm.trans lends'
        cases here.symm.trans here'
        cases inside.symm.trans inside''
        exact absent ⟨f', x', r', behind', inside'⟩

/-! ## 4. Following a path -/

/-- The record `inner` is `id` itself or lends its fields to it, at whatever depth. -/
inductive Within (c : Catalog) : RecordId → RecordId → Prop
  | self {id : RecordId} : Within c id id
  | lent {id mid inner : RecordId} {f : FieldDecl} (field : f ∈ (c.decl id).fields)
      (lends : f.lends? = some mid) (behind : Within c mid inner) : Within c id inner

/-- The record and those that lend it their fields hand out all their fields. -/
def Derived (c : Catalog) (id : RecordId) : Prop :=
  ∀ inner, c.Within id inner → ∀ f ∈ (c.decl inner).fields, f.reachable = true

/-- In a catalog whose fields are all handed out, every record hands out its own. -/
theorem Derived.of_all (all : c.records.all (fun r => r.fields.all (·.reachable)) = true) :
    c.Derived id := by
  intro inner _ f field
  rcases Nat.lt_or_ge inner c.records.length with declared | undeclared
  · have place : c.decl inner ∈ c.records := by
      rw [decl, List.getElem?_eq_getElem declared]
      exact List.getElem_mem declared
    exact List.all_eq_true.1 (List.all_eq_true.1 all _ place) f field
  · rw [fields_eq_nil undeclared] at field
    cases field

/-- A derived record hands out each of its fields, -/
theorem Derived.reachable (derived : c.Derived id) (field : c.field? id i = some f) :
    f.reachable = true :=
  derived id .self f (List.mem_of_getElem? field)

/-- and so does each that lends it fields. -/
theorem Derived.lent (derived : c.Derived id) (field : c.field? id i = some f)
    (lends : f.lends? = some inner) : c.Derived inner :=
  fun deep within => derived deep (.lent (List.mem_of_getElem? field) lends within)

/-- A field whose own value is handed out is found by its position. -/
theorem direct?_eq (field : c.field? id i = some f) (direct : f.isDirect = true) :
    c.direct? id i = some f := by
  rw [direct?, field, Option.filter_some, if_pos direct]

/-- A field that lends a derived record its fields can be entered. -/
theorem enter?_eq (derived : c.Derived id) (field : c.field? id i = some f)
    (lends : f.lends? = some inner) : c.enter? id i = some (f.type, inner) := by
  rw [enter?, field]
  change f.entered?.bind (fun inner => some (f.type, inner)) = _
  rw [FieldDecl.entered?_of_lends lends (derived.reachable field)]
  rfl

theorem direct?_eq_some (found : c.direct? id i = some f) : c.field? id i = some f :=
  (Option.filter_eq_some_iff.1 found).1

/-- Whatever can be entered is a field whose type comes down to a record. -/
theorem enter?_eq_some (found : c.enter? id i = some (t, inner)) :
    ∃ f, c.field? id i = some f ∧ f.type = t ∧ t.embedded? = some inner := by
  simp only [enter?, bind, Option.bind_eq_some_iff] at found
  obtain ⟨f, field, inner', entered, pair⟩ := found
  obtain ⟨rfl, rfl⟩ := Prod.mk.inj (Option.some.inj pair)
  refine ⟨f, field, rfl, ?_⟩
  unfold FieldDecl.entered? at entered
  split at entered
  · exact entered
  · cases entered

/-- A field that lends its fields is entered, or the record does not hand it out. -/
theorem enter?_eq_or (field : c.field? id i = some f) (lends : f.lends? = some inner) :
    c.enter? id i = none ∨ c.enter? id i = some (f.type, inner) := by
  cases enter : c.enter? id i with
  | none => exact .inl rfl
  | some entered =>
    obtain ⟨u, k⟩ := entered
    obtain ⟨f', field', rfl, embeds⟩ := enter?_eq_some enter
    cases field.symm.trans field'
    cases embeds.symm.trans (FieldDecl.embedded?_of_lends lends)
    exact .inr rfl

/-- A path of one position ends in the record itself. -/
theorem lookup_own (direct : c.direct? id i = some f) :
    c.lookup id [i] d = d.fields[i]?.map fun x => (f.type, x) := by
  rw [lookup, direct, Option.map_eq_bind]
  rfl

/-- A longer one goes on in the embedded record, if that is there. -/
theorem lookup_within (some' : rest ≠ []) (enter : c.enter? id i = some (t, inner)) :
    c.lookup id (i :: rest) d =
      d.fields[i]?.bind fun x => (t.recordIn? x).bind fun r => c.lookup inner rest r := by
  cases rest with
  | nil => exact (some' rfl).elim
  | cons j rest =>
    rw [lookup, enter]
    rfl

/-- What a path finds is held at its end. -/
theorem holds_of_lookup (leads : c.Leads id p f) {found : Ty × Datum}
    (there : c.lookup id p d = some found) : found.1 = f.type ∧ c.Holds id p d f found.2 := by
  induction leads generalizing d with
  | @own id i f field =>
    cases direct : c.direct? id i with
    | none =>
      rw [lookup, direct] at there
      cases there
    | some f' =>
      rw [lookup_own direct] at there
      obtain ⟨y, here, rfl⟩ := Option.map_eq_some_iff.1 there
      cases field.symm.trans (direct?_eq_some direct)
      exact ⟨rfl, .own field here⟩
  | @within id inner i f g rest field lends behind ih =>
    -- a record that does not hand its field out has nothing to be found behind it
    rcases enter?_eq_or field lends with shut | enter
    · cases rest with
      | nil => exact absurd rfl behind.ne_nil
      | cons j rest =>
        rw [lookup, shut] at there
        cases there
    · rw [lookup_within behind.ne_nil enter] at there
      obtain ⟨y, here, there⟩ := Option.bind_eq_some_iff.1 there
      obtain ⟨r, inside, there⟩ := Option.bind_eq_some_iff.1 there
      obtain ⟨same, holds⟩ := ih there
      exact ⟨same, .within field lends here inside holds⟩

/-- **A path finds what the record holds at its end.** -/
theorem lookup_eq_some (derived : c.Derived id) (leads : c.Leads id p f)
    (direct : f.isDirect = true) {found : Ty × Datum} :
    c.lookup id p d = some found ↔ found.1 = f.type ∧ c.Holds id p d f found.2 := by
  refine ⟨holds_of_lookup leads, ?_⟩
  obtain ⟨u, x⟩ := found
  rintro ⟨rfl, holds⟩
  change c.Holds id p d f x at holds
  induction holds with
  | own field here =>
    rw [lookup_own (direct?_eq field direct)]
    exact Option.map_eq_some_iff.2 ⟨_, here, rfl⟩
  | @within id inner i d y r x f g rest field lends here inside behind ih =>
    rw [lookup_within behind.ne_nil (enter?_eq derived field lends)]
    refine Option.bind_eq_some_iff.2 ⟨y, here, Option.bind_eq_some_iff.2 ⟨r, inside, ?_⟩⟩
    exact ih (derived.lent field lends) behind.leads direct

/-- A path finds nothing exactly if the record holds nothing at its end. -/
theorem lookup_eq_none (derived : c.Derived id) (leads : c.Leads id p f)
    (direct : f.isDirect = true) :
    c.lookup id p d = none ↔ ∀ x, ¬ c.Holds id p d f x := by
  rw [Option.eq_none_iff_forall_ne_some]
  constructor
  · intro missing x holds
    exact missing (f.type, x) ((lookup_eq_some derived leads direct).2 ⟨rfl, holds⟩)
  · intro missing found e
    exact missing found.2 ((lookup_eq_some derived leads direct).1 e).2

/-- Putting goes into the embedded record, a fresh one if it is absent, and puts that back. -/
theorem put_within (some' : rest ≠ []) (enter : c.enter? id i = some (t, inner))
    (here : d.fields[i]? = some x) :
    c.put id (i :: rest) d v =
      d.setField i (t.holding (c.put inner rest (c.allocate t x) v)) := by
  cases rest with
  | nil => exact (some' rfl).elim
  | cons j rest => rw [put, enter, here]

/-- So does reaching, which leaves what it went into even if it fails further down. -/
theorem reach_within {name : String} (some' : rest ≠ []) (enter : c.enter? id i = some (t, inner))
    (here : d.fields[i]? = some x) :
    c.reach name id (i :: rest) d =
      ((c.reach name inner rest (c.allocate t x)).1,
        d.setField i (t.holding (c.reach name inner rest (c.allocate t x)).2)) := by
  cases rest with
  | nil => exact (some' rfl).elim
  | cons j rest => rw [reach, enter, here]

/-- A field that was set is as it was set, -/
theorem getElem?_setField (here : d.fields[i]? = some x) :
    (d.setField i v).fields[i]? = some v := by
  obtain ⟨lt, -⟩ := List.getElem?_eq_some_iff.1 here
  exact List.getElem?_set_self lt

/-- and every other is as it was. -/
theorem getElem?_setField_ne {j : Nat} (ne : i ≠ j) :
    (d.setField i v).fields[j]? = d.fields[j]? :=
  List.getElem?_set_ne ne

/-- What is set twice is as it was set last. -/
theorem setField_setField : (d.setField i x).setField i v = d.setField i v := by
  unfold Datum.setField
  exact congrArg Datum.record (List.set_set ..)

/-- Putting a datum keeps the form of the record. -/
theorem Shaped.put (shaped : c.Shaped (.record id) d) (derived : c.Derived id)
    (leads : c.Leads id p f) (direct : f.isDirect = true) :
    c.Shaped (.record id) (c.put id p d v) := by
  induction leads generalizing d with
  | own field =>
    refine shaped.setField field ?_
    intro lends
    rw [FieldDecl.lends?_of_isDirect direct] at lends
    cases lends
  | @within id inner i f g rest field lends behind ih =>
    obtain ⟨x, here⟩ := shaped.exists_field field
    rw [put_within behind.ne_nil (enter?_eq derived field lends) here]
    have embeds := FieldDecl.embedded?_of_lends lends
    have fits := shaped.embedded field lends here
    refine shaped.setField field fun _ => Shaped.holding ?_ embeds
    exact ih (fits.allocate embeds) (derived.lent field lends) direct

/-- What was put is held. -/
theorem holds_put_self (shaped : c.Shaped (.record id) d) (derived : c.Derived id)
    (leads : c.Leads id p f) : c.Holds id p (c.put id p d v) f v := by
  induction leads generalizing d with
  | own field =>
    obtain ⟨x, here⟩ := shaped.exists_field field
    exact .own field (getElem?_setField here)
  | @within id inner i f g rest field lends behind ih =>
    obtain ⟨x, here⟩ := shaped.exists_field field
    rw [put_within behind.ne_nil (enter?_eq derived field lends) here]
    have embeds := FieldDecl.embedded?_of_lends lends
    have fits := shaped.embedded field lends here
    refine .within field lends (getElem?_setField here) (recordIn?_holding embeds) ?_
    exact ih (fits.allocate embeds) (derived.lent field lends)

theorem set_eq_self {fs : List Datum} (here : fs[i]? = some x) : fs.set i x = fs := by
  obtain ⟨lt, rfl⟩ := List.getElem?_eq_some_iff.1 here
  exact List.set_getElem_self lt

theorem setField_self (here : d.fields[i]? = some x) : d.setField i x = d := by
  cases d with
  | record fs => exact congrArg Datum.record (set_eq_self here)
  | _ => cases here

/-- Putting what is already held changes nothing. -/
theorem Holds.put_eq (holds : c.Holds id p d f x) (shaped : c.Shaped (.record id) d)
    (derived : c.Derived id) : c.put id p d x = d := by
  induction holds with
  | own field here => exact setField_self here
  | @within id inner i d x r y f g rest field lends here inside behind ih =>
    have embeds := FieldDecl.embedded?_of_lends lends
    have fits := shaped.embedded field lends here
    have same := ih (fits.of_recordIn embeds inside) (derived.lent field lends)
    rw [put_within behind.ne_nil (enter?_eq derived field lends) here, allocate_eq embeds,
      inside, Option.getD_some, same, holding_of_recordIn inside]
    exact setField_self here

/-- **Reaching the end of a path finds what stands there, or comes to stand there**, and what it
allocates on the way is what putting would allocate. -/
theorem reach_eq (name : String) (shaped : c.Shaped (.record id) d) (derived : c.Derived id)
    (leads : c.Leads id p f) (direct : f.isDirect = true) :
    ∃ x d', c.reach name id p d = (.ok (f.type, x), d') ∧ c.Yields id p d f x ∧
      ∀ v, c.put id p d' v = c.put id p d v := by
  induction leads generalizing d with
  | @own id i f field =>
    obtain ⟨x, here⟩ := shaped.exists_field field
    refine ⟨x, d, ?_, .own field here, fun v => rfl⟩
    rw [reach, direct?_eq field direct, here]
  | @within id inner i f g rest field lends behind ih =>
    obtain ⟨x, here⟩ := shaped.exists_field field
    have embeds := FieldDecl.embedded?_of_lends lends
    have fits := shaped.embedded field lends here
    have enter := enter?_eq derived field lends
    obtain ⟨y, r, reached, yields, puts⟩ := ih (fits.allocate embeds) (derived.lent field lends)
      direct
    refine ⟨y, d.setField i (f.type.holding r), ?_, .within field lends here yields, fun v => ?_⟩
    · rw [reach_within behind.ne_nil enter here, reached]
    · rw [put_within behind.ne_nil enter here,
        put_within behind.ne_nil enter (getElem?_setField here), setField_setField,
        allocate_holding embeds, puts]

end Catalog

end MessagePack
