import MessagePack.Encode.Datum
import MessagePack.Proofs.Record.Presence
import MessagePack.Proofs.Record.Slots
/-!
# Filling a record slot by slot

Reading a record starts from a fresh one and puts what comes back of each value that was written,
nil apart, at the end of its slot's path.  `Context.filled` is the record after that.  Which slots
carry a value is settled by the record that is written alone.  The defaults of records are zeros
here, so that what was left out is what a fresh record holds.

Main statements:

* `Context.filledBy_filled`: each field that carries a value holds what came back of it, an optional
  embedded record is there exactly if some field below it carries a value, and every other place
  holds its zero;
* `Context.lookup_filled_of_absent`: what is absent from the record that is written is not there
  while the other is filled.
-/

namespace MessagePack

namespace Catalog

variable {c : Catalog} {id : RecordId} {f g : FieldDecl} {d v x y : Datum} {p q a : List Nat}
  {ps : List (List Nat × Datum)}

/-! ## 1. Several data -/

/-- The record with each of these data put at the end of its path. -/
def putAll (c : Catalog) (id : RecordId) (ps : List (List Nat × Datum)) (d : Datum) : Datum :=
  ps.foldl (fun d p => c.put id p.1 d p.2) d

/-- Each path leads to a field that is handed out. -/
def Lead (c : Catalog) (id : RecordId) (ps : List (List Nat × Datum)) : Prop :=
  ∀ p ∈ ps, ∃ f, c.Leads id p.1 f ∧ f.isDirect = true

/-- A record that is filled has its fields still. -/
theorem Shaped.putAll (shaped : c.Shaped (.record id) d) (derived : c.Derived id)
    (lead : c.Lead id ps) : c.Shaped (.record id) (c.putAll id ps d) := by
  induction ps generalizing d with
  | nil => exact shaped
  | cons p ps ih =>
    obtain ⟨f, leads, direct⟩ := lead p (by simp)
    exact ih (shaped.put derived leads direct) fun q hq => lead q (List.mem_cons_of_mem _ hq)

/-- Where no path leads through, a place yields what it did. -/
theorem Yields.of_putAll (yields : c.Yields id q (c.putAll id ps d) g y)
    (shaped : c.Shaped (.record id) d) (derived : c.Derived id) (lead : c.Lead id ps)
    (apart : ∀ p ∈ ps, ¬ q <+: p.1) : c.Yields id q d g y := by
  induction ps generalizing d with
  | nil => exact yields
  | cons p ps ih =>
    obtain ⟨f, leads, direct⟩ := lead p (by simp)
    have before := ih yields (shaped.put derived leads direct)
      (fun q hq => lead q (List.mem_cons_of_mem _ hq))
      (fun q hq => apart q (List.mem_cons_of_mem _ hq))
    exact before.of_put shaped derived leads direct (apart p (by simp))

/-- What lies beside all paths stays. -/
theorem Holds.putAll (holds : c.Holds id q d g y) (shaped : c.Shaped (.record id) d)
    (derived : c.Derived id) (lead : c.Lead id ps) (apart : ∀ p ∈ ps, ¬ q <+: p.1) :
    c.Holds id q (c.putAll id ps d) g y := by
  induction ps generalizing d with
  | nil => exact holds
  | cons p ps ih =>
    obtain ⟨f, leads, direct⟩ := lead p (by simp)
    exact ih (holds.put shaped derived leads direct (apart p (by simp)))
      (shaped.put derived leads direct) (fun q hq => lead q (List.mem_cons_of_mem _ hq))
      fun q hq => apart q (List.mem_cons_of_mem _ hq)

/-- **Each of several data is held in the end**, no path leading through another. -/
theorem holds_putAll (shaped : c.Shaped (.record id) d) (derived : c.Derived id)
    (lead : c.Lead id ps) (apart : ps.Pairwise fun p q => ¬ p.1 <+: q.1) (h : (p, v) ∈ ps)
    (leads : c.Leads id p f) : c.Holds id p (c.putAll id ps d) f v := by
  induction ps generalizing d with
  | nil => cases h
  | cons q ps ih =>
    obtain ⟨first, later⟩ := List.pairwise_cons.1 apart
    obtain ⟨g, leads', direct⟩ := lead q (by simp)
    have behind : c.Lead id ps := fun q hq => lead q (List.mem_cons_of_mem _ hq)
    have next := shaped.put (v := q.2) derived leads' direct
    rcases List.mem_cons.1 h with rfl | h
    · exact (holds_put_self shaped derived leads).putAll next derived behind first
    · exact ih next behind later h

/-- **An optional embedded record is there in the end if it was there before, or if some path leads
through it**, where fresh records hold none. -/
theorem open_putAll (closed : c.ClosedDefaults) (shaped : c.Shaped (.record id) d)
    (derived : c.Derived id) (lead : c.Lead id ps) (embedded : c.Leads id a g)
    (lends : g.lends?.isSome = true)
    (optional : g.type.isOptional = true) :
    c.Open id a (c.putAll id ps d) ↔ c.Open id a d ∨ ∃ p ∈ ps, a <+: p.1 := by
  induction ps generalizing d with
  | nil => simp [putAll]
  | cons p ps ih =>
    obtain ⟨f, leads, direct⟩ := lead p (by simp)
    have rest := ih (shaped.put (v := p.2) derived leads direct)
      fun q hq => lead q (List.mem_cons_of_mem _ hq)
    change c.Open id a (c.putAll id ps (c.put id p.1 d p.2)) ↔ _
    rw [rest, open_put shaped derived leads direct embedded lends,
      or_iff_left (closed.not_brought embedded optional), or_assoc]
    simp only [List.mem_cons, exists_eq_or_imp]

/-- The record `d` holds the data of `P` at their places, and what is fresh of a field's type
wherever none of them lies. -/
structure HoldsJust (c : Catalog) (id : RecordId) (P : List Nat → Datum → Prop)
    (d : Datum) : Prop where
  shaped : c.Shaped (.record id) d
  carried : ∀ q v, P q v → ∃ f, c.Holds id q d f v
  others : ∀ a f x, c.Holds id a d f x → (∀ q v, P q v → ¬ a <+: q) → x = c.initial f.type

variable {P : List Nat → Datum → Prop} {i : Nat} {inner : RecordId} {r : Datum}

/-- The data of `P` that lie below a field, seen from the record in that field. -/
def Below (i : Nat) (P : List Nat → Datum → Prop) (q : List Nat) (v : Datum) : Prop :=
  q ≠ [] ∧ P (i :: q) v

/-- A record that holds just what paths carry embeds records that do. -/
theorem HoldsJust.inside (just : c.HoldsJust id P d) (field : c.field? id i = some f)
    (lends : f.lends? = some inner) (here : d.fields[i]? = some x)
    (inside : f.type.recordIn? x = some r) : c.HoldsJust inner (Below i P) r := by
  have fits := just.shaped.embedded field lends here
  refine ⟨fits.of_recordIn (FieldDecl.embedded?_of_lends lends) inside, ?_, ?_⟩
  · rintro q v ⟨some', below⟩
    obtain ⟨g, holds⟩ := just.carried _ v below
    cases holds with
    | own => exact (some' rfl).elim
    | within field' lends' here' inside' behind =>
      cases field.symm.trans field'
      cases lends.symm.trans lends'
      cases here.symm.trans here'
      cases inside.symm.trans inside'
      exact ⟨g, behind⟩
  · intro a g y holds apart
    refine just.others (i :: a) g y (.within field lends here inside holds) ?_
    intro q v hq le
    cases q with
    | nil => exact absurd (List.prefix_nil.1 le) (List.cons_ne_nil _ _)
    | cons j q =>
      obtain ⟨rfl, short⟩ := List.cons_prefix_cons.1 le
      refine apart q v ⟨?_, hq⟩ short
      rintro rfl
      exact holds.ne_nil (List.prefix_nil.1 short)

/-- A field that no path carries is a fresh one. -/
theorem HoldsJust.field_eq_initial (just : c.HoldsJust id P d)
    (field : c.field? id i = some f) (here : d.fields[i]? = some x)
    (none' : ∀ q v, ¬ P (i :: q) v) : x = c.initial f.type := by
  refine just.others [i] f x (.own field here) ?_
  intro q v hq le
  cases q with
  | nil => exact absurd (List.prefix_nil.1 le) (List.cons_ne_nil _ _)
  | cons j q =>
    obtain ⟨rfl, -⟩ := List.cons_prefix_cons.1 le
    exact none' q v hq

theorem Shaped.length_fields (shaped : c.Shaped (.record id) d) :
    d.fields.length = (c.decl id).fields.length := by
  cases shaped with
  | record length => exact length

theorem Shaped.eq_record (shaped : c.Shaped (.record id) d) : d = .record d.fields := by
  cases shaped
  rfl

/-- **A record is settled by what it carries, everything else being zero.** -/
theorem HoldsJust.unique {d' : Datum} (just : c.HoldsJust id P d)
    (just' : c.HoldsJust id P d') : d = d' := by
  induction size : sizeOf d using Nat.strongRecOn generalizing id P d d' with
  | ind n ih =>
    subst size
    rw [just.shaped.eq_record, just'.shaped.eq_record]
    congr 1
    refine List.ext_getElem? ?_
    intro i
    cases field : c.field? id i with
    | none =>
      have beyond : (c.decl id).fields.length ≤ i := List.getElem?_eq_none_iff.1 field
      rw [List.getElem?_eq_none (just.shaped.length_fields ▸ beyond),
        List.getElem?_eq_none (just'.shaped.length_fields ▸ beyond)]
    | some f =>
      obtain ⟨x, here⟩ := just.shaped.exists_field field
      obtain ⟨x', here'⟩ := just'.shaped.exists_field field
      rw [here, here']
      congr 1
      by_cases below : ∃ q v, P (i :: q) v
      · obtain ⟨q, v, hq⟩ := below
        obtain ⟨g, holds⟩ := just.carried _ v hq
        obtain ⟨g', holds'⟩ := just'.carried _ v hq
        cases holds with
        | own _ at' =>
          cases holds' with
          | own _ at'' =>
            cases here.symm.trans at'
            cases here'.symm.trans at''
            rfl
          | within _ _ _ _ behind => exact (behind.ne_nil rfl).elim
        | within field₁ lends at' inside behind =>
          cases holds' with
          | own => exact (behind.ne_nil rfl).elim
          | within field₂ lends' at'' inside' =>
            cases field.symm.trans field₁
            cases field.symm.trans field₂
            cases lends.symm.trans lends'
            cases here.symm.trans at'
            cases here'.symm.trans at''
            have small := Nat.lt_of_le_of_lt (Ty.sizeOf_recordIn inside)
              (Datum.sizeOf_fields (List.mem_of_getElem? here))
            have same := ih _ small (just.inside field lends here inside)
              (just'.inside field lends here' inside') rfl
            rw [← holding_of_recordIn inside, ← holding_of_recordIn inside', same]
      · have none' : ∀ q v, ¬ P (i :: q) v := fun q v hq => below ⟨q, v, hq⟩
        rw [just.field_eq_initial field here none', just'.field_eq_initial field here' none']

end Catalog

/-! ## 2. Slots that carry a value -/

namespace Context

variable {cx : Context} {id : RecordId} {r d x : Datum} {t : Ty} {s : Slot} {ss : List Slot}
  {back : Slot → Datum}

/-- The field of a slot that is written, as nil or not: in an array every field that is there, in a
map those that are present. -/
def written? (cx : Context) (id : RecordId) (r : Datum) (s : Slot) : Option (Ty × Datum) :=
  match cx.mode with
  | .positional => cx.catalog.lookup id s.path r
  | .named => cx.present? id r s

/-- The field of a slot that is written as something other than nil. -/
def carried? (cx : Context) (id : RecordId) (r : Datum) (s : Slot) : Option (Ty × Datum) :=
  (cx.written? id r s).filter fun found =>
    (found.2.script cx found.1).effect.1 != [Header.nil.toByte]

/-- Whether a slot is written as something other than nil. -/
def carries (cx : Context) (id : RecordId) (r : Datum) (s : Slot) : Bool :=
  (cx.carried? id r s).isSome

/-- The paths of the slots that carry a value of `r`, each with what comes back of it. -/
def carriedPaths (cx : Context) (id : RecordId) (r : Datum) (back : Slot → Datum)
    (ss : List Slot) : List (List Nat × Datum) :=
  (ss.filter (cx.carries id r)).map fun s => (s.path, back s)

/-- A fresh record in which each of these slots that carries a value of `r` has what comes back of
it. -/
def filled (cx : Context) (id : RecordId) (r : Datum) (back : Slot → Datum)
    (ss : List Slot) : Datum :=
  cx.catalog.putAll id (cx.carriedPaths id r back ss) (cx.catalog.initial (.record id))

/-- A slot that carries is filled in last. -/
theorem filled_concat_of_carries (carries : cx.carries id r s = true) :
    cx.filled id r back (ss ++ [s]) =
      cx.catalog.put id s.path (cx.filled id r back ss) (back s) := by
  simp [filled, carriedPaths, Catalog.putAll, carries]

/-- One that does not is not. -/
theorem filled_concat_of_not (carries : cx.carries id r s = false) :
    cx.filled id r back (ss ++ [s]) = cx.filled id r back ss := by
  simp [filled, carriedPaths, carries]

theorem lookup_of_written (written : cx.written? id r s = some (t, x)) :
    cx.catalog.lookup id s.path r = some (t, x) := by
  unfold written? at written
  split at written
  · exact written
  · exact (Option.filter_eq_some_iff.1 written).1

theorem lookup_of_carried (carried : cx.carried? id r s = some (t, x)) :
    cx.catalog.lookup id s.path r = some (t, x) :=
  lookup_of_written (Option.filter_eq_some_iff.1 carried).1

/-- What is there and not written is a zero. -/
theorem isZero_of_not_written (there : cx.catalog.lookup id s.path r = some (t, x))
    (omitted : cx.written? id r s = none) : cx.catalog.isZero t x = true := by
  unfold written? at omitted
  split at omitted
  · rw [there] at omitted
    cases omitted
  · have leaves := Option.filter_eq_none_iff.1 omitted (t, x) there
    simp only [Bool.not_eq_true', Bool.not_eq_false, Bool.and_eq_true] at leaves
    exact leaves.2

/-! ## 3. What is filled -/

/-- The layout of the record is the one that resolving gives, and the record hands out all its
fields; the defaults of records are zeros. -/
structure Resolves (cx : Context) (id : RecordId) : Prop where
  zero : cx.catalog.ZeroDefaults
  derived : cx.catalog.Derived id
  layout : cx.layout id = .resolve cx.catalog id cx.mode

namespace Resolves

variable {a : List Nat} {f g : FieldDecl} {y : Datum}

theorem lead (resolves : cx.Resolves id) (h : s ∈ (cx.layout id).slots) :
    ∃ f, cx.catalog.Leads id s.path f ∧ f.isDirect = true := by
  rw [resolves.layout] at h
  obtain ⟨f, leads, direct, -⟩ := Catalog.slots_lead resolves.derived h
  exact ⟨f, leads, direct⟩

theorem apart (resolves : cx.Resolves id) : (cx.layout id).slots.Pairwise fun s t =>
    ¬ s.path <+: t.path ∧ ¬ t.path <+: s.path := by
  rw [resolves.layout]
  exact Catalog.slots_apart resolves.derived cx.mode

/-- A slot is found by its name, where slots are named. -/
theorem position (resolves : cx.Resolves id) (mode : cx.mode = .named)
    (h : s ∈ (cx.layout id).slots) : ∃ i, (cx.layout id).position s.name = some i ∧
      (cx.layout id).slots[i]? = some s := by
  have layout := resolves.layout
  rw [mode] at layout
  rw [layout] at h ⊢
  exact Layout.position_resolve h

variable (resolves : cx.Resolves id) (within : ∀ s ∈ ss, s ∈ (cx.layout id).slots)
include resolves within

theorem lead_carried : cx.catalog.Lead id (cx.carriedPaths id r back ss) := by
  intro p hp
  obtain ⟨s, hs, rfl⟩ := List.mem_map.1 hp
  exact resolves.lead (within s (List.mem_filter.1 hs).1)

theorem shaped_filled : cx.catalog.Shaped (.record id) (cx.filled id r back ss) :=
  (cx.catalog.shaped_initial id).putAll resolves.derived (resolves.lead_carried within)

/-- Where no field that carries a value lies, there is a zero or nothing. -/
theorem eq_initial (yields : cx.catalog.Yields id a (cx.filled id r back ss) f y)
    (apart : ∀ s ∈ ss, cx.carries id r s = true → ¬ a <+: s.path) :
    y = cx.catalog.initial f.type := by
  have before := yields.of_putAll (cx.catalog.shaped_initial id) resolves.derived
    (resolves.lead_carried within) fun p hp => by
      obtain ⟨s, hs, rfl⟩ := List.mem_map.1 hp
      obtain ⟨hs, carries⟩ := List.mem_filter.1 hs
      exact apart s hs carries
  exact before.eq_of_initial resolves.zero

/-- An optional embedded record is there exactly if a field below it carries a value. -/
theorem open_filled (embedded : cx.catalog.Leads id a g) (lends : g.lends?.isSome = true)
    (optional : g.type.isOptional = true) : cx.catalog.Open id a (cx.filled id r back ss) ↔
      ∃ s ∈ ss, cx.carries id r s = true ∧ a <+: s.path := by
  have lead : cx.catalog.Lead id (cx.carriedPaths id r back ss) := resolves.lead_carried within
  have opened := Catalog.open_putAll resolves.zero.closed (cx.catalog.shaped_initial id)
    resolves.derived lead embedded lends optional
  refine opened.trans ⟨?_, ?_⟩
  · rintro (initial | ⟨p, hp, le⟩)
    · exact (Catalog.not_open_initial resolves.zero embedded optional initial).elim
    · obtain ⟨s, hs, rfl⟩ := List.mem_map.1 hp
      obtain ⟨hs, carries⟩ := List.mem_filter.1 hs
      exact ⟨s, hs, carries, le⟩
  · rintro ⟨s, hs, carries, le⟩
    exact .inr ⟨_, List.mem_map.2 ⟨s, List.mem_filter.2 ⟨hs, carries⟩, rfl⟩, le⟩

/-- **What is absent from the record that is written is not there while the other is filled.** -/
theorem lookup_filled_of_absent (shaped : cx.catalog.Shaped (.record id) r)
    (slot : s ∈ (cx.layout id).slots) (absent : cx.catalog.lookup id s.path r = none) :
    cx.catalog.lookup id s.path (cx.filled id r back ss) = none := by
  obtain ⟨f, leads, direct⟩ := resolves.lead slot
  rw [Catalog.lookup_eq_none resolves.derived leads direct] at absent ⊢
  intro x holds
  obtain ⟨a, g, embedded, lends, optional, le, closed⟩ :=
    Catalog.exists_not_open shaped leads absent
  have notOwn : ∀ {q f}, cx.catalog.Leads id q f → f.isDirect = true → a ≠ q := by
    rintro q f leads direct rfl
    rw [embedded.unique leads, FieldDecl.lends?_of_isDirect direct] at lends
    cases lends
  -- the optional record above it is there, so some other field below that carries a value
  have opened := holds.open_of_isPrefix embedded.ne_nil le (notOwn leads direct)
  obtain ⟨t, ht, carries, below⟩ := (resolves.open_filled within embedded lends optional).1 opened
  obtain ⟨found, carried⟩ := Option.isSome_iff_exists.1 carries
  obtain ⟨h, leads', direct'⟩ := resolves.lead (within t ht)
  obtain ⟨-, there⟩ := (Catalog.lookup_eq_some resolves.derived leads' direct').1
    (lookup_of_carried carried)
  exact closed (there.open_of_isPrefix embedded.ne_nil below (notOwn leads' direct'))

end Resolves

/-! ## 4. What filling comes to -/

/-- The record `y` is a fresh one but for the fields that carry a value of `r`, which hold what
comes back of it, and for the embedded records above these. -/
structure Regains (cx : Context) (id : RecordId) (r : Datum) (back : Slot → Datum) (y : Datum) :
    Prop where
  shaped : cx.catalog.Shaped (.record id) y
  carried : ∀ s ∈ (cx.layout id).slots, ∀ t x, cx.carried? id r s = some (t, x) →
    cx.catalog.lookup id s.path y = some (t, back s)
  /-- An optional embedded record is there exactly if a field below it carries a value. -/
  embedded : ∀ a f, cx.catalog.Leads id a f → f.lends?.isSome = true → f.type.isOptional = true →
    (cx.catalog.Open id a y ↔
      ∃ s ∈ (cx.layout id).slots, cx.carries id r s = true ∧ a <+: s.path)
  /-- Every other place holds its zero, whether or not a slot leads there. -/
  others : ∀ a f x, cx.catalog.Holds id a y f x →
    (∀ s ∈ (cx.layout id).slots, cx.carries id r s = true → ¬ a <+: s.path) →
    x = cx.catalog.initial f.type

/-- **A record that was filled regains what was carried, and nothing else.** -/
theorem Resolves.regains (resolves : cx.Resolves id) (r : Datum) (back : Slot → Datum) :
    cx.Regains id r back (cx.filled id r back (cx.layout id).slots) := by
  have all : ∀ s ∈ (cx.layout id).slots, s ∈ (cx.layout id).slots := fun _ hs => hs
  refine ⟨resolves.shaped_filled all, fun s hs t x carried => ?_,
    fun a f embedded lends optional => resolves.open_filled all embedded lends optional,
    fun a f x holds apart => resolves.eq_initial all holds.yields apart⟩
  obtain ⟨f, leads, direct⟩ := resolves.lead hs
  obtain ⟨type, -⟩ := (Catalog.lookup_eq_some resolves.derived leads direct).1
    (lookup_of_carried carried)
  refine (Catalog.lookup_eq_some resolves.derived leads direct).2 ⟨type, ?_⟩
  have carries : cx.carries id r s = true := by rw [Context.carries, carried]; rfl
  refine Catalog.holds_putAll (cx.catalog.shaped_initial id) resolves.derived
    (resolves.lead_carried all) ?_ ?_ leads
  · rw [carriedPaths, List.pairwise_map]
    exact (resolves.apart.filter _).imp fun apart => apart.1
  · exact List.mem_map.2 ⟨s, List.mem_filter.2 ⟨hs, carries⟩, rfl⟩

/-- **What is regained settles the record.** -/
theorem Regains.unique {y y' : Datum} (resolves : cx.Resolves id) (regains : cx.Regains id r back y)
    (regains' : cx.Regains id r back y') : y = y' := by
  have just : ∀ {y}, cx.Regains id r back y → cx.catalog.HoldsJust id
      (fun q v => ∃ s ∈ (cx.layout id).slots, cx.carries id r s = true ∧ q = s.path ∧ v = back s)
      y := by
    intro y regains
    refine ⟨regains.shaped, ?_, fun a f x holds apart => regains.others a f x holds ?_⟩
    · rintro q v ⟨s, hs, carries, rfl, rfl⟩
      obtain ⟨⟨t, x⟩, carried⟩ := Option.isSome_iff_exists.1 carries
      obtain ⟨f, leads, direct⟩ := resolves.lead hs
      have found := regains.carried s hs t x carried
      exact ⟨f, ((Catalog.lookup_eq_some resolves.derived leads direct).1 found).2⟩
    · exact fun s hs carries => apart s.path (back s) ⟨s, hs, carries, rfl, rfl⟩
  exact (just regains).unique (just regains')

end Context

end MessagePack
