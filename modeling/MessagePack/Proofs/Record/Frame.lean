import MessagePack.Proofs.Record.Places
/-!
# What following a path leaves alone

Following a path for writing changes a record at the end of that path, and it may bring embedded
records into being on the way.  Every other field of the record, and of the records that lend it
theirs, stays: those that were there keep what they held, and those that come into being hold what a
fresh record holds.  A path that fails on the way leaves just as much alone, so nothing is asked of
the record's access to its fields.

`Catalog.Keeps` says so for any set of paths.  Main statements:

* `Catalog.reach_keeps`: following a path changes nothing but its end;
* `Catalog.Yields.of_put` and `Catalog.Holds.put`: so putting a datum there leaves every other place
  alone.
-/

namespace MessagePack.Catalog

variable {c : Catalog} {id inner : RecordId} {i : Nat} {f g : FieldDecl} {d e mid r v x y : Datum}
  {a p q rest : List Nat} {touched touched' : List Nat → Prop}

/-! ## 1. Records that differ along paths -/

/-- The record `r` is `d` but for the fields at and above the ends of `touched` paths.  Elsewhere it
holds what `d` holds, and yields what `d` yields. -/
structure Keeps (c : Catalog) (id : RecordId) (touched : List Nat → Prop) (d r : Datum) : Prop where
  shaped : c.Shaped (.record id) r
  kept : ∀ q g y, (∀ p, touched p → ¬ q <+: p) → c.Holds id q d g y → c.Holds id q r g y
  yields : ∀ q g y, (∀ p, touched p → ¬ q <+: p) → c.Yields id q d g y → c.Yields id q r g y

namespace Keeps

/-- What is not touched is kept. -/
theorem refl (shaped : c.Shaped (.record id) d) : c.Keeps id touched d d :=
  ⟨shaped, fun _ _ _ _ holds => holds, fun _ _ _ _ yields => yields⟩

/-- More may be touched than was. -/
theorem mono (keeps : c.Keeps id touched d r) (le : ∀ p, touched p → touched' p) :
    c.Keeps id touched' d r :=
  ⟨keeps.shaped, fun q g y apart => keeps.kept q g y fun p h => apart p (le p h),
    fun q g y apart => keeps.yields q g y fun p h => apart p (le p h)⟩

/-- **One change after another.** -/
theorem trans (first : c.Keeps id touched d mid) (second : c.Keeps id touched mid r) :
    c.Keeps id touched d r :=
  ⟨second.shaped, fun q g y apart holds => second.kept q g y apart (first.kept q g y apart holds),
    fun q g y apart yields => second.yields q g y apart (first.yields q g y apart yields)⟩

/-- Beside what is touched the same is found as before. -/
theorem yields_iff (keeps : c.Keeps id touched d r) (shaped : c.Shaped (.record id) d)
    (apart : ∀ p, touched p → ¬ q <+: p) : c.Yields id q r g y ↔ c.Yields id q d g y := by
  refine ⟨fun after => ?_, keeps.yields q g y apart⟩
  obtain ⟨z, before⟩ := Yields.exists_of_leads after.leads shaped
  rwa [after.unique (keeps.yields q g z apart before)]

/-- A field that `r` has and `d` has not holds what it came into being with. -/
theorem fresh (keeps : c.Keeps id touched d r) (shaped : c.Shaped (.record id) d)
    (apart : ∀ p, touched p → ¬ q <+: p) (holds : c.Holds id q r g y) :
    c.Holds id q d g y ∨ c.Yields id q d g y ∧ ∀ z, ¬ c.Holds id q d g z := by
  have before := (keeps.yields_iff shaped apart).1 holds.yields
  by_cases held : ∃ z, c.Holds id q d g z
  · obtain ⟨z, held⟩ := held
    exact .inl (before.holds held)
  · exact .inr ⟨before, fun z held' => held ⟨z, held'⟩⟩

end Keeps

/-! ## 2. Changing one field -/

/-- A place sees of a record only the field that it starts with. -/
theorem Holds.of_fields (holds : c.Holds id q d g y)
    (same : ∀ j, [j] <+: q → e.fields[j]? = d.fields[j]?) : c.Holds id q e g y := by
  cases holds with
  | own field here => exact .own field ((same _ (List.prefix_refl _)).trans here)
  | within field lends here inside behind =>
    have first := same _ (List.cons_prefix_cons.2 ⟨rfl, List.nil_prefix⟩)
    exact .within field lends (first.trans here) inside behind

theorem holds_setField_iff (apart : ¬ [i] <+: q) :
    c.Holds id q (d.setField i v) g y ↔ c.Holds id q d g y := by
  have same : ∀ j, [j] <+: q → (d.setField i v).fields[j]? = d.fields[j]? := by
    intro j first
    refine getElem?_setField_ne ?_
    rintro rfl
    exact apart first
  exact ⟨fun holds => holds.of_fields fun j first => (same j first).symm,
    fun holds => holds.of_fields same⟩

/-- So it is with what a place yields. -/
theorem Yields.of_fields (yields : c.Yields id q d g y)
    (same : ∀ j, [j] <+: q → e.fields[j]? = d.fields[j]?) : c.Yields id q e g y := by
  cases yields with
  | own field here => exact .own field ((same _ (List.prefix_refl _)).trans here)
  | within field lends here behind =>
    have first := same _ (List.cons_prefix_cons.2 ⟨rfl, List.nil_prefix⟩)
    exact .within field lends (first.trans here) behind

/-- Setting a field leaves what other paths yield. -/
theorem Yields.setField (apart : ¬ [i] <+: q) (yields : c.Yields id q d g y) :
    c.Yields id q (d.setField i v) g y :=
  yields.of_fields fun _ first => getElem?_setField_ne fun same => apart (same ▸ first)

/-- Changing a field that lends nothing changes no other. -/
theorem keeps_setField (shaped : c.Shaped (.record id) d) (field : c.field? id i = some f)
    (own : f.lends? = none) : c.Keeps id (· = [i]) d (d.setField i v) := by
  have elsewhere : ∀ {q g}, (∀ p, p = [i] → ¬ q <+: p) → c.Leads id q g → ¬ [i] <+: q := by
    intro q g apart leads below
    obtain rfl := (Leads.own field).eq_of_isPrefix own leads below
    exact apart _ rfl (List.prefix_refl _)
  refine ⟨shaped.setField field fun lends => ?_, fun q g y apart holds => ?_,
    fun q g y apart yields => yields.setField (elsewhere apart yields.leads)⟩
  · rw [own] at lends
    cases lends
  · exact (holds_setField_iff (elsewhere apart holds.leads)).2 holds

/-- Below an embedding field a record holds what the embedded record holds. -/
theorem holds_within_iff (field : c.field? id i = some f) (lends : f.lends? = some inner)
    (some' : rest ≠ []) :
    c.Holds id (i :: rest) d g y ↔
      ∃ x r, d.fields[i]? = some x ∧ f.type.recordIn? x = some r ∧ c.Holds inner rest r g y := by
  constructor
  · intro holds
    cases holds with
    | own => exact (some' rfl).elim
    | @within _ _ _ _ x r _ _ _ _ field' lends' here inside behind =>
      cases field.symm.trans field'
      cases lends.symm.trans lends'
      exact ⟨x, r, here, inside, behind⟩
  · rintro ⟨x, r, here, inside, behind⟩
    exact .within field lends here inside behind

/-- The same of a field whose datum is known. -/
theorem holds_below_iff (field : c.field? id i = some f) (lends : f.lends? = some inner)
    (here : d.fields[i]? = some x) (some' : q ≠ []) : c.Holds id (i :: q) d g y ↔
      ∃ r, f.type.recordIn? x = some r ∧ c.Holds inner q r g y := by
  rw [holds_within_iff field lends some', here]
  constructor
  · rintro ⟨_, r, ⟨⟩, found⟩
    exact ⟨r, found⟩
  · rintro ⟨r, found⟩
    exact ⟨x, r, rfl, found⟩

theorem yields_below_iff (field : c.field? id i = some f) (lends : f.lends? = some inner)
    (here : d.fields[i]? = some x) (some' : q ≠ []) :
    c.Yields id (i :: q) d g y ↔ c.Yields inner q (c.allocate f.type x) g y := by
  constructor
  · intro yields
    cases yields with
    | own => exact (some' rfl).elim
    | within field' lends' here' behind =>
      cases field.symm.trans field'
      cases lends.symm.trans lends'
      cases here.symm.trans here'
      exact behind
  · exact .within field lends here

/-- **What an embedded record keeps, the record around it keeps**, also if the embedded record was
allocated first. -/
theorem keeps_within (shaped : c.Shaped (.record id) d) (field : c.field? id i = some f)
    (lends : f.lends? = some inner) (here : d.fields[i]? = some x)
    (keeps : c.Keeps inner (· = rest) (c.allocate f.type x) r) :
    c.Keeps id (· = i :: rest) d (d.setField i (f.type.holding r)) := by
  have embeds := FieldDecl.embedded?_of_lends lends
  have after := getElem?_setField (v := f.type.holding r) here
  -- a place that stays apart from the path starts elsewhere, or goes on into the embedded record
  have cases' : ∀ {q}, q ≠ [] → (∀ p, p = i :: rest → ¬ q <+: p) →
      ¬ [i] <+: q ∨ ∃ q', q = i :: q' ∧ q' ≠ [] ∧ ∀ p, p = rest → ¬ q' <+: p := by
    intro q some' apart
    rcases q with _ | ⟨j, q⟩
    · exact absurd rfl some'
    by_cases same : j = i
    · subst same
      refine .inr ⟨q, rfl, ?_, ?_⟩
      · rintro rfl
        exact apart _ rfl (List.cons_prefix_cons.2 ⟨rfl, List.nil_prefix⟩)
      · rintro _ rfl le
        exact apart _ rfl (List.cons_prefix_cons.2 ⟨rfl, le⟩)
    · exact .inl fun le => same (List.cons_prefix_cons.1 le).1.symm
  refine ⟨shaped.setField field fun _ => keeps.shaped.holding embeds, fun q g y apart holds => ?_,
    fun q g y apart yields => ?_⟩
  · rcases cases' holds.ne_nil apart with other | ⟨q, rfl, some', apart⟩
    · exact (holds_setField_iff other).2 holds
    · obtain ⟨r, inside, holds⟩ := (holds_below_iff field lends here some').1 holds
      refine (holds_below_iff field lends after some').2 ⟨_, recordIn?_holding embeds, ?_⟩
      refine keeps.kept q g y apart ?_
      rwa [allocate_of_recordIn embeds inside]
  · rcases cases' yields.ne_nil apart with other | ⟨q, rfl, some', apart⟩
    · exact yields.setField other
    · refine (yields_below_iff field lends after some').2 ?_
      rw [allocate_holding embeds]
      exact keeps.yields q g y apart ((yields_below_iff field lends here some').1 yields)

/-! ## 3. Following a path -/

/-- Nothing comes into being on a path of one step. -/
theorem reach_own {name : String} : (c.reach name id [i] d).2 = d := by
  rw [reach]
  split <;> rfl

/-- A path ends at a field through which no record can be entered. -/
theorem reach_of_shut {name : String} (some' : rest ≠ []) (shut : c.enter? id i = none) :
    c.reach name id (i :: rest) d = (.error (.misfit (.noEmbedded i name)), d) := by
  cases rest with
  | nil => exact absurd rfl some'
  | cons j rest => rw [reach, shut]

/-- Putting behind what was reached is putting in the embedded record that was reached. -/
theorem put_reach_within {name : String} {t : Ty} (some' : rest ≠ [])
    (enter : c.enter? id i = some (t, inner)) (here : d.fields[i]? = some x) :
    c.put id (i :: rest) (c.reach name id (i :: rest) d).2 v = d.setField i
      (t.holding (c.put inner rest (c.reach name inner rest (c.allocate t x)).2 v)) := by
  obtain ⟨-, -, -, embeds⟩ := enter?_eq_some enter
  rw [reach_within some' enter here, put_within some' enter (getElem?_setField here),
    setField_setField, allocate_holding embeds]

/-- **Following a path changes nothing but its end**, whether it gets there or not and whatever is
put there if it does. -/
theorem reach_keeps (name : String) (shaped : c.Shaped (.record id) d) (leads : c.Leads id p f)
    (own : f.lends? = none) :
    c.Keeps id (· = p) d (c.reach name id p d).2 ∧
      ∀ found, (c.reach name id p d).1 = .ok found → ∀ v,
        c.Keeps id (· = p) d (c.put id p (c.reach name id p d).2 v) := by
  induction leads generalizing d with
  | @own id i f field =>
    rw [reach_own]
    exact ⟨.refl shaped, fun _ _ v => keeps_setField shaped field own⟩
  | @within id inner i f g rest field lends behind ih =>
    obtain ⟨x, here⟩ := shaped.exists_field field
    have embeds := FieldDecl.embedded?_of_lends lends
    have fits := shaped.embedded field lends here
    rcases enter?_eq_or field lends with shut | enter
    · rw [reach_of_shut behind.ne_nil shut]
      refine ⟨.refl shaped, fun found reached => ?_⟩
      cases reached
    · obtain ⟨way, ends⟩ := ih (fits.allocate embeds) own
      refine ⟨?_, fun found reached v => ?_⟩
      · rw [reach_within behind.ne_nil enter here]
        exact keeps_within shaped field lends here way
      · rw [put_reach_within behind.ne_nil enter here]
        rw [reach_within behind.ne_nil enter here] at reached
        exact keeps_within shaped field lends here (ends found reached v)

/-! ## 4. What putting leaves alone -/

/-- Putting a datum at the end of a path changes nothing else. -/
theorem put_keeps (v : Datum) (shaped : c.Shaped (.record id) d) (derived : c.Derived id)
    (leads : c.Leads id p f) (direct : f.isDirect = true) :
    c.Keeps id (· = p) d (c.put id p d v) := by
  obtain ⟨x, left, reached, -, puts⟩ := reach_eq "" shaped derived leads direct
  obtain ⟨-, ends⟩ := reach_keeps "" shaped leads (FieldDecl.lends?_of_isDirect direct)
  rw [reached] at ends
  rw [← puts]
  exact ends _ rfl v

/-- **Putting a datum leaves every other place alone**: it yields what it did. -/
theorem Yields.of_put (yields : c.Yields id q (c.put id p d v) g y)
    (shaped : c.Shaped (.record id) d) (derived : c.Derived id) (leads : c.Leads id p f)
    (direct : f.isDirect = true) (apart : ¬ q <+: p) : c.Yields id q d g y := by
  refine ((put_keeps v shaped derived leads direct).yields_iff shaped ?_).1 yields
  rintro _ rfl
  exact apart

/-- What a record holds elsewhere stays. -/
theorem Holds.put (holds : c.Holds id q d g y) (shaped : c.Shaped (.record id) d)
    (derived : c.Derived id) (leads : c.Leads id p f) (direct : f.isDirect = true)
    (apart : ¬ q <+: p) : c.Holds id q (c.put id p d v) g y := by
  refine (put_keeps v shaped derived leads direct).kept q g y ?_ holds
  rintro _ rfl
  exact apart

end MessagePack.Catalog
