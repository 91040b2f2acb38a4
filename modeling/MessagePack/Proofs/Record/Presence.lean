import MessagePack.Proofs.Record.Frame
/-!
# Which embedded records are there

An embedded record comes into being when a path for writing leads through it.  It is a fresh one,
and fresh records may hold embedded records of their own: these come with it, though the path need
not lead through them.  `Catalog.Brought` says which.  Nothing else comes into being, and nothing
goes.

Where no fresh record holds an optional one, `Catalog.ClosedDefaults`, only the path decides.

Main statement: `Catalog.open_put_reach`.
-/

namespace MessagePack.Catalog

variable {c : Catalog} {id inner : RecordId} {i : Nat} {f g : FieldDecl} {d r v x : Datum}
  {a p rest : List Nat} {touched : List Nat → Prop}

/-! ## 1. Records that come with others -/

/-- The embedded record at a place is there, or it comes with the records above it. -/
def Ready (c : Catalog) (id : RecordId) (a : List Nat) (d : Datum) : Prop :=
  ∃ f x r, c.Yields id a d f x ∧ f.type.recordIn? x = some r

/-- The record at `a` comes with a record on the way to `p` that is absent and comes into being:
what is fresh of that one has it. -/
def Brought (c : Catalog) (id : RecordId) (p : List Nat) (d : Datum) (a : List Nat) : Prop :=
  ∃ b e f inner, b ++ e = a ∧ b <+: p ∧ c.Leads id b f ∧ f.lends? = some inner ∧
    ¬ c.Ready id b d ∧ c.Open inner e (c.initial (.record inner))

/-- No fresh record holds an optional embedded one. -/
def ClosedDefaults (c : Catalog) : Prop :=
  ∀ id a f, c.Leads id a f → f.type.isOptional = true → ¬ c.Open id a (c.initial (.record id))

/-- Records of zeros hold no optional records. -/
theorem ZeroDefaults.closed (zero : c.ZeroDefaults) : c.ClosedDefaults :=
  fun _ _ _ leads optional => not_open_initial zero leads optional

/-- What is there is ready to be written to. -/
theorem Open.ready (opened : c.Open id a d) : c.Ready id a d := by
  obtain ⟨f, x, r, holds, inside⟩ := opened
  exact ⟨f, x, r, holds.yields, inside⟩

/-- The record itself is not above its fields. -/
theorem Open.ne_nil (opened : c.Open id a d) : a ≠ [] := by
  obtain ⟨f, x, r, holds, -⟩ := opened
  exact holds.ne_nil

theorem Keeps.ready_iff (keeps : c.Keeps id touched d r) (shaped : c.Shaped (.record id) d)
    (apart : ∀ p, touched p → ¬ a <+: p) : c.Ready id a r ↔ c.Ready id a d := by
  simp only [Ready, keeps.yields_iff shaped apart]

/-- A place below an embedding field, seen from the record in that field. -/
theorem Leads.behind (leads : c.Leads id p f) (lends : f.lends? = some inner) (some' : rest ≠ [])
    (below : c.Leads id (p ++ rest) g) : c.Leads inner rest g := by
  induction leads with
  | own field =>
    cases below with
    | own => exact (some' rfl).elim
    | within field' lends' behind =>
      cases field.symm.trans field'
      cases lends.symm.trans lends'
      exact behind
  | @within id mid i f h q field lends' behind ih =>
    cases hq : q ++ rest with
    | nil => exact (some' (List.append_eq_nil_iff.1 hq).2).elim
    | cons j tail =>
      rw [List.cons_append, hq] at below
      cases below with
      | within field' lends'' behind' =>
        cases field.symm.trans field'
        cases lends'.symm.trans lends''
        exact ih lends (hq ▸ behind')

/-- **Where no fresh record holds an optional one, none is brought.** -/
theorem ClosedDefaults.not_brought (closed : c.ClosedDefaults) (embedded : c.Leads id a g)
    (optional : g.type.isOptional = true) : ¬ c.Brought id p d a := by
  rintro ⟨b, e, f, inner, rfl, -, leads, lends, -, opened⟩
  exact closed inner e g (leads.behind lends opened.ne_nil embedded) optional opened

/-! ## 2. Below a field -/

theorem open_own_iff (field : c.field? id i = some f) (here : d.fields[i]? = some x) :
    c.Open id [i] d ↔ (f.type.recordIn? x).isSome = true := by
  constructor
  · rintro ⟨g, y, r, holds, inside⟩
    cases holds with
    | own field' here' =>
      cases field.symm.trans field'
      cases here.symm.trans here'
      rw [inside]
      rfl
    | within _ _ _ _ behind => exact (behind.ne_nil rfl).elim
  · intro held
    obtain ⟨r, inside⟩ := Option.isSome_iff_exists.1 held
    exact ⟨f, x, r, .own field here, inside⟩

theorem ready_own_iff (field : c.field? id i = some f) (here : d.fields[i]? = some x) :
    c.Ready id [i] d ↔ (f.type.recordIn? x).isSome = true := by
  rw [← open_own_iff field here]
  refine ⟨?_, Open.ready⟩
  rintro ⟨g, y, r, yields, inside⟩
  cases yields with
  | own field' here' => exact ⟨_, y, r, .own field' here', inside⟩
  | within _ _ _ behind => exact (behind.ne_nil rfl).elim

variable (field : c.field? id i = some f) (lends : f.lends? = some inner)
  (here : d.fields[i]? = some x)
include field lends here

theorem open_below_iff (some' : a ≠ []) : c.Open id (i :: a) d ↔
    ∃ r, f.type.recordIn? x = some r ∧ c.Open inner a r := by
  constructor
  · rintro ⟨g, y, s, holds, inside⟩
    obtain ⟨r, found, holds⟩ := (holds_below_iff field lends here some').1 holds
    exact ⟨r, found, g, y, s, holds, inside⟩
  · rintro ⟨r, found, g, y, s, holds, inside⟩
    exact ⟨g, y, s, .within field lends here found holds, inside⟩

theorem ready_below_iff (some' : a ≠ []) :
    c.Ready id (i :: a) d ↔ c.Ready inner a (c.allocate f.type x) := by
  simp only [Ready, yields_below_iff field lends here some']

/-- **What is brought through a field** is what a fresh record has, if the field holds none; else it
is brought further down. -/
theorem brought_within_iff (some' : a ≠ []) : c.Brought id (i :: rest) d (i :: a) ↔
    (f.type.recordIn? x = none ∧ c.Open inner a (c.initial (.record inner))) ∨
      c.Brought inner rest (c.allocate f.type x) a := by
  constructor
  · rintro ⟨b, e, g, k, whole, le, leads, lends', absent, opened⟩
    cases leads with
    | own field' =>
      obtain ⟨rfl, rfl⟩ := List.cons.inj whole
      cases field.symm.trans field'
      cases lends.symm.trans lends'
      rw [ready_own_iff field here, Bool.not_eq_true, Option.isSome_eq_false_iff,
        Option.isNone_iff_eq_none] at absent
      exact .inl ⟨absent, opened⟩
    | within field' lends'' behind =>
      obtain ⟨rfl, rfl⟩ := List.cons.inj whole
      cases field.symm.trans field'
      cases lends.symm.trans lends''
      rw [ready_below_iff field lends here behind.ne_nil] at absent
      exact .inr ⟨_, e, g, k, rfl, (List.cons_prefix_cons.1 le).2, behind, lends', absent, opened⟩
  · rintro (⟨absent, opened⟩ | ⟨b, e, g, k, rfl, le, leads, lends', absent, opened⟩)
    · refine ⟨[i], a, f, inner, rfl, List.cons_prefix_cons.2 ⟨rfl, List.nil_prefix⟩, .own field,
        lends, ?_, opened⟩
      rw [ready_own_iff field here, absent]
      exact Bool.false_ne_true
    · refine ⟨i :: b, e, g, k, rfl, List.cons_prefix_cons.2 ⟨rfl, le⟩,
        .within field lends leads, lends', ?_, opened⟩
      rwa [ready_below_iff field lends here leads.ne_nil]

/-! ## 3. Along a path -/

omit field lends here

/-- What starts at another field than the path is not touched. -/
theorem open_setField_beside {j : Nat} (other : j ≠ i) : c.Open id (j :: a) (d.setField i v) ↔
    c.Open id (j :: a) d ∨ j :: a <+: i :: rest ∨ c.Brought id (i :: rest) d (j :: a) := by
  have apart : ¬ [i] <+: j :: a := fun le => other (List.cons_prefix_cons.1 le).1.symm
  have stray : ¬ c.Brought id (i :: rest) d (j :: a) := by
    rintro ⟨b, e, h, k, whole, le, leads, -⟩
    cases b with
    | nil => exact leads.ne_nil rfl
    | cons l b =>
      exact other ((List.cons.inj whole).1.symm.trans (List.cons_prefix_cons.1 le).1)
  rw [or_iff_left stray, or_iff_left fun le => other (List.cons_prefix_cons.1 le).1]
  simp only [Open, holds_setField_iff apart]

/-- **An embedded record is there after putting where a path was reached if it was there before, if
the path leads through it, or if a record that came into being on the way brought it.** -/
theorem open_put_reach (name : String) (shaped : c.Shaped (.record id) d) (leads : c.Leads id p f)
    (own : f.lends? = none) {found : Ty × Datum} (reached : (c.reach name id p d).1 = .ok found)
    (embedded : c.Leads id a g) (lends : g.lends?.isSome = true) :
    c.Open id a (c.put id p (c.reach name id p d).2 v) ↔
      c.Open id a d ∨ a <+: p ∨ c.Brought id p d a := by
  induction leads generalizing d a with
  | @own id i f field =>
    rw [reach_own]
    cases a with
    | nil => exact (embedded.ne_nil rfl).elim
    | cons j a' =>
      refine open_setField_beside ?_
      rintro rfl
      have same := (Leads.own field).eq_of_isPrefix own embedded
        (List.cons_prefix_cons.2 ⟨rfl, List.nil_prefix⟩)
      rw [← same] at embedded
      rw [← (Leads.own field).unique embedded, own] at lends
      cases lends
  | @within id inner i f h rest field lends' behind ih =>
    obtain ⟨x, here⟩ := shaped.exists_field field
    have embeds := FieldDecl.embedded?_of_lends lends'
    have fits := shaped.embedded field lends' here
    rcases enter?_eq_or field lends' with shut | enter
    · rw [reach_of_shut behind.ne_nil shut] at reached
      cases reached
    · rw [put_reach_within behind.ne_nil enter here]
      rw [reach_within behind.ne_nil enter here] at reached
      rcases a with _ | ⟨j, a⟩
      · exact (embedded.ne_nil rfl).elim
      by_cases same : j = i
      · subst same
        rcases eq_or_ne a [] with rfl | some'
        · -- the path leads through the field's own record
          refine iff_of_true ?_ (.inr (.inl (List.cons_prefix_cons.2 ⟨rfl, List.nil_prefix⟩)))
          rw [open_own_iff field (getElem?_setField here), recordIn?_holding embeds]
          rfl
        · have deeper := (Leads.own field).behind lends' some' embedded
          rw [open_below_iff field lends' (getElem?_setField here) some',
            recordIn?_holding embeds, brought_within_iff field lends' here some',
            List.prefix_cons_inj, open_below_iff field lends' here some']
          simp only [Option.some.injEq, exists_eq_left']
          rw [ih (fits.allocate embeds) own reached deeper]
          cases inside : f.type.recordIn? x with
          | none =>
            rw [allocate_of_absent embeds inside]
            simp only [reduceCtorEq, false_and, exists_false, false_or, true_and]
            exact or_left_comm
          | some r =>
            rw [allocate_of_recordIn embeds inside]
            simp only [reduceCtorEq, Option.some.injEq, exists_eq_left', false_and, false_or]
      · exact open_setField_beside same

/-- The same of putting, in a record that hands out its fields. -/
theorem open_put (shaped : c.Shaped (.record id) d) (derived : c.Derived id)
    (leads : c.Leads id p f) (direct : f.isDirect = true) (embedded : c.Leads id a g)
    (lends : g.lends?.isSome = true) :
    c.Open id a (c.put id p d v) ↔ c.Open id a d ∨ a <+: p ∨ c.Brought id p d a := by
  obtain ⟨x, left, reached, -, puts⟩ := reach_eq "" shaped derived leads direct
  rw [← puts v, ← open_put_reach (v := v) "" shaped leads (FieldDecl.lends?_of_isDirect direct)
    (congrArg Prod.fst reached) embedded lends, reached]

/-! ## 4. Along several paths -/

/-- The record `r` is `d` with the records on these paths there, and what came with them. -/
structure Opens (c : Catalog) (id : RecordId) (paths : List Nat → Prop) (d r : Datum) : Prop where
  shaped : c.Shaped (.record id) r
  opened : ∀ a g, c.Leads id a g → g.lends?.isSome = true →
    (c.Open id a r ↔ c.Open id a d ∨ ∃ p, paths p ∧ (a <+: p ∨ c.Brought id p d a))
  ready : ∀ a g, c.Leads id a g → g.lends?.isSome = true →
    (c.Ready id a r ↔ c.Ready id a d ∨ ∃ p, paths p ∧ a <+: p)

namespace Opens

variable {paths paths' : List Nat → Prop} {mid : Datum}

/-- Without paths nothing is opened. -/
theorem refl (shaped : c.Shaped (.record id) d) (none' : ∀ p, ¬ paths p) :
    c.Opens id paths d d := by
  refine ⟨shaped, fun a g _ _ => (or_iff_left ?_).symm, fun a g _ _ => (or_iff_left ?_).symm⟩
  · rintro ⟨p, path, -⟩
    exact none' p path
  · rintro ⟨p, path, -⟩
    exact none' p path

/-- The paths may be told in other words. -/
theorem congr (opens : c.Opens id paths d r) (same : ∀ p, paths p ↔ paths' p) :
    c.Opens id paths' d r := by
  obtain rfl : paths = paths' := funext fun p => propext (same p)
  exact opens

/-- **One after another.**  What the second paths would bring, had the first not been followed, they
bring, or the first brought it. -/
theorem trans (first : c.Opens id paths d mid) (second : c.Opens id paths' mid r) :
    c.Opens id (fun p => paths p ∨ paths' p) d r := by
  refine ⟨second.shaped, fun a g embedded lends => ?_, fun a g embedded lends => ?_⟩
  · rw [second.opened a g embedded lends, first.opened a g embedded lends]
    constructor
    · rintro ((before | ⟨p, path, brought⟩) | ⟨p, path, le | brought⟩)
      · exact .inl before
      · exact .inr ⟨p, .inl path, brought⟩
      · exact .inr ⟨p, .inr path, .inl le⟩
      · obtain ⟨b, e, f, inner, rfl, le, leads, lends', absent, opened⟩ := brought
        have before := mt (fun h => (first.ready b f leads (by rw [lends']; rfl)).2 (.inl h)) absent
        exact .inr ⟨p, .inr path, .inr ⟨b, e, f, inner, rfl, le, leads, lends', before, opened⟩⟩
    · rintro (before | ⟨p, path | path, le | brought⟩)
      · exact .inl (.inl before)
      · exact .inl (.inr ⟨p, path, .inl le⟩)
      · exact .inl (.inr ⟨p, path, .inr brought⟩)
      · exact .inr ⟨p, path, .inl le⟩
      · obtain ⟨b, e, f, inner, rfl, le, leads, lends', absent, opened⟩ := brought
        by_cases there : c.Ready id b mid
        · -- the first paths led through the record that brings it
          obtain ⟨q, path', le'⟩ :=
            ((first.ready b f leads (by rw [lends']; rfl)).1 there).resolve_left absent
          exact .inl (.inr ⟨q, path',
            .inr ⟨b, e, f, inner, rfl, le', leads, lends', absent, opened⟩⟩)
        · exact .inr ⟨p, path, .inr ⟨b, e, f, inner, rfl, le, leads, lends', there, opened⟩⟩
  · rw [second.ready a g embedded lends, first.ready a g embedded lends, or_assoc]
    simp only [or_and_right, exists_or]

/-- A path on which all records are there opens none. -/
theorem of_open (opens : c.Opens id (· = p) d r) (none' : ∀ p, ¬ paths p)
    (before : ∀ a g, c.Leads id a g → g.lends?.isSome = true → a <+: p → c.Open id a d) :
    c.Opens id paths d r := by
  have open_iff : ∀ a g, c.Leads id a g → g.lends?.isSome = true →
      (c.Open id a r ↔ c.Open id a d) := by
    intro a g embedded lends
    refine (opens.opened a g embedded lends).trans (or_iff_left_of_imp ?_)
    rintro ⟨_, rfl, le | ⟨b, e, f, inner, -, le, leads, lends', absent, -⟩⟩
    · exact before a g embedded lends le
    · exact (absent (before b f leads (by rw [lends']; rfl) le).ready).elim
  have ready_iff : ∀ a g, c.Leads id a g → g.lends?.isSome = true →
      (c.Ready id a r ↔ c.Ready id a d) := by
    intro a g embedded lends
    refine (opens.ready a g embedded lends).trans (or_iff_left_of_imp ?_)
    rintro ⟨_, rfl, le⟩
    exact (before a g embedded lends le).ready
  have none'' : ∀ {P : List Nat → Prop}, ¬ ∃ p, paths p ∧ P p := fun ⟨p, path, _⟩ => none' p path
  exact ⟨opens.shaped,
    fun a g embedded lends => (open_iff a g embedded lends).trans (or_iff_left none'').symm,
    fun a g embedded lends => (ready_iff a g embedded lends).trans (or_iff_left none'').symm⟩

end Opens

/-- Putting where a path was reached opens the records on that path. -/
theorem opens_put_reach (name : String) (shaped : c.Shaped (.record id) d) (leads : c.Leads id p f)
    (own : f.lends? = none) {found : Ty × Datum} (reached : (c.reach name id p d).1 = .ok found)
    (v : Datum) : c.Opens id (· = p) d (c.put id p (c.reach name id p d).2 v) := by
  have keeps := (reach_keeps name shaped leads own).2 found reached v
  have opened := fun a g embedded lends =>
    open_put_reach (v := v) (a := a) (g := g) name shaped leads own reached embedded lends
  refine ⟨keeps.shaped, fun a g embedded lends => ?_, fun a g embedded lends => ?_⟩
  · simp only [opened a g embedded lends, exists_eq_left]
  · rw [exists_eq_left]
    by_cases le : a <+: p
    · exact iff_of_true ((opened a g embedded lends).2 (.inr (.inl le))).ready (.inr le)
    · rw [or_iff_left le]
      refine keeps.ready_iff shaped ?_
      rintro _ rfl
      exact le

end MessagePack.Catalog
