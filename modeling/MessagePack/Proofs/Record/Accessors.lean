import MessagePack.Proofs.Record.Presence
import MessagePack.Proofs.Record.Slots
/-!
# Slots as accessors

A slot's path is followed by asking each record on the way for one of its fields.  Which fields a
record answers for is told by the text of their tags alone; which paths there are is told by the
parsed tags.  Both agree on every tag, so that following the path of a slot for writing never fails:
it only brings the absent embedded records on the way into being, fresh ones.  From then on the slot
reads what is written through it, and every other slot reads what it read before.

Main statements: `FieldDecl.isDirect_iff` and `FieldDecl.entered?_eq_some_iff`, what a record
answers for by the text of its tags; `Catalog.reach_eq_put` and `Catalog.slot_accesses`.
-/

namespace MessagePack

/-! ## 1. What the text of a tag says -/

namespace FieldDecl

variable {f : FieldDecl} {inner : RecordId}

/-- The text of the tag before its first comma. -/
def leadText (f : FieldDecl) : List Char :=
  match f.tag with
  | some tag => (FieldTag.parts tag.toList).headD []
  | none => []

/-- A field is ignored by a tag that is a dash and nothing else. -/
theorem ignored_iff : f.fieldTag.ignored = true ↔ f.tag = some "-" := by
  unfold fieldTag
  cases f.tag with
  | none => simp [FieldTag.absent]
  | some tag =>
    simp only [Option.map_some, Option.getD_some, Option.some.injEq, FieldTag.parse]
    split <;> simp_all

/-- A tag in use names its field by the text before the first comma, if there is any. -/
theorem name_eq_none_iff (used : f.tag ≠ some "-") : f.fieldTag.name = none ↔ f.leadText = [] := by
  unfold fieldTag leadText
  cases tagged : f.tag with
  | none => simp [FieldTag.absent]
  | some tag =>
    have used : tag ≠ "-" := by
      rintro rfl
      exact used tagged
    simp [FieldTag.parse, used]

/-- A field is visible if it is public and not ignored. -/
theorem isVisible_iff : f.isVisible = true ↔ f.isPublic = true ∧ f.tag ≠ some "-" := by
  rw [isVisible, Bool.and_eq_true, Bool.not_eq_true', ← Bool.not_eq_true, ignored_iff]

/-- **A field is handed out by the text of its tag**: neither left out nor, holding an embedded
record and without text in front of the first comma, flattened away. -/
theorem isDirect_iff : f.isDirect = true ↔ f.isPublic = true ∧ f.tag ≠ some "-" ∧
    ¬ (f.embed = true ∧ f.leadText = [] ∧ f.type.embedded?.isSome = true) ∧
      f.reachable = true := by
  rw [isDirect, Bool.and_eq_true, Bool.and_eq_true, isVisible_iff, Option.isNone_iff_eq_none,
    and_assoc, and_assoc]
  refine and_congr_right fun _ => and_congr_right fun used => and_congr_left fun _ => ?_
  simp only [promoted?, Bool.and_eq_true, Option.isNone_iff_eq_none, name_eq_none_iff used]
  split
  · rename_i flat
    simp only [flat.1, flat.2, true_and, Bool.not_eq_true, Option.isSome_eq_false_iff,
      Option.isNone_iff_eq_none]
  · rename_i kept
    exact iff_of_true rfl fun flat => kept ⟨flat.1, flat.2.1⟩

/-- **A field is entered by the text of its tag**: embedded and not left out. -/
theorem entered?_eq_some_iff :
    f.entered? = some inner ↔ f.isPublic = true ∧ f.tag ≠ some "-" ∧ f.embed = true ∧
      f.reachable = true ∧ f.type.embedded? = some inner := by
  rw [entered?, Option.ite_none_right_eq_some, Bool.and_eq_true, Bool.and_eq_true, isVisible_iff]
  simp only [and_assoc]

/-- A field that lends its fields has no text in front of the first comma. -/
theorem leadText_of_lends (lends : f.lends? = some inner) : f.leadText = [] := by
  obtain ⟨visible, promoted⟩ := lends?_eq_some.1 lends
  unfold promoted? at promoted
  split at promoted
  · rename_i flat
    rw [Bool.and_eq_true, Option.isNone_iff_eq_none] at flat
    exact (name_eq_none_iff (isVisible_iff.1 visible).2).1 flat.2
  · cases promoted

end FieldDecl

/-! ## 2. Following a path for writing -/

namespace Catalog

variable {c : Catalog} {id inner : RecordId} {i : Nat} {f g : FieldDecl} {d r v x y : Datum}
  {p q a rest : List Nat} {mode : Mode} {s t : Slot}

/-- **Reaching the end of a path finds what stands there, or comes to stand there**, and leaves the
record as if that had been put there. -/
theorem reach_eq_put (name : String) (shaped : c.Shaped (.record id) d) (derived : c.Derived id)
    (leads : c.Leads id p f) (direct : f.isDirect = true) :
    ∃ x, c.reach name id p d = (.ok (f.type, x), c.put id p d x) ∧ c.Yields id p d f x := by
  induction leads generalizing d with
  | @own id i f field =>
    obtain ⟨x, here⟩ := shaped.exists_field field
    refine ⟨x, ?_, .own field here⟩
    rw [reach, direct?_eq field direct, here, put, setField_self here]
  | @within id inner i f g rest field lends behind ih =>
    obtain ⟨x, here⟩ := shaped.exists_field field
    have embeds := FieldDecl.embedded?_of_lends lends
    have fits := shaped.embedded field lends here
    have enter := enter?_eq derived field lends
    obtain ⟨y, reached, yields⟩ := ih (fits.allocate embeds) (derived.lent field lends) direct
    refine ⟨y, ?_, .within field lends here yields⟩
    rw [reach_within behind.ne_nil enter here, reached, put_within behind.ne_nil enter here]

/-- Putting twice through one path is putting once. -/
theorem put_put (shaped : c.Shaped (.record id) d) (derived : c.Derived id)
    (leads : c.Leads id p f) : c.put id p (c.put id p d x) v = c.put id p d v := by
  induction leads generalizing d with
  | own => exact setField_setField
  | @within id inner i f g rest field lends behind ih =>
    obtain ⟨y, here⟩ := shaped.exists_field field
    have embeds := FieldDecl.embedded?_of_lends lends
    have fits := shaped.embedded field lends here
    have enter := enter?_eq derived field lends
    rw [put_within behind.ne_nil enter here,
      put_within behind.ne_nil enter (getElem?_setField here),
      put_within behind.ne_nil enter here, setField_setField, allocate_holding embeds,
      ih (fits.allocate embeds) (derived.lent field lends)]

/-! ## 3. What following a path changes -/

/-- The record `r` is `d` but for the embedded records on the way to `p`, which are there, fresh
ones where they were absent, with what fresh ones bring. -/
structure Grows (c : Catalog) (id : RecordId) (p : List Nat) (d r : Datum) : Prop where
  shaped : c.Shaped (.record id) r
  opened : ∀ a g, c.Leads id a g → g.lends?.isSome = true →
    (c.Open id a r ↔ c.Open id a d ∨ a <+: p ∨ c.Brought id p d a)
  kept : ∀ q g y, (q <+: p → q = p) → c.Holds id q d g y → c.Holds id q r g y
  fresh : ∀ q g y, (q <+: p → q = p) → c.Holds id q r g y →
    c.Holds id q d g y ∨ c.Yields id q d g y ∧ ∀ z, ¬ c.Holds id q d g z

/-- Putting what stands at the end of a path, or comes to stand there, only lets the record grow. -/
theorem grows_put (shaped : c.Shaped (.record id) d) (derived : c.Derived id)
    (leads : c.Leads id p f) (direct : f.isDirect = true) (yields : c.Yields id p d f x) :
    c.Grows id p d (c.put id p d x) where
  shaped := shaped.put derived leads direct
  opened a g embedded lends := open_put shaped derived leads direct embedded lends
  kept q g y above holds := by
    by_cases le : q <+: p
    · obtain rfl := above le
      cases holds.leads.unique leads
      rw [holds.yields.unique yields]
      exact holds_put_self shaped derived leads
    · exact holds.put shaped derived leads direct le
  fresh q g y above holds := by
    have before : c.Yields id q d g y := by
      by_cases le : q <+: p
      · obtain rfl := above le
        cases holds.leads.unique leads
        rwa [holds.unique (holds_put_self shaped derived leads)]
      · exact holds.yields.of_put shaped derived leads direct le
    by_cases held : ∃ z, c.Holds id q d g z
    · obtain ⟨z, held⟩ := held
      exact .inl (before.holds held)
    · exact .inr ⟨before, fun z held' => held ⟨z, held'⟩⟩

/-- **A path finds nothing exactly where an optional embedded record on the way is absent.** -/
theorem lookup_eq_none_iff (shaped : c.Shaped (.record id) d) (derived : c.Derived id)
    (leads : c.Leads id p f) (direct : f.isDirect = true) :
    c.lookup id p d = none ↔ ∃ a g, c.Leads id a g ∧ g.lends?.isSome = true ∧
      g.type.isOptional = true ∧ a <+: p ∧ ¬ c.Open id a d := by
  rw [lookup_eq_none derived leads direct]
  constructor
  · exact exists_not_open shaped leads
  · rintro ⟨a, g, embedded, lends, -, le, absent⟩ x holds
    refine absent (holds.open_of_isPrefix embedded.ne_nil le ?_)
    rintro rfl
    rw [embedded.unique leads, FieldDecl.lends?_of_isDirect direct] at lends
    cases lends

/-- What is put through one path is seen through no path apart from it: there is what was there, or
nothing, or what came into being with a fresh record. -/
theorem lookup_put_apart (shaped : c.Shaped (.record id) d) (derived : c.Derived id)
    (leads : c.Leads id p f) (direct : f.isDirect = true) (leads' : c.Leads id q g)
    (direct' : g.isDirect = true) (apart : ¬ q <+: p) :
    (∀ found, c.lookup id q d = some found → c.lookup id q (c.put id p d v) = some found) ∧
      (c.lookup id q d = none → c.lookup id q (c.put id p d v) = none ∨
        ∃ y, c.lookup id q (c.put id p d v) = some (g.type, y) ∧ c.Yields id q d g y) := by
  refine ⟨fun found before => ?_, fun _ => ?_⟩
  · obtain ⟨same, holds⟩ := (lookup_eq_some derived leads' direct').1 before
    exact (lookup_eq_some derived leads' direct').2
      ⟨same, holds.put shaped derived leads direct apart⟩
  · cases after : c.lookup id q (c.put id p d v) with
    | none => exact .inl rfl
    | some found =>
      obtain ⟨same, holds⟩ := (lookup_eq_some derived leads' direct').1 after
      exact .inr ⟨found.2, congrArg some (Prod.ext same rfl),
        holds.yields.of_put shaped derived leads direct apart⟩

/-! ## 4. Slots -/

theorem slots_apart_of_ne (derived : c.Derived id) (hs : s ∈ (Layout.resolve c id mode).slots)
    (ht : t ∈ (Layout.resolve c id mode).slots) (ne : s ≠ t) : ¬ s.path <+: t.path := by
  have apart := List.pairwise_iff_getElem.1 (slots_apart derived mode)
  obtain ⟨i, insideS, rfl⟩ := List.getElem_of_mem hs
  obtain ⟨j, insideT, rfl⟩ := List.getElem_of_mem ht
  rcases Nat.lt_trichotomy i j with lt | rfl | lt
  · exact (apart i j insideS insideT lt).1
  · exact (ne rfl).elim
  · exact (apart j i insideT insideS lt).2

/-- Whatever a path leads through lends its fields, and is handed out where all fields are. -/
theorem Leads.lends_of_isPrefix (leads : c.Leads id p f) (derived : c.Derived id)
    (above : c.Leads id a g) (le : a <+: p) (ne : a ≠ p) :
    ∃ inner, g.lends? = some inner ∧ g.reachable = true := by
  induction leads generalizing a with
  | own =>
    cases a with
    | nil => exact (above.ne_nil rfl).elim
    | cons j a =>
      obtain ⟨rfl, short⟩ := List.cons_prefix_cons.1 le
      rw [List.prefix_nil.1 short] at ne
      exact (ne rfl).elim
  | within field lends behind ih =>
    cases above with
    | own field' =>
      obtain ⟨rfl, -⟩ := List.cons_prefix_cons.1 le
      cases field.symm.trans field'
      exact ⟨_, lends, derived.reachable field⟩
    | within field' lends' above =>
      obtain ⟨rfl, short⟩ := List.cons_prefix_cons.1 le
      cases field.symm.trans field'
      cases lends.symm.trans lends'
      exact ih (derived.lent field lends) above short fun same => ne (by rw [same])

/-- **The slots of a derived record are lawful accessors, apart from one another.**  The text of its
tag says that the field at the end is handed out, and those of the fields on the way that the
records in them are entered. -/
theorem slot_accesses (derived : c.Derived id) (shaped : c.Shaped (.record id) d)
    (hs : s ∈ (Layout.resolve c id mode).slots) :
    ∃ f x r, c.Leads id s.path f ∧
      (f.isPublic = true ∧ f.tag ≠ some "-" ∧
        ¬ (f.embed = true ∧ f.leadText = [] ∧ f.type.embedded?.isSome = true)) ∧
      (∀ a g, c.Leads id a g → a <+: s.path → a ≠ s.path →
        g.isPublic = true ∧ g.tag ≠ some "-" ∧ g.embed = true ∧ g.leadText = [] ∧
          g.type.embedded?.isSome = true) ∧
      c.reach s.name id s.path d = (.ok (f.type, x), r) ∧ c.Grows id s.path d r ∧
      (c.lookup id s.path d = none ↔ ∃ a g, c.Leads id a g ∧ g.lends?.isSome = true ∧
        g.type.isOptional = true ∧ a <+: s.path ∧ ¬ c.Open id a d) ∧
      (∀ found, c.lookup id s.path d = some found → found = (f.type, x) ∧ r = d) ∧
      c.Yields id s.path d f x ∧
      c.lookup id s.path r = some (f.type, x) ∧
      ∀ v, c.lookup id s.path (c.put id s.path r v) = some (f.type, v) ∧
        ∀ t ∈ (Layout.resolve c id mode).slots, t ≠ s → ∃ g, c.Leads id t.path g ∧
          (∀ found, c.lookup id t.path d = some found →
            c.lookup id t.path (c.put id s.path r v) = some found) ∧
          (c.lookup id t.path d = none → c.lookup id t.path (c.put id s.path r v) = none ∨
            ∃ y, c.lookup id t.path (c.put id s.path r v) = some (g.type, y) ∧
              c.Yields id t.path d g y) := by
  obtain ⟨f, leads, direct, -⟩ := slots_lead derived hs
  obtain ⟨x, reached, yields⟩ := reach_eq_put s.name shaped derived leads direct
  obtain ⟨isPublic, used, kept, -⟩ := FieldDecl.isDirect_iff.1 direct
  have seen : ∀ v, c.lookup id s.path (c.put id s.path d v) = some (f.type, v) := fun v =>
    (lookup_eq_some derived leads direct).2 ⟨rfl, holds_put_self shaped derived leads⟩
  refine ⟨f, x, c.put id s.path d x, leads, ⟨isPublic, used, kept⟩, fun a g above le ne => ?_,
    reached, grows_put shaped derived leads direct yields,
    lookup_eq_none_iff shaped derived leads direct, fun y before => ?_, yields, seen x,
    fun v => ?_⟩
  · obtain ⟨inner, lends, reachable⟩ := leads.lends_of_isPrefix derived above le ne
    obtain ⟨isPublic, used, embeds, -, held⟩ :=
      FieldDecl.entered?_eq_some_iff.1 (FieldDecl.entered?_of_lends lends reachable)
    exact ⟨isPublic, used, embeds, FieldDecl.leadText_of_lends lends, by rw [held]; rfl⟩
  · obtain ⟨same, holds⟩ := (lookup_eq_some derived leads direct).1 before
    have found := yields.holds holds
    exact ⟨Prod.ext same (holds.unique found), found.put_eq shaped derived⟩
  · rw [put_put shaped derived leads]
    refine ⟨seen v, fun t ht other => ?_⟩
    obtain ⟨g, leads', direct', -⟩ := slots_lead derived ht
    have apart := slots_apart_of_ne derived ht hs other
    exact ⟨g, leads', lookup_put_apart shaped derived leads direct leads' direct' apart⟩

/-- A record with two optional records below it, and a field that takes no part.  If `furnished`, a
fresh record of the middle holds one of the lowest. -/
def nestedCatalog (furnished : Bool) : Catalog where
  records := [
    { name := "Leaf", fields := [{ name := "leaf", type := .byte }] },
    { name := "Mid",
      fields := [{ name := "mid", type := .byte },
        { name := "lower", type := .option (.record 0), embed := true,
          initial? := bif furnished then some (.present (.record [.int 5])) else none }] },
    { name := "Deep",
      fields := [{ name := "middle", type := .option (.box (.record 1)), embed := true },
        { name := "scratch", type := .byte, tag := some "-" }] }]
  isGrounded := by cases furnished <;> decide
  isTyped := by cases furnished <;> decide

theorem slots_nested (furnished : Bool) (mode : Mode) :
    (Layout.resolve (nestedCatalog furnished) 2 mode).slots =
      [⟨"mid", [0, 0], false⟩, ⟨"leaf", [0, 1, 0], false⟩] := by
  change uniqueShallowest ((nestedCatalog furnished).candidates [2] [] 2) = _
  have leaf : (nestedCatalog furnished).candidates [0, 1, 2] [0, 1] 0 =
      [⟨"leaf", [0, 1, 0], false⟩] := by
    rw [candidates]
    rfl
  have mid : (nestedCatalog furnished).candidates [1, 2] [0] 1 =
      [⟨"mid", [0, 0], false⟩] ++
        ((nestedCatalog furnished).candidates [0, 1, 2] [0, 1] 0 ++ []) := by
    rw [candidates]
    rfl
  have all : (nestedCatalog furnished).candidates [2] [] 2 =
      (nestedCatalog furnished).candidates [1, 2] [0] 1 ++ [] := by
    rw [candidates]
    rfl
  rw [all, mid, leaf]
  rfl

/-- One without the middle record has the form of its type, -/
theorem shaped_nested (furnished : Bool) :
    (nestedCatalog furnished).Shaped (.record 2) (.record [.absent, .int 9]) :=
  (shaped_initial (nestedCatalog furnished) 2).setField (i := 1)
    (f := { name := "scratch", type := .byte, tag := some "-" }) rfl nofun

/-- Reaching a leaf brings the middle record into being, a fresh one: its own field is a zero, and
the leaf that it holds is the one that is found. -/
theorem slot_accesses_leaf :
    let c := nestedCatalog true
    let d : Datum := .record [.absent, .int 9]
    let leaf : Slot := ⟨"leaf", [0, 1, 0], false⟩
    c.Derived 2 ∧ c.Shaped (.record 2) d ∧ leaf ∈ (Layout.resolve c 2 .named).slots ∧
      c.lookup 2 leaf.path d = none ∧
      ∃ r, c.reach leaf.name 2 leaf.path d = (.ok (.byte, .int 5), r) ∧ c.Grows 2 leaf.path d r ∧
        r = .record [.present (.record [.int 0, .present (.record [.int 5])]), .int 9] := by
  intro c d leaf
  have derived : c.Derived 2 := .of_all rfl
  have shaped : c.Shaped (.record 2) d := shaped_nested true
  have mem : leaf ∈ (Layout.resolve c 2 .named).slots := by simp [c, slots_nested, leaf]
  obtain ⟨f, x, r, -, -, -, reached, grows, -⟩ := slot_accesses derived shaped mem
  have none' : c.lookup 2 leaf.path d = none := rfl
  have made : c.reach leaf.name 2 leaf.path d = (.ok (.byte, .int 5),
      .record [.present (.record [.int 0, .present (.record [.int 5])]), .int 9]) := rfl
  rw [made] at reached
  obtain ⟨-, rfl⟩ := Prod.mk.inj reached
  exact ⟨derived, shaped, mem, none', _, made, grows, rfl⟩

end Catalog

end MessagePack
