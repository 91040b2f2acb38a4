import MessagePack.Proofs.Record.Resolution
import Mathlib.Data.List.Nodup
import Mathlib.Data.List.Perm.Subperm
/-!
# The search through embedded records

Embedded records form a directed graph, in which a record may lead back to itself and two ways may
lead to one record.  The search for candidates descends that graph.  All that keeps it from going
round is the stack of records that are being visited: a record is put on it before its fields are
listed and taken off it afterwards, and one that stands on it is not entered.

`searchWithin` is that search step by step, with the stack that it carries along and with a limit to
the calls that may be nested; it gives up where the limit is exceeded.  On any declarations it does
not, with one call more than there are records, and it leaves the stack as it was.  Declarations
need not be grounded for this: what a record holds directly it may even hold in a circle.

A `Route` is a way through the graph that enters no record twice and ends at a field.  Every route
gives one candidate, and there are no others.

Main statements: `Catalog.searchWithin_eq`, `Catalog.isCandidate_iff` and `search_ends`.
-/

namespace MessagePack

/-! ## 1. What the search sees -/

/-- What the search sees of a field. -/
structure Outline where
  wireName : String
  omitEmpty : Bool
  isVisible : Bool
  promoted? : Option RecordId

/-- What the search sees of a field. -/
def FieldDecl.outline (f : FieldDecl) : Outline :=
  ⟨f.wireName, f.fieldTag.omitEmpty, f.isVisible, f.promoted?⟩

/-- The fields of a declared record; a record that is not declared has none. -/
def fieldsOf (records : List RecordDecl) (id : RecordId) : List FieldDecl :=
  ((records[id]?).getD default).fields

/-- What the search sees of each record. -/
def outlines (records : List RecordDecl) (id : RecordId) : List Outline :=
  (fieldsOf records id).map (·.outline)

/-- The field with its record held behind an option, and nothing declared for fresh ones. -/
def FieldDecl.optional (f : FieldDecl) : FieldDecl :=
  { f with
    initial? := none
    type :=
      match f.type.embedded? with
      | some inner => .option (.record inner)
      | none => .bool }

/-- An optional field has the outline of the field. -/
theorem FieldDecl.outline_optional (f : FieldDecl) : f.optional.outline = f.outline := by
  have embeds : f.optional.type.embedded? = f.type.embedded? := by
    unfold optional
    cases f.type.embedded? <;> rfl
  have promoted : f.optional.promoted? = f.promoted? := by
    unfold promoted?
    rw [embeds]
    rfl
  unfold outline
  rw [promoted]
  rfl

/-- It holds no record directly. -/
theorem FieldDecl.heldRecords_optional (f : FieldDecl) : f.optional.type.heldRecords = [] := by
  unfold optional
  cases f.type.embedded? <;> rfl

/-- **Every graph of embedded records is that of a catalog**, in which no record holds another
directly. -/
theorem exists_catalog (records : List RecordDecl) : ∃ c : Catalog,
    c.records.length = records.length ∧ outlines c.records = outlines records := by
  let loose := records.map fun r => { r with fields := r.fields.map FieldDecl.optional }
  -- an optional field is absent when fresh, so any list of records can be made a catalog
  have grounded : grounded loose = true := by
    simp only [MessagePack.grounded, List.all_eq_true, decide_eq_true_eq]
    rintro ⟨r, i⟩ place f field inner held
    have mem : r ∈ loose := List.mem_of_getElem? (List.mem_zipIdx_iff_getElem?.1 place)
    obtain ⟨r, -, rfl⟩ := List.mem_map.1 mem
    obtain ⟨f, -, rfl⟩ := List.mem_map.1 field
    rw [f.heldRecords_optional] at held
    cases held
  have typed : typed loose = true := by
    simp only [MessagePack.typed, List.all_eq_true]
    intro r mem f field
    obtain ⟨r, -, rfl⟩ := List.mem_map.1 mem
    obtain ⟨f, -, rfl⟩ := List.mem_map.1 field
    rfl
  refine ⟨⟨loose, grounded, typed⟩, List.length_map _, funext fun id => ?_⟩
  unfold outlines fieldsOf
  rw [List.getElem?_map]
  cases records[id]? with
  | none => rfl
  | some r =>
    change (r.fields.map FieldDecl.optional).map (·.outline) = r.fields.map (·.outline)
    rw [List.map_map]
    exact List.map_congr_left fun f _ => f.outline_optional

/-! ## 2. The search step by step -/

/-- How far the search has come with the fields of one record: the candidates among them, those that
embedded records lend, and the records being visited. -/
structure Progress where
  own : List Slot
  lent : List Slot
  visiting : List RecordId

/-- Goes on to the next field of the record at `pre`.  An embedded record is put on the stack, its
fields are listed by `call`, and it is taken off. -/
def Progress.visit (call : List RecordId → List Nat → RecordId → Option (List Slot × List RecordId))
    (pre : List Nat) (p : Progress) (field : Outline × Nat) : Option Progress :=
  let (f, i) := field
  if f.isVisible then
    match f.promoted? with
    | none => some { p with own := p.own ++ [⟨f.wireName, pre ++ [i], f.omitEmpty⟩] }
    | some inner =>
      if p.visiting.contains inner then some p
      else do
        let (found, visiting) ← call (inner :: p.visiting) (pre ++ [i]) inner
        return { p with lent := p.lent ++ found, visiting := visiting.tail }
  else some p

/-- Lists the candidates of the record `id`, which stands at `pre`, and gives back the stack;
nothing if more than `calls` calls would have to be nested. -/
def searchWithin (records : List RecordDecl) :
    Nat → List RecordId → List Nat → RecordId → Option (List Slot × List RecordId)
  | 0, _, _, _ => none
  | calls + 1, visiting, pre, id => do
    let p ← (outlines records id).zipIdx.foldlM (Progress.visit (searchWithin records calls) pre)
      ⟨[], [], visiting⟩
    return (p.own ++ p.lent, p.visiting)

namespace Catalog

variable {c : Catalog} {records : List RecordDecl} {visiting : List RecordId} {pre : List Nat}
  {id root : RecordId}

theorem fieldsOf_eq_nil (undeclared : records.length ≤ id) : fieldsOf records id = [] := by
  unfold fieldsOf
  rw [List.getElem?_eq_none undeclared]
  rfl

/-- A record that is not declared lists nothing. -/
theorem searchWithin_undeclared (undeclared : records.length ≤ id) (calls : Nat) :
    searchWithin records (calls + 1) visiting pre id = some ([], visiting) := by
  rw [searchWithin, outlines, fieldsOf_eq_nil undeclared]
  rfl

/-- A record that is not declared has no candidates. -/
theorem candidates_undeclared (undeclared : c.records.length ≤ id) :
    c.candidates visiting pre id = [] := by
  rw [candidates_eq, ownCandidates, fields_eq_nil undeclared]
  rfl

theorem unvisited_le (c : Catalog) (visited : List RecordId) :
    c.unvisited visited ≤ c.records.length :=
  Nat.le_trans List.countP_le_length (Nat.le_of_eq List.length_range)

/-- The candidate that a field is by itself, if it is one. -/
def ownSlot? (pre : List Nat) (f : FieldDecl) (i : Nat) : Option Slot :=
  if f.isVisible && f.promoted?.isNone then some ⟨f.wireName, pre ++ [i], f.fieldTag.omitEmpty⟩
  else none

/-- The next field adds what it is or what it lends, and leaves the stack as it was. -/
theorem visit_eq {call : List RecordId → List Nat → RecordId → Option (List Slot × List RecordId)}
    (calls : ∀ i inner, inner ∉ visiting → call (inner :: visiting) (pre ++ [i]) inner =
      some (c.candidates (inner :: visiting) (pre ++ [i]) inner, inner :: visiting))
    (own lent : List Slot) (f : FieldDecl) (i : Nat) :
    Progress.visit call pre ⟨own, lent, visiting⟩ (f.outline, i) =
      some ⟨own ++ (ownSlot? pre f i).toList, lent ++ c.lentBy visiting pre f i, visiting⟩ := by
  unfold Progress.visit ownSlot? lentBy FieldDecl.outline
  dsimp only
  cases visible : f.isVisible with
  | false => simp
  | true =>
    cases promoted : f.promoted? with
    | none => simp
    | some inner =>
      by_cases on : inner ∈ visiting
      · simp [on]
      · rcases Nat.lt_or_ge inner c.records.length with declared | undeclared
        · simp [on, declared, calls i inner on]
        · simp [on, Nat.not_lt_of_le undeclared, calls i inner on,
            candidates_undeclared undeclared]

/-- All fields, one after another. -/
theorem foldlM_visit
    {call : List RecordId → List Nat → RecordId → Option (List Slot × List RecordId)}
    (calls : ∀ i inner, inner ∉ visiting → call (inner :: visiting) (pre ++ [i]) inner =
      some (c.candidates (inner :: visiting) (pre ++ [i]) inner, inner :: visiting))
    (fields : List (FieldDecl × Nat)) (own lent : List Slot) :
    (fields.map fun e => (e.1.outline, e.2)).foldlM (Progress.visit call pre)
        ⟨own, lent, visiting⟩ =
      some ⟨own ++ fields.filterMap fun (f, i) => ownSlot? pre f i,
        lent ++ fields.flatMap fun (f, i) => c.lentBy visiting pre f i, visiting⟩ := by
  induction fields generalizing own lent with
  | nil => simp
  | cons field fields ih =>
    obtain ⟨f, i⟩ := field
    rw [List.map_cons, List.foldlM_cons, visit_eq calls]
    refine (ih _ _).trans ?_
    cases here : ownSlot? pre f i <;> simp [here]

/-- **The search ends**: it lists the candidates and leaves the stack as it was, if it may nest two
calls more than there are records off the stack. -/
theorem searchWithin_eq (depicts : outlines c.records = outlines records) (calls : Nat)
    (visiting : List RecordId) (pre : List Nat) (id : RecordId)
    (enough : c.unvisited visiting + 1 < calls) :
    searchWithin records calls visiting pre id = some (c.candidates visiting pre id, visiting) := by
  induction calls generalizing visiting pre id with
  | zero => omega
  | succ calls ih =>
    have nested : ∀ i inner, inner ∉ visiting →
        searchWithin records calls (inner :: visiting) (pre ++ [i]) inner =
          some (c.candidates (inner :: visiting) (pre ++ [i]) inner, inner :: visiting) := by
      intro i inner new
      rcases Nat.lt_or_ge inner c.records.length with declared | undeclared
      · have fewer : c.unvisited (inner :: visiting) < c.unvisited visiting :=
          unvisited_lt declared (by simpa using new)
        exact ih (inner :: visiting) (pre ++ [i]) inner (by omega)
      · obtain ⟨calls, rfl⟩ : ∃ k, calls = k + 1 := ⟨calls - 1, by omega⟩
        rw [candidates_undeclared undeclared, searchWithin, ← depicts, outlines,
          fieldsOf_eq_nil undeclared]
        rfl
    have fields : (outlines records id).zipIdx =
        (c.decl id).fields.zipIdx.map fun e => (e.1.outline, e.2) := by
      rw [← depicts]
      exact List.zipIdx_map
    rw [searchWithin, fields, foldlM_visit nested, candidates_eq]
    rfl

end Catalog

/-! ## 3. Routes -/

/-- A way from a record through visible fields that lend it the fields of the record they hold.
Each step is the place of such a field and that record. -/
inductive Walk (records : List RecordDecl) : RecordId → List (Nat × RecordId) → RecordId → Prop
  | here {id : RecordId} : Walk records id [] id
  | enter {id inner last : RecordId} {i : Nat} {f : FieldDecl} {steps : List (Nat × RecordId)} :
      (fieldsOf records id)[i]? = some f → f.isVisible = true → f.promoted? = some inner →
        Walk records inner steps last → Walk records id ((i, inner) :: steps) last

/-- A way to a field: the steps to the last record and, there, the place of the field. -/
structure Route where
  steps : List (Nat × RecordId)
  last : RecordId
  place : Nat
  field : FieldDecl

namespace Route

/-- The records that are entered on the way. -/
def entered (r : Route) : List RecordId := r.steps.map Prod.snd

/-- The candidate at the end of the way: the name of the field and the places on the way to it. -/
def slot (r : Route) : Slot :=
  ⟨r.field.wireName, r.steps.map Prod.fst ++ [r.place], r.field.fieldTag.omitEmpty⟩

/-- The route starts at `root`, enters no record that it has been in, the root included, and ends at
a visible field that lends nothing. -/
structure From (records : List RecordDecl) (root : RecordId) (r : Route) : Prop where
  walk : Walk records root r.steps r.last
  apart : (root :: r.entered).Nodup
  ends : (fieldsOf records r.last)[r.place]? = some r.field
  visible : r.field.isVisible = true
  direct : r.field.promoted? = none

end Route

section Walks

variable {records : List RecordDecl} {id root last last' : RecordId}
  {steps steps' : List (Nat × RecordId)} {i i' : Nat} {f : FieldDecl} {r r' : Route}

theorem declared_of_field (field : (fieldsOf records id)[i]? = some f) : id < records.length := by
  refine Decidable.byContradiction fun undeclared => ?_
  rw [Catalog.fieldsOf_eq_nil (Nat.le_of_not_lt undeclared)] at field
  cases field

/-- The places on the way to a field tell the whole way. -/
theorem Walk.unique (walk : Walk records id steps last) (walk' : Walk records id steps' last')
    (places : steps.map Prod.fst ++ [i] = steps'.map Prod.fst ++ [i']) :
    steps = steps' ∧ last = last' ∧ i = i' := by
  obtain ⟨same, alike⟩ := List.append_inj' places rfl
  obtain rfl : i = i' := List.singleton_inj.1 alike
  clear places alike
  induction walk generalizing steps' with
  | here =>
    cases walk' with
    | here => exact ⟨rfl, rfl, rfl⟩
    | enter => cases same
  | enter field _ promoted _ ih =>
    cases walk' with
    | here => cases same
    | enter field' _ promoted' walk' =>
      obtain ⟨rfl, rest⟩ := List.cons_eq_cons.1 same
      cases field.symm.trans field'
      cases promoted.symm.trans promoted'
      obtain ⟨rfl, rfl, -⟩ := ih walk' rest
      exact ⟨rfl, rfl, rfl⟩

/-- On the way to a field all records are declared. -/
theorem Walk.declared (walk : Walk records id steps last)
    (ends : (fieldsOf records last)[i]? = some f) :
    ∀ x ∈ id :: steps.map Prod.snd, x < records.length := by
  induction walk with
  | here => exact List.forall_mem_singleton.2 (declared_of_field ends)
  | enter field _ _ _ ih => exact List.forall_mem_cons.2 ⟨declared_of_field field, ih ends⟩

namespace Route.From

/-- **Different routes have different paths.** -/
theorem eq_of_path (hr : r.From records root) (hr' : r'.From records root)
    (same : r.slot.path = r'.slot.path) : r = r' := by
  obtain ⟨steps, last, place, field⟩ := r
  obtain ⟨steps', last', place', field'⟩ := r'
  obtain ⟨rfl, rfl, rfl⟩ := hr.walk.unique hr'.walk same
  cases hr.ends.symm.trans hr'.ends
  rfl

/-- A route is no longer than there are records. -/
theorem length_le (hr : r.From records root) : r.slot.path.length ≤ records.length := by
  have within : root :: r.entered ⊆ List.range records.length := fun x mem =>
    List.mem_range.2 (hr.walk.declared hr.ends x mem)
  have length := (hr.apart.subperm within).length_le
  simpa [slot, entered] using length

end Route.From

namespace Catalog

variable {c : Catalog} {visited : List RecordId} {s : Slot}

/-- **The candidates are the ends of the routes** that avoid what was visited before. -/
theorem isCandidate_iff (on : id ∈ visited) :
    c.IsCandidate visited id s ↔
      ∃ r : Route, r.From c.records id ∧ (∀ x ∈ r.entered, x ∉ visited) ∧ r.slot = s := by
  constructor
  · intro candidate
    induction candidate with
    | @own visited id i f field visible direct =>
      refine ⟨⟨[], id, i, f⟩, ⟨.here, ?_, field, visible, direct⟩, ?_, rfl⟩
      · exact List.nodup_singleton id
      · exact List.forall_mem_nil _
    | @lent visited id inner i f s field visible promoted new _ ih =>
      obtain ⟨r, ⟨walk, apart, ends, shown, direct⟩, avoids, rfl⟩ := ih List.mem_cons_self
      -- the record that lends has not been visited, and what it lends avoids it in turn
      have avoids : ∀ x ∈ inner :: r.entered, x ∉ visited := List.forall_mem_cons.2
        ⟨new, fun x mem back => avoids x mem (List.mem_cons_of_mem _ back)⟩
      refine ⟨{ r with steps := (i, inner) :: r.steps }, ⟨.enter field visible promoted walk, ?_,
        ends, shown, direct⟩, avoids, rfl⟩
      exact List.nodup_cons.2 ⟨fun mem => avoids id mem on, apart⟩
  · rintro ⟨⟨steps, last, i, f⟩, ⟨walk, apart, ends, visible, direct⟩, avoids, rfl⟩
    change Walk c.records id steps last at walk
    change (id :: steps.map Prod.snd).Nodup at apart
    change ∀ x ∈ steps.map Prod.snd, x ∉ visited at avoids
    induction walk generalizing visited with
    | here => exact .own ends visible direct
    | @enter id inner last j g steps field visible' promoted walk ih =>
      obtain ⟨new, avoids⟩ := List.forall_mem_cons.1 avoids
      obtain ⟨once, apart⟩ := List.nodup_cons.1 (List.nodup_cons.1 apart).2
      refine .lent field visible' promoted new
        (ih List.mem_cons_self ends visible direct (List.nodup_cons.2 ⟨once, apart⟩) ?_)
      intro x mem back
      rcases List.mem_cons.1 back with rfl | back
      · exact once mem
      · exact avoids x mem back

end Catalog

/-! ## 4. The search finds the ends of the routes -/

theorem exists_field {records' : List RecordDecl} (same : outlines records = outlines records')
    (field : (fieldsOf records id)[i]? = some f) :
    ∃ f', (fieldsOf records' id)[i]? = some f' ∧ f'.outline = f.outline := by
  have seen : (outlines records' id)[i]? = some f.outline := by
    rw [← same, outlines, List.getElem?_map, field]
    rfl
  rw [outlines, List.getElem?_map] at seen
  exact Option.map_eq_some_iff.1 seen

/-- Only what the search sees of the records decides the ways through them. -/
theorem Walk.of_outlines {records' : List RecordDecl} (same : outlines records = outlines records')
    (walk : Walk records id steps last) : Walk records' id steps last := by
  induction walk with
  | here => exact .here
  | enter field visible promoted _ ih =>
    obtain ⟨f', field', alike⟩ := exists_field same field
    exact .enter field' ((congrArg Outline.isVisible alike).trans visible)
      ((congrArg Outline.promoted? alike).trans promoted) ih

/-- Walks go on where others end. -/
theorem Walk.append {middle : RecordId} (walk : Walk records id steps middle)
    (walk' : Walk records middle steps' last) : Walk records id (steps ++ steps') last := by
  induction walk with
  | here => exact walk'
  | enter field visible promoted _ ih => exact .enter field visible promoted (ih walk')

namespace Route

/-- A route is a matter of outlines. -/
theorem From.of_outlines {records' : List RecordDecl} (same : outlines records = outlines records')
    (h : r.From records root) : ∃ r' : Route, r'.From records' root ∧ r'.slot = r.slot := by
  obtain ⟨f', field', alike⟩ := exists_field same h.ends
  refine ⟨{ r with field := f' }, ?_, ?_⟩
  · exact ⟨h.walk.of_outlines same, h.apart, field',
      (congrArg Outline.isVisible alike).trans h.visible,
      (congrArg Outline.promoted? alike).trans h.direct⟩
  · have name : f'.wireName = r.field.wireName := congrArg Outline.wireName alike
    have tag : f'.fieldTag.omitEmpty = r.field.fieldTag.omitEmpty :=
      congrArg Outline.omitEmpty alike
    simp only [slot, name, tag]

/-- The route, with a way to its start before it. -/
def behind (r : Route) (steps : List (Nat × RecordId)) : Route :=
  { r with steps := steps ++ r.steps }

theorem From.behind {shared : RecordId} (walk : Walk records root steps shared)
    (h : r.From records shared) (apart : (root :: (r.behind steps).entered).Nodup) :
    (r.behind steps).From records root :=
  ⟨walk.append h.walk, apart, h.ends, h.visible, h.direct⟩

end Route

/-- What it is to search well from `root`: to find the ends of the routes, each of them once. -/
structure Finds (records : List RecordDecl) (root : RecordId) (found : List Slot) : Prop where
  /-- Every route gives a candidate. -/
  each : ∀ r : Route, r.From records root → r.slot ∈ found
  /-- There are no other candidates. -/
  only : ∀ s ∈ found, ∃ r : Route, r.From records root ∧ r.slot = s
  /-- No path is listed twice. -/
  once : (found.map (·.path)).Nodup
  /-- Different routes have different paths. -/
  distinct : ∀ r r' : Route, r.From records root → r'.From records root →
    r.slot.path = r'.slot.path → r = r'
  /-- A record is expanded on every way that leads to it. -/
  shared : ∀ shared steps, Walk records root steps shared → ∀ r : Route, r.From records shared →
    (root :: (r.behind steps).entered).Nodup → (r.behind steps).slot ∈ found
  /-- No path is longer than there are records. -/
  short : ∀ s ∈ found, s.path.length ≤ records.length

theorem Finds.of_iff {found : List Slot} (ordered : (found.map (·.path)).Nodup)
    (ends : ∀ s, s ∈ found ↔ ∃ r : Route, r.From records root ∧ r.slot = s) :
    Finds records root found where
  each r h := (ends r.slot).2 ⟨r, h, rfl⟩
  only s mem := (ends s).1 mem
  once := ordered
  distinct _ _ h h' same := h.eq_of_path h' same
  shared _ _ walk r h apart := (ends _).2 ⟨_, h.behind walk apart, rfl⟩
  short s mem := by
    obtain ⟨r, h, rfl⟩ := (ends s).1 mem
    exact h.length_le

/-- The candidates are what the routes lead to, each once, in order. -/
theorem Catalog.finds_candidates {c : Catalog} (depicts : outlines c.records = outlines records) :
    Finds records root (c.candidates [root] [] root) := by
  refine .of_iff ?_ fun s => ?_
  · refine List.pairwise_map.2 ((c.candidates_ordered [root] [] root).imp fun before same => ?_)
    exact Precedes.irrefl _ (same ▸ before)
  · rw [mem_candidates]
    constructor
    · rintro ⟨t, candidate, rfl⟩
      obtain ⟨r, h, -, rfl⟩ := (isCandidate_iff List.mem_cons_self).1 candidate
      exact h.of_outlines depicts
    · rintro ⟨r, h, rfl⟩
      obtain ⟨r', h', same⟩ := h.of_outlines depicts.symm
      refine ⟨r.slot, (isCandidate_iff List.mem_cons_self).2 ⟨r', h', ?_, same⟩, rfl⟩
      rintro x mem back
      obtain rfl := List.mem_singleton.1 back
      exact (List.nodup_cons.1 h'.apart).1 mem

/-- **The search ends on every graph of embedded records**, at whichever record it starts.  It nests
no more calls than there are records and one more, and takes off the stack what it put on it.  It
finds the end of every route once and nothing else.  A catalog with this graph finds the same. -/
theorem search_ends (records : List RecordDecl) (root : RecordId) :
    ∃ found, Finds records root found ∧
      (∀ calls, records.length < calls →
        searchWithin records calls [root] [] root = some (found, [root])) ∧
      (∃ c : Catalog, outlines c.records = outlines records) ∧
      ∀ c : Catalog, outlines c.records = outlines records →
        c.candidates [root] [] root = found := by
  obtain ⟨c, length, depicts⟩ := exists_catalog records
  -- a call more than there are records is enough, for each visits one that none before it did
  have searched : ∀ calls, records.length < calls →
      searchWithin records calls [root] [] root = some (c.candidates [root] [] root, [root]) := by
    intro calls enough
    rcases Nat.lt_or_ge root c.records.length with declared | undeclared
    · have fewer : c.unvisited [root] < c.unvisited [] := Catalog.unvisited_lt declared rfl
      have most := c.unvisited_le []
      exact Catalog.searchWithin_eq depicts calls [root] [] root (by omega)
    · obtain ⟨calls, rfl⟩ : ∃ k, calls = k + 1 := ⟨calls - 1, by omega⟩
      rw [Catalog.candidates_undeclared undeclared]
      exact Catalog.searchWithin_undeclared (length ▸ undeclared) calls
  refine ⟨_, Catalog.finds_candidates depicts, searched, ⟨c, depicts⟩, fun c' depicts' => ?_⟩
  -- the two catalogs may declare different numbers of records without fields
  have most := c'.unvisited_le [root]
  have same := Catalog.searchWithin_eq depicts' (records.length + c'.records.length + 2) [root] []
    root (by omega)
  rw [searched _ (by omega)] at same
  exact (Prod.mk.inj (Option.some.inj same)).1.symm

/-- Two ways lead to the last record, which leads back to the first. -/
example :
    let link (name : String) (id : RecordId) : FieldDecl :=
      { name, embed := true, type := .option (.record id) }
    let records : List RecordDecl := [
      { name := "Top", fields := [link "left" 1, link "right" 2] },
      { name := "Left", fields := [link "down" 3] },
      { name := "Right", fields := [link "down" 3] },
      { name := "Bottom", fields := [link "back" 0, { name := "leaf", type := .bool }] }]
    searchWithin records 5 [0] [] 0 =
      some ([⟨"leaf", [0, 0, 1], false⟩, ⟨"leaf", [1, 0, 1], false⟩], [0]) := by decide

end Walks

end MessagePack
