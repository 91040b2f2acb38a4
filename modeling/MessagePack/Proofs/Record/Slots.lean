import MessagePack.Proofs.Record.Places
/-!
# Slots of a layout

Every slot that resolving a derived record gives leads to a field that the record hands out, and
bears its wire name.  No two slots of a layout bear one name, so that no two lead to one field, and
a slot is found by its name.

Main statements: `Catalog.slots_lead`, `Catalog.slots_apart` and `Layout.position_resolve`.
-/

namespace MessagePack

/-! ## 1. The shallowest of each name -/

namespace Shallowest

/-- The least of these depths, and how often it is among them. -/
structure Sums (s : Shallowest) (depths : List Nat) : Prop where
  least : ∀ d ∈ depths, s.depth ≤ d
  count : depths.count s.depth = s.count

variable {s : Shallowest} {depths : List Nat}

/-- One depth sums to itself. -/
theorem sums_singleton (d : Nat) : Sums ⟨d, 1⟩ [d] :=
  ⟨fun _ he => Nat.le_of_eq (List.mem_singleton.1 he).symm, List.count_singleton_self⟩

/-- One more depth is taken into account. -/
theorem Sums.note (sums : s.Sums depths) (d : Nat) : (s.note d).Sums (depths ++ [d]) := by
  unfold Shallowest.note
  rcases Nat.lt_trichotomy d s.depth with above | among | below
  · rw [if_pos above]
    refine ⟨fun e he => ?_, ?_⟩
    · rcases List.mem_append.1 he with old | new
      · exact Nat.le_of_lt (Nat.lt_of_lt_of_le above (sums.least e old))
      · exact Nat.le_of_eq (List.mem_singleton.1 new).symm
    · have fresh : d ∉ depths := fun old => Nat.not_lt_of_le (sums.least d old) above
      rw [List.count_append, List.count_eq_zero.2 fresh, List.count_singleton_self, Nat.zero_add]
  · rw [if_neg (Nat.not_lt_of_le (Nat.le_of_eq among.symm)), if_pos among]
    refine ⟨fun e he => ?_, ?_⟩
    · rcases List.mem_append.1 he with old | new
      · exact sums.least e old
      · exact Nat.le_of_eq (among.symm.trans (List.mem_singleton.1 new).symm)
    · rw [List.count_append, sums.count, among, List.count_singleton_self]
  · rw [if_neg (Nat.lt_asymm below), if_neg (Nat.ne_of_gt below)]
    refine ⟨fun e he => ?_, ?_⟩
    · rcases List.mem_append.1 he with old | new
      · exact sums.least e old
      · rw [List.mem_singleton.1 new]
        exact Nat.le_of_lt below
    · have other : s.depth ∉ [d] := fun h => Nat.ne_of_lt below (List.mem_singleton.1 h)
      rw [List.count_append, sums.count, List.count_eq_zero.2 other, Nat.add_zero]

end Shallowest

theorem lookup_tally_self (name : String) (depth : Nat) (table : List (String × Shallowest)) :
    (tally name depth table).lookup name =
      some (((table.lookup name).map fun s => s.note depth).getD ⟨depth, 1⟩) := by
  induction table with
  | nil => simp [tally]
  | cons e rest ih =>
    obtain ⟨n, s⟩ := e
    by_cases same : n = name
    · subst same
      rw [tally, if_pos rfl]
      simp
    · rw [tally, if_neg same, List.lookup_cons, List.lookup_cons,
        beq_eq_false_iff_ne.2 fun e => same e.symm]
      exact ih

theorem lookup_tally_ne {name other : String} (ne : other ≠ name) (depth : Nat)
    (table : List (String × Shallowest)) :
    (tally name depth table).lookup other = table.lookup other := by
  induction table with
  | nil => simp [tally, List.lookup_cons, beq_eq_false_iff_ne.2 ne]
  | cons e rest ih =>
    obtain ⟨n, s⟩ := e
    by_cases same : n = name
    · subst same
      rw [tally, if_pos rfl, List.lookup_cons, List.lookup_cons, beq_eq_false_iff_ne.2 ne]
    · rw [tally, if_neg same, List.lookup_cons, List.lookup_cons, ih]

/-- How deep the slots of a name lie. -/
def depthsOf (name : String) (slots : List Slot) : List Nat :=
  (slots.filter fun s => s.name == name).map fun s => s.path.length

theorem depthsOf_concat_self (s : Slot) (slots : List Slot) :
    depthsOf s.name (slots ++ [s]) = depthsOf s.name slots ++ [s.path.length] := by
  simp [depthsOf]

theorem depthsOf_concat_ne {name : String} {s : Slot} (ne : s.name ≠ name) (slots : List Slot) :
    depthsOf name (slots ++ [s]) = depthsOf name slots := by
  simp [depthsOf, ne]

/-- A table has of each name the least depth of its slots and how many lie there. -/
def Tallies (table : List (String × Shallowest)) (slots : List Slot) : Prop :=
  ∀ name, (table.lookup name = none ∧ depthsOf name slots = []) ∨
    ∃ s, table.lookup name = some s ∧ s.Sums (depthsOf name slots)

/-- A tally that is right is right with one slot more. -/
theorem Tallies.note {table : List (String × Shallowest)} {slots : List Slot}
    (tallies : Tallies table slots) (s : Slot) :
    Tallies (tally s.name s.path.length table) (slots ++ [s]) := by
  intro name
  by_cases same : s.name = name
  · subst same
    rw [lookup_tally_self, depthsOf_concat_self]
    rcases tallies s.name with ⟨missing, nil⟩ | ⟨old, found, sums⟩
    · rw [missing, nil]
      exact .inr ⟨_, rfl, Shallowest.sums_singleton s.path.length⟩
    · rw [found]
      exact .inr ⟨_, rfl, sums.note s.path.length⟩
  · rw [lookup_tally_ne fun e => same e.symm, depthsOf_concat_ne same]
    exact tallies name

/-- And so with any number. -/
theorem Tallies.foldl {table : List (String × Shallowest)} {done : List Slot}
    (tallies : Tallies table done) (slots : List Slot) :
    Tallies (slots.foldl (fun t s => tally s.name s.path.length t) table) (done ++ slots) := by
  induction slots generalizing table done with
  | nil => rwa [List.append_nil]
  | cons s rest ih =>
    have next := ih (tallies.note s)
    rwa [List.append_assoc] at next

/-- **Of the slots that remain no two bear one name.** -/
theorem uniqueShallowest_pairwise (candidates : List Slot) :
    (uniqueShallowest candidates).Pairwise fun s t => s.name ≠ t.name := by
  have start : Tallies [] [] := fun name => .inl ⟨rfl, rfl⟩
  have tallies : Tallies (candidates.foldl (fun t s => tally s.name s.path.length t) [])
      candidates := start.foldl candidates
  unfold uniqueShallowest
  generalize candidates.foldl (fun t s => tally s.name s.path.length t) [] = table at tallies
  rw [List.pairwise_iff_forall_sublist]
  intro s t pair same
  have kept : ∀ u ∈ [s, t], table.lookup u.name = some ⟨u.path.length, 1⟩ := fun u hu => by
    simpa using (List.mem_filter.1 (pair.subset hu)).2
  have left := kept s (by simp)
  have right := kept t (by simp)
  rw [← same, left] at right
  have level : s.path.length = t.path.length := by simpa using right
  rcases tallies s.name with ⟨missing, -⟩ | ⟨found, known, sums⟩
  · rw [left] at missing
    cases missing
  · rw [left] at known
    cases known
    -- both lie at the least depth, where only one may lie
    have both : (depthsOf s.name [s, t]).Sublist (depthsOf s.name candidates) :=
      ((pair.trans List.filter_sublist).filter _).map _
    have two := both.count_le s.path.length
    rw [sums.count] at two
    simp [depthsOf, same, level] at two

/-! ## 2. Slots lead to fields -/

namespace Catalog

variable {c : Catalog} {id : RecordId} {pre path : List Nat} {s t : Slot}

/-- A slot of the record `id` whose path goes on from `pre` to a field of its name. -/
def SlotLeads (c : Catalog) (id : RecordId) (pre : List Nat) (s : Slot) : Prop :=
  ∃ rest f, s.path = pre ++ rest ∧ c.Leads id rest f ∧ f.isDirect = true ∧ s.name = f.wireName

/-- A record's own candidates lead to its fields. -/
theorem ownCandidates_lead (derived : c.Derived id) :
    ∀ s ∈ c.ownCandidates pre id, c.SlotLeads id pre s := by
  intro s hs
  obtain ⟨⟨f, i⟩, place, made⟩ := List.mem_filterMap.1 hs
  have field : c.field? id i = some f := List.mem_zipIdx_iff_getElem?.1 place
  dsimp only at made
  split at made
  · rename_i own
    cases made
    refine ⟨[i], f, rfl, .own field, ?_, rfl⟩
    rw [FieldDecl.isDirect, own, derived.reachable field]
    rfl
  · cases made

/-- **Every candidate leads to a field that is handed out.** -/
theorem candidates_lead (derived : c.Derived id) :
    ∀ s ∈ c.candidates path pre id, c.SlotLeads id pre s := by
  induction path, pre, id using Catalog.candidates.induct c with
  | case1 path pre id ih =>
    intro s hs
    rw [candidates] at hs
    rcases List.mem_append.1 hs with own | lent
    · exact ownCandidates_lead derived s own
    · obtain ⟨⟨f, i⟩, place, below⟩ := List.mem_flatMap.1 lent
      have field : c.field? id i = some f := List.mem_zipIdx_iff_getElem?.1 place
      dsimp only at below
      split at below
      · rename_i visible
        split at below
        · rename_i inner promoted
          split at below
          · rename_i new
            have lends := FieldDecl.lends?_eq_some.2 ⟨visible, promoted⟩
            obtain ⟨rest, g, e, leads, direct, named⟩ :=
              ih i inner new (derived.lent field lends) s below
            refine ⟨i :: rest, g, ?_, .within field lends leads, direct, named⟩
            rw [e, List.append_assoc]
            rfl
          · cases below
        · cases below
      · cases below

theorem mem_uniqueShallowest {candidates : List Slot} (h : s ∈ uniqueShallowest candidates) :
    s ∈ candidates := (List.mem_filter.1 h).1

variable {mode : Mode}

/-- **Every slot leads to a field of its name that is handed out.** -/
theorem slots_lead (derived : c.Derived id) (h : s ∈ (Layout.resolve c id mode).slots) :
    ∃ f, c.Leads id s.path f ∧ f.isDirect = true ∧ s.name = f.wireName := by
  obtain ⟨rest, f, e, leads, direct, named⟩ := candidates_lead derived s (mem_uniqueShallowest h)
  rw [List.nil_append] at e
  exact ⟨f, e ▸ leads, direct, named⟩

theorem slots_pairwise (c : Catalog) (id : RecordId) (mode : Mode) :
    (Layout.resolve c id mode).slots.Pairwise fun s t => s.name ≠ t.name :=
  uniqueShallowest_pairwise _

/-- **No two slots lead to one field, or one to a field above the other.** -/
theorem slots_apart (derived : c.Derived id) (mode : Mode) :
    (Layout.resolve c id mode).slots.Pairwise fun s t =>
      ¬ s.path <+: t.path ∧ ¬ t.path <+: s.path := by
  refine (slots_pairwise c id mode).imp_of_mem fun {s t} hs ht names => ?_
  obtain ⟨f, leadsF, directF, namedF⟩ := slots_lead derived hs
  obtain ⟨g, leadsG, directG, namedG⟩ := slots_lead derived ht
  have ne : s.path ≠ t.path := by
    intro same
    rw [same] at leadsF
    rw [namedF, namedG, leadsF.unique leadsG] at names
    exact names rfl
  refine ⟨fun le => ne ?_, fun le => ne ?_⟩
  · exact leadsF.eq_of_isPrefix (FieldDecl.lends?_of_isDirect directF) leadsG le
  · exact (leadsG.eq_of_isPrefix (FieldDecl.lends?_of_isDirect directG) leadsF le).symm

end Catalog

/-! ## 3. Slots by name -/

theorem lookup_of_pairwise {α : Type} {entries : List (String × α)} {name : String} {a : α}
    (apart : entries.Pairwise fun d e => d.1 ≠ e.1) (h : (name, a) ∈ entries) :
    entries.lookup name = some a := by
  induction entries with
  | nil => cases h
  | cons e rest ih =>
    obtain ⟨first, later⟩ := List.pairwise_cons.1 apart
    rw [List.lookup_cons]
    rcases List.mem_cons.1 h with rfl | behind
    · rw [beq_self_eq_true]
    · rw [beq_eq_false_iff_ne.2 (first _ behind).symm]
      exact ih later behind

/-- **A slot is found by its name.** -/
theorem Layout.position_resolve {c : Catalog} {id : RecordId} {s : Slot}
    (h : s ∈ (Layout.resolve c id .named).slots) :
    ∃ i, (Layout.resolve c id .named).position s.name = some i ∧
      (Layout.resolve c id .named).slots[i]? = some s := by
  obtain ⟨i, here⟩ := List.mem_iff_getElem?.1 h
  refine ⟨i, ?_, here⟩
  have apart := c.slots_pairwise id .named
  change (((Layout.resolve c id .named).slots.zipIdx.map fun p => (p.1.name, p.2)).reverse).lookup
    s.name = some i
  generalize (Layout.resolve c id .named).slots = slots at here apart
  refine lookup_of_pairwise ?_ ?_
  · rw [List.pairwise_reverse, List.pairwise_map]
    have names : (slots.zipIdx.map Prod.fst).Pairwise fun s t => s.name ≠ t.name := by
      rwa [List.zipIdx_map_fst]
    exact (List.pairwise_map.1 names).imp fun ne => ne.symm
  · rw [List.mem_reverse, List.mem_map]
    exact ⟨(s, i), List.mem_zipIdx_iff_getElem?.2 here, rfl⟩

end MessagePack
