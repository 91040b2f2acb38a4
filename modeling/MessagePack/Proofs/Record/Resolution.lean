import MessagePack.Proofs.Record.Slots
/-!
# Which fields a layout keeps

The search for candidates finds every visible field that is reached through promoted embedded
records, none of them twice on one path.  It lists a record's own fields first and then, embedded
record by embedded record, theirs: an order of the paths alone.  Of these candidates a layout keeps
those that no other candidate of the same name equals or exceeds in shallowness, although the pass
over them sees depths in no particular order.  So a name stands for one place in both modes, whether
it is looked up in the index or by going through the slots.

Main statements: `Catalog.mem_candidates`, `Catalog.candidates_ordered`, `mem_uniqueShallowest_iff`
and `Layout.keeps_unique_shallowest`.
-/

namespace MessagePack

/-! ## 1. The order of paths -/

/-- **The order of candidates.**  Below the record where two paths part, its own fields come first,
in their order; those of the records it embeds follow, in the order of the embedding fields. -/
inductive Precedes : List Nat → List Nat → Prop
  | own {i j : Nat} : i < j → Precedes [i] [j]
  | lent {i j : Nat} {q : List Nat} : q ≠ [] → Precedes [i] (j :: q)
  | across {i j : Nat} {p q : List Nat} : p ≠ [] → q ≠ [] → i < j → Precedes (i :: p) (j :: q)
  | within {i : Nat} {p q : List Nat} : Precedes p q → Precedes (i :: p) (i :: q)

namespace Precedes

variable {p q : List Nat}

theorem append_left (h : Precedes p q) (pre : List Nat) : Precedes (pre ++ p) (pre ++ q) := by
  induction pre with
  | nil => exact h
  | cons i pre ih => exact .within ih

/-- **No path comes before itself.** -/
theorem irrefl (p : List Nat) : ¬ Precedes p p := by
  intro h
  induction p with
  | nil => cases h
  | cons i p ih =>
    cases h with
    | own lt => exact Nat.lt_irrefl i lt
    | lent ne => exact ne rfl
    | across _ _ lt => exact Nat.lt_irrefl i lt
    | within h => exact ih h

end Precedes

/-! ## 2. What the candidates are -/

namespace Catalog

variable {c : Catalog} {id : RecordId} {visited : List RecordId} {pre : List Nat} {s t : Slot}

/-- **A candidate** for the layout of the record `id`, reached through the records of `visited`: a
visible field of its own that lends nothing, or a candidate of a record that a visible field of its
own lends and that was not visited. -/
inductive IsCandidate (c : Catalog) : List RecordId → RecordId → Slot → Prop
  | own {visited : List RecordId} {id : RecordId} {i : Nat} {f : FieldDecl} :
      c.field? id i = some f → f.isVisible = true → f.promoted? = none →
        IsCandidate c visited id ⟨f.wireName, [i], f.fieldTag.omitEmpty⟩
  | lent {visited : List RecordId} {id inner : RecordId} {i : Nat} {f : FieldDecl} {s : Slot} :
      c.field? id i = some f → f.isVisible = true → f.promoted? = some inner → inner ∉ visited →
        IsCandidate c (inner :: visited) inner s →
          IsCandidate c visited id { s with path := i :: s.path }

/-- The slot of an embedded record, seen from the record at the end of `pre`. -/
def below (pre : List Nat) (s : Slot) : Slot := { s with path := pre ++ s.path }

theorem below_nil (s : Slot) : below [] s = s := rfl

theorem below_concat (pre : List Nat) (i : Nat) (s : Slot) :
    below (pre ++ [i]) s = below pre { s with path := i :: s.path } := by
  simp [below]

theorem IsCandidate.path_ne_nil (h : c.IsCandidate visited id s) : s.path ≠ [] := by
  cases h <;> simp

/-- A candidate leads to a visible field that lends nothing, and is named and tagged as it is. -/
theorem IsCandidate.leads (h : c.IsCandidate visited id s) :
    ∃ f, c.Leads id s.path f ∧ f.isVisible = true ∧ f.promoted? = none ∧ s.name = f.wireName ∧
      s.omitEmpty = f.fieldTag.omitEmpty := by
  induction h with
  | own field visible direct => exact ⟨_, .own field, visible, direct, rfl, rfl⟩
  | lent field visible promoted _ _ ih =>
    obtain ⟨g, leads, rest⟩ := ih
    exact ⟨g, .within field (FieldDecl.lends?_eq_some.2 ⟨visible, promoted⟩) leads, rest⟩

/-- Only a declared record has candidates. -/
theorem IsCandidate.declared (h : c.IsCandidate visited id s) : id < c.records.length := by
  have known : ∀ {i f}, c.field? id i = some f → id < c.records.length := by
    intro i f field
    refine Decidable.byContradiction fun missing => ?_
    simp [field?, decl, List.getElem?_eq_none (Nat.le_of_not_lt missing), default] at field
  cases h with
  | own field _ _ => exact known field
  | lent field _ _ _ _ => exact known field

/-- A record's own candidates are its visible fields that are not promoted. -/
theorem mem_ownCandidates :
    s ∈ c.ownCandidates pre id ↔
      ∃ i f, c.field? id i = some f ∧ f.isVisible = true ∧ f.promoted? = none ∧
        s = below pre ⟨f.wireName, [i], f.fieldTag.omitEmpty⟩ := by
  unfold ownCandidates
  rw [List.mem_filterMap]
  constructor
  · rintro ⟨⟨f, i⟩, place, made⟩
    rw [Option.ite_none_right_eq_some, Bool.and_eq_true, Option.isNone_iff_eq_none] at made
    obtain ⟨⟨visible, direct⟩, same⟩ := made
    exact ⟨i, f, List.mem_zipIdx_iff_getElem?.1 place, visible, direct, (Option.some.inj same).symm⟩
  · rintro ⟨i, f, field, visible, direct, rfl⟩
    refine ⟨(f, i), List.mem_zipIdx_iff_getElem?.2 field, ?_⟩
    simp [visible, direct, below]

/-- The candidates that the field at `i` of `id` lends. -/
def lentBy (c : Catalog) (visited : List RecordId) (pre : List Nat) (f : FieldDecl) (i : Nat) :
    List Slot :=
  if f.isVisible then
    match f.promoted? with
    | some inner =>
      if inner < c.records.length ∧ visited.contains inner = false then
        c.candidates (inner :: visited) (pre ++ [i]) inner
      else []
    | none => []
  else []

/-- The candidates are a record's own and those that its fields lend, in the order of the fields. -/
theorem candidates_eq (c : Catalog) (visited : List RecordId) (pre : List Nat) (id : RecordId) :
    c.candidates visited pre id = c.ownCandidates pre id ++
      (c.decl id).fields.zipIdx.flatMap fun (f, i) => c.lentBy visited pre f i := by
  rw [candidates]
  rfl

/-- A field lends what its record has, if that is declared and not being visited. -/
theorem mem_lentBy {f : FieldDecl} {i : Nat} :
    s ∈ c.lentBy visited pre f i ↔
      ∃ inner, f.isVisible = true ∧ f.promoted? = some inner ∧ inner < c.records.length ∧
        inner ∉ visited ∧ s ∈ c.candidates (inner :: visited) (pre ++ [i]) inner := by
  unfold lentBy
  constructor
  · intro h
    split at h
    · rename_i visible
      split at h
      · rename_i inner promoted
        split at h
        · rename_i new
          exact ⟨inner, visible, promoted, new.1, by simpa using new.2, h⟩
        · cases h
      · cases h
    · cases h
  · rintro ⟨inner, visible, promoted, declared, new, h⟩
    simp only [visible, promoted, if_true]
    rwa [if_pos ⟨declared, by simpa using new⟩]

/-- **The search finds the candidates and nothing else.** -/
theorem mem_candidates :
    s ∈ c.candidates visited pre id ↔ ∃ t, c.IsCandidate visited id t ∧ s = below pre t := by
  induction visited, pre, id using Catalog.candidates.induct c generalizing s with
  | case1 visited pre id ih =>
    rw [candidates_eq, List.mem_append, mem_ownCandidates, List.mem_flatMap]
    constructor
    · rintro (⟨i, f, field, visible, direct, rfl⟩ | ⟨⟨f, i⟩, place, lent⟩)
      · exact ⟨_, .own field visible direct, rfl⟩
      · obtain ⟨inner, visible, promoted, declared, new, found⟩ := mem_lentBy.1 lent
        obtain ⟨t, candidate, rfl⟩ := (ih i inner ⟨declared, by simpa using new⟩).1 found
        exact ⟨_, .lent (List.mem_zipIdx_iff_getElem?.1 place) visible promoted new candidate,
          below_concat pre i t⟩
    · rintro ⟨t, candidate, rfl⟩
      cases candidate with
      | @own _ _ i f field visible direct => exact .inl ⟨i, f, field, visible, direct, rfl⟩
      | @lent _ _ inner i f t field visible promoted new candidate =>
        refine .inr ⟨(f, i), List.mem_zipIdx_iff_getElem?.2 field, mem_lentBy.2 ?_⟩
        refine ⟨inner, visible, promoted, candidate.declared, new, ?_⟩
        refine (ih i inner ⟨candidate.declared, by simpa using new⟩).2 ⟨t, candidate, ?_⟩
        exact (below_concat pre i t).symm

/-! ## 3. In which order they are found -/

theorem pairwise_zipIdx {α : Type} (l : List α) (n : Nat) :
    (l.zipIdx n).Pairwise fun a b => a.2 < b.2 := by
  induction l generalizing n with
  | nil => exact .nil
  | cons a l ih => exact List.pairwise_cons.2 ⟨fun b hb => List.le_snd_of_mem_zipIdx hb, ih (n + 1)⟩

theorem ownCandidates_ordered :
    (c.ownCandidates pre id).Pairwise fun s t => Precedes s.path t.path := by
  refine (pairwise_zipIdx (c.decl id).fields 0).filterMap _ ?_
  rintro ⟨f, i⟩ ⟨g, j⟩ lt s hs t ht
  rw [Option.ite_none_right_eq_some] at hs ht
  rw [← Option.some.inj hs.2, ← Option.some.inj ht.2]
  exact (Precedes.own lt).append_left pre

/-- **Candidates are found in the order of their paths.** -/
theorem candidates_ordered (c : Catalog) (visited : List RecordId) (pre : List Nat)
    (id : RecordId) :
    (c.candidates visited pre id).Pairwise fun s t => Precedes s.path t.path := by
  induction visited, pre, id using Catalog.candidates.induct c with
  | case1 visited pre id ih =>
    -- what the field at `j` lends lies below the path to `j`, not at it
    have beneath : ∀ {f j t}, t ∈ c.lentBy visited pre f j →
        ∃ q, q ≠ [] ∧ t.path = pre ++ j :: q := by
      intro f j t lent
      obtain ⟨inner, -, -, -, -, found⟩ := mem_lentBy.1 lent
      obtain ⟨u, candidate, rfl⟩ := mem_candidates.1 found
      exact ⟨u.path, candidate.path_ne_nil, by simp [below]⟩
    rw [candidates_eq, List.pairwise_append, List.pairwise_flatMap]
    -- own before own, lent before lent, own before lent
    refine ⟨ownCandidates_ordered, ⟨?_, ?_⟩, ?_⟩
    · rintro ⟨f, i⟩ -
      dsimp only [lentBy]
      split
      · split
        · rename_i inner promoted
          split
          · rename_i new
            exact ih i inner new
          · exact .nil
        · exact .nil
      · exact .nil
    · refine (pairwise_zipIdx _ 0).imp fun {a b} lt s hs t ht => ?_
      obtain ⟨p, someP, atP⟩ := beneath hs
      obtain ⟨q, someQ, atQ⟩ := beneath ht
      rw [atP, atQ]
      exact (Precedes.across someP someQ lt).append_left pre
    · intro s hs t ht
      obtain ⟨i, f, -, -, -, rfl⟩ := mem_ownCandidates.1 hs
      obtain ⟨⟨g, j⟩, -, lent⟩ := List.mem_flatMap.1 ht
      obtain ⟨q, someQ, atQ⟩ := beneath lent
      rw [atQ]
      exact (Precedes.lent someQ).append_left pre

/-- No path is found twice. -/
theorem candidates_nodup (c : Catalog) (visited : List RecordId) (pre : List Nat) (id : RecordId) :
    (c.candidates visited pre id).Nodup := by
  refine (c.candidates_ordered visited pre id).imp fun {s t} before => ?_
  rintro rfl
  exact Precedes.irrefl s.path before

end Catalog

/-! ## 4. Which candidates remain -/

theorem counted_tally {table : List (String × Shallowest)} (counted : ∀ e ∈ table, 0 < e.2.count)
    (name : String) (depth : Nat) : ∀ e ∈ tally name depth table, 0 < e.2.count := by
  induction table with
  | nil => simp [tally]
  | cons d rest ih =>
    obtain ⟨n, s⟩ := d
    have first : 0 < s.count := counted (n, s) (by simp)
    have later := ih fun e he => counted e (List.mem_cons_of_mem _ he)
    unfold tally
    split
    · intro e he
      rcases List.mem_cons.1 he with rfl | he
      · unfold Shallowest.note
        split
        · exact Nat.one_pos
        · split
          · exact Nat.succ_pos _
          · exact first
      · exact counted e (List.mem_cons_of_mem _ he)
    · intro e he
      rcases List.mem_cons.1 he with rfl | he
      · exact first
      · exact later e he

/-- Every entry of the table stands for some candidate. -/
theorem counted_foldl {table : List (String × Shallowest)} (counted : ∀ e ∈ table, 0 < e.2.count)
    (slots : List Slot) :
    ∀ e ∈ slots.foldl (fun t s => tally s.name s.path.length t) table, 0 < e.2.count := by
  induction slots generalizing table with
  | nil => exact counted
  | cons s rest ih => exact ih (counted_tally counted s.name s.path.length)

theorem mem_of_lookup_eq_some {α : Type} {entries : List (String × α)} {name : String} {a : α}
    (h : entries.lookup name = some a) : (name, a) ∈ entries := by
  induction entries with
  | nil => cases h
  | cons e rest ih =>
    obtain ⟨n, b⟩ := e
    rw [List.lookup_cons] at h
    split at h
    · rename_i same
      rw [beq_iff_eq.1 same, Option.some.inj h]
      exact List.mem_cons_self
    · exact List.mem_cons_of_mem _ (ih h)

/-- The slots of one name at one depth. -/
def levelOf (name : String) (depth : Nat) (slots : List Slot) : List Slot :=
  slots.filter fun s => s.name == name && s.path.length == depth

theorem mem_levelOf {name : String} {depth : Nat} {slots : List Slot} {s : Slot} :
    s ∈ levelOf name depth slots ↔ s ∈ slots ∧ s.name = name ∧ s.path.length = depth := by
  simp [levelOf]

/-- A depth occurs as often as there are candidates on that level. -/
theorem count_depthsOf (name : String) (depth : Nat) (slots : List Slot) :
    (depthsOf name slots).count depth = (levelOf name depth slots).length := by
  simp only [depthsOf, levelOf, List.count_eq_countP, List.countP_map, List.countP_filter,
    ← List.countP_eq_length_filter]
  refine List.countP_congr fun s _ => ?_
  simp [and_comm]

/-- Alone on its level and above all others of its name. -/
def Unrivalled (candidates : List Slot) (s : Slot) : Prop :=
  ∀ t ∈ candidates, t ≠ s → t.name = s.name → s.path.length < t.path.length

/-- **A candidate remains exactly if every other one of its name lies deeper.** -/
theorem mem_uniqueShallowest_iff {candidates : List Slot} (distinct : candidates.Nodup)
    {s : Slot} : s ∈ uniqueShallowest candidates ↔ s ∈ candidates ∧ Unrivalled candidates s := by
  have start : Tallies [] [] := fun name => .inl ⟨rfl, rfl⟩
  have tallies := start.foldl candidates
  have counted : ∀ e ∈ candidates.foldl (fun t s => tally s.name s.path.length t) [],
      0 < e.2.count := counted_foldl (by simp) candidates
  unfold uniqueShallowest
  generalize candidates.foldl (fun t s => tally s.name s.path.length t) [] = table
    at tallies counted
  rw [List.nil_append] at tallies
  rw [List.mem_filter, beq_iff_eq]
  refine and_congr_right fun mem => ⟨fun alone t ht other named => ?_, fun alone => ?_⟩
  · rcases tallies s.name with ⟨missing, -⟩ | ⟨found, known, sums⟩
    · rw [alone] at missing
      cases missing
    rw [alone] at known
    cases known
    have one := sums.count
    rw [count_depthsOf] at one
    have deeper : s.path.length ≤ t.path.length :=
      sums.least _ (List.mem_map.2 ⟨t, List.mem_filter.2 ⟨ht, beq_iff_eq.2 named⟩, rfl⟩)
    refine Nat.lt_of_le_of_ne deeper fun level => other ?_
    -- on one level there is room for one
    obtain ⟨u, only⟩ := List.length_eq_one_iff.1 one
    have hs := mem_levelOf.2 ⟨mem, rfl, rfl⟩
    have ht := mem_levelOf.2 ⟨ht, named, level.symm⟩
    rw [only, List.mem_singleton] at hs ht
    rw [hs, ht]
  · rcases tallies s.name with ⟨-, none⟩ | ⟨found, known, sums⟩
    · have : s.path.length ∈ depthsOf s.name candidates :=
        List.mem_map.2 ⟨s, List.mem_filter.2 ⟨mem, beq_self_eq_true _⟩, rfl⟩
      rw [none] at this
      cases this
    obtain ⟨depth, count⟩ := found
    have some : 0 < count := counted _ (mem_of_lookup_eq_some known)
    have least := sums.least s.path.length
      (List.mem_map.2 ⟨s, List.mem_filter.2 ⟨mem, beq_self_eq_true _⟩, rfl⟩)
    have sum := sums.count
    rw [count_depthsOf] at sum
    dsimp only at least sum
    -- anything else on the least level would be a rival of `s`
    have only : ∀ t ∈ levelOf s.name depth candidates, t = s := by
      intro t ht
      obtain ⟨ht, named, level⟩ := mem_levelOf.1 ht
      refine Decidable.byContradiction fun other => ?_
      exact Nat.not_lt_of_le (level ▸ least) (alone t ht other named)
    obtain ⟨t, ht⟩ := List.exists_mem_of_length_pos (sum ▸ some)
    have level : s.path.length = depth := only t ht ▸ (mem_levelOf.1 ht).2.2
    have one : (levelOf s.name depth candidates).length ≤ 1 := by
      rw [← List.count_eq_length.2 fun t ht => (only t ht).symm]
      exact List.nodup_iff_count.1 (distinct.filter _) s
    have : count = 1 := by omega
    rw [known, level, this]

/-! ## 5. Layouts -/

namespace Layout

variable {c : Catalog} {id : RecordId}

theorem slots_resolve (c : Catalog) (id : RecordId) (mode : Mode) :
    (resolve c id mode).slots = uniqueShallowest (c.candidates [id] [] id) := rfl

/-- Every slot leads to a visible field that lends nothing, and is named and tagged as it is,
whether or not the record hands it out. -/
theorem slot_leads {mode : Mode} {s : Slot} (slot : s ∈ (resolve c id mode).slots) :
    ∃ f, c.Leads id s.path f ∧ f.isVisible = true ∧ f.promoted? = none ∧ s.name = f.wireName ∧
      s.omitEmpty = f.fieldTag.omitEmpty := by
  obtain ⟨t, candidate, rfl⟩ := Catalog.mem_candidates.1 (Catalog.mem_uniqueShallowest slot)
  exact candidate.leads

/-- A name stands at one place. -/
theorem place_unique {mode : Mode} {s t : Slot} {i j : Nat}
    (hs : (resolve c id mode).slots[i]? = some s) (ht : (resolve c id mode).slots[j]? = some t)
    (same : s.name = t.name) : i = j := by
  have apart := List.pairwise_iff_getElem.1 (c.slots_pairwise id mode)
  obtain ⟨insideS, rfl⟩ := List.getElem?_eq_some_iff.1 hs
  obtain ⟨insideT, rfl⟩ := List.getElem?_eq_some_iff.1 ht
  rcases Nat.lt_trichotomy i j with lt | eq | lt
  · exact absurd same (apart i j insideS insideT lt)
  · exact eq
  · exact absurd same.symm (apart j i insideT insideS lt)

/-- No slot's path leads through that of another, whether or not the record hands out its fields. -/
theorem eq_of_isPrefix {mode : Mode} {s t : Slot} (hs : s ∈ (resolve c id mode).slots)
    (ht : t ∈ (resolve c id mode).slots) (le : s.path <+: t.path) : s = t := by
  obtain ⟨f, leadsF, -, own, namedF, -⟩ := slot_leads hs
  obtain ⟨g, leadsG, -, -, namedG, -⟩ := slot_leads ht
  have lends : f.lends? = none := by rw [FieldDecl.lends?, own, ite_self]
  have path := leadsF.eq_of_isPrefix lends leadsG le
  obtain ⟨i, placeS⟩ := List.mem_iff_getElem?.1 hs
  obtain ⟨j, placeT⟩ := List.mem_iff_getElem?.1 ht
  rw [path] at leadsF
  have names : s.name = t.name := by rw [namedF, namedG, leadsF.unique leadsG]
  obtain rfl := place_unique placeS placeT names
  exact Option.some.inj (placeS.symm.trans placeT)

/-- **The index and the slots give a name one place.** -/
theorem position_resolve_iff {mode : Mode} {name : String} {i : Nat} :
    (resolve c id mode).position name = some i ↔
      ∃ s, (resolve c id mode).slots[i]? = some s ∧ s.name = name := by
  cases mode with
  | named =>
    constructor
    · intro h
      have entry := mem_of_lookup_eq_some h
      rw [List.mem_reverse, List.mem_map] at entry
      obtain ⟨⟨s, j⟩, place, same⟩ := entry
      obtain ⟨rfl, rfl⟩ := Prod.mk.inj same
      exact ⟨s, List.mem_zipIdx_iff_getElem?.1 place, rfl⟩
    · rintro ⟨s, here, rfl⟩
      obtain ⟨j, found, there⟩ := position_resolve (List.mem_of_getElem? here)
      rw [found, place_unique here there rfl]
  | positional =>
    change List.findIdx? _ _ = some i ↔ _
    rw [List.findIdx?_eq_some_iff_getElem]
    constructor
    · rintro ⟨inside, named, -⟩
      exact ⟨_, List.getElem?_eq_getElem inside, beq_iff_eq.1 named⟩
    · rintro ⟨s, here, rfl⟩
      obtain ⟨inside, rfl⟩ := List.getElem?_eq_some_iff.1 here
      refine ⟨inside, beq_self_eq_true _, fun j before named => ?_⟩
      have there := List.getElem?_eq_getElem (Nat.lt_trans before inside)
      exact Nat.ne_of_lt before (place_unique there here (beq_iff_eq.1 named))

/-- A name that no slot bears has no place. -/
theorem position_resolve_eq_none {mode : Mode} {name : String}
    (free : ∀ s ∈ (resolve c id mode).slots, s.name ≠ name) :
    (resolve c id mode).position name = none := by
  rw [Option.eq_none_iff_forall_ne_some]
  intro i found
  obtain ⟨s, here, named⟩ := position_resolve_iff.1 found
  exact free s (List.mem_of_getElem? here) named

/-- **A layout keeps, in their order, the candidates that are alone and shallowest of their name.**
Therefore names are unique, both modes have the same slots, and a name's place is that of its
slot. -/
theorem keeps_unique_shallowest (c : Catalog) (id : RecordId) (mode : Mode) :
    (resolve c id mode).slots.Pairwise (fun s t => Precedes s.path t.path) ∧
      (∀ s, s ∈ (resolve c id mode).slots ↔ c.IsCandidate [id] id s ∧
        ∀ t, c.IsCandidate [id] id t → t ≠ s → t.name = s.name →
          s.path.length < t.path.length) ∧
      (resolve c id mode).slots.Sublist (c.candidates [id] [] id) ∧
      (resolve c id mode).slots.Pairwise (fun s t => s.name ≠ t.name) ∧
      (resolve c id .positional).slots = (resolve c id .named).slots ∧
      ∀ name i, (resolve c id mode).position name = some i ↔
        ∃ s, (resolve c id mode).slots[i]? = some s ∧ s.name = name := by
  have kept : (resolve c id mode).slots.Sublist (c.candidates [id] [] id) := List.filter_sublist
  have candidate : ∀ s, s ∈ c.candidates [id] [] id ↔ c.IsCandidate [id] id s := by
    intro s
    simp [Catalog.mem_candidates, Catalog.below_nil]
  refine ⟨(c.candidates_ordered [id] [] id).sublist kept, fun s => ?_, kept,
    c.slots_pairwise id mode, rfl, fun name i => position_resolve_iff⟩
  rw [slots_resolve, mem_uniqueShallowest_iff (c.candidates_nodup [id] [] id)]
  simp only [Unrivalled, candidate]

end Layout

end MessagePack
