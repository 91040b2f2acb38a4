import MessagePack.Record.Catalog
/-!
# Layouts

A layout lists the wire fields of a record: for each its wire name and the path to it through
embedded records.  Candidates are the record's own fields and then, in the order of declaration,
the candidates of each record it embeds.  A record that is already on the path is not entered
again, so the search ends on every graph of embeddings: the records not on the path grow fewer.
Of the candidates of one name only the shallowest counts, and only if it is alone at its depth.

Main statement: `Catalog.unvisited_lt`, the measure of the search.
-/

namespace MessagePack

/-- A resolved field. -/
structure Slot where
  /-- The name on the wire. -/
  name : String
  /-- Places of fields through embedded records, ending at the field itself. -/
  path : List Nat
  /-- Whether a zero is left out of maps. -/
  omitEmpty : Bool
  deriving DecidableEq, Repr

/-! ## 1. Candidates -/

namespace Catalog

/-- How many declared records are not on a path. -/
def unvisited (c : Catalog) (path : List RecordId) : Nat :=
  (List.range c.records.length).countP fun i => !path.contains i

theorem countP_lt_countP {α : Type} {p q : α → Bool} {l : List α} {a : α} (mem : a ∈ l)
    (le : ∀ x, p x = true → q x = true) (hq : q a = true) (hp : p a = false) :
    l.countP p < l.countP q := by
  induction l with
  | nil => simp at mem
  | cons b l ih =>
    simp only [List.countP_cons]
    have mono : l.countP p ≤ l.countP q := List.countP_mono_left fun x _ => le x
    rcases List.mem_cons.1 mem with rfl | mem
    · simp only [hq, hp]
      simp
      omega
    · have := ih mem
      by_cases h : p b = true
      · simp only [h, le b h]
        omega
      · rw [if_neg h]
        omega

/-- **Stepping onto a record that was not on the path leaves fewer records off it.** -/
theorem unvisited_lt {c : Catalog} {path : List RecordId} {id : RecordId}
    (declared : id < c.records.length) (new : path.contains id = false) :
    c.unvisited (id :: path) < c.unvisited path := by
  refine countP_lt_countP (List.mem_range.2 declared) (fun x hx => ?_) ?_ ?_
  · simp_all
  · simpa using new
  · simp

/-- The candidates among the fields of `id` itself, with the place `pre` of the record in front. -/
def ownCandidates (c : Catalog) (pre : List Nat) (id : RecordId) : List Slot :=
  (c.decl id).fields.zipIdx.filterMap fun (f, i) =>
    if f.isVisible && f.promoted?.isNone then some ⟨f.wireName, pre ++ [i], f.fieldTag.omitEmpty⟩
    else none

/-- The candidates of `id`, which stands at `pre` and is reached through the records of `path`: its
own, then those of the records it embeds. -/
def candidates (c : Catalog) (path : List RecordId) (pre : List Nat) (id : RecordId) : List Slot :=
  c.ownCandidates pre id ++
    (c.decl id).fields.zipIdx.flatMap fun (f, i) =>
      if f.isVisible then
        match f.promoted? with
        | some inner =>
          if _h : inner < c.records.length ∧ path.contains inner = false then
            c.candidates (inner :: path) (pre ++ [i]) inner
          else []
        | none => []
      else []
termination_by c.unvisited path
decreasing_by exact unvisited_lt _h.1 _h.2

end Catalog

/-! ## 2. The shallowest of each name -/

/-- How deep the shallowest candidates of a name lie, and how many there are at that depth. -/
structure Shallowest where
  depth : Nat
  count : Nat
  deriving DecidableEq, Repr

/-- Takes one more candidate into account. -/
def Shallowest.note (s : Shallowest) (depth : Nat) : Shallowest :=
  if depth < s.depth then ⟨depth, 1⟩
  else if depth = s.depth then ⟨s.depth, s.count + 1⟩
  else s

/-- Takes one more candidate into account in a table by name. -/
def tally (name : String) (depth : Nat) : List (String × Shallowest) → List (String × Shallowest)
  | [] => [(name, ⟨depth, 1⟩)]
  | (n, s) :: rest =>
    if n = name then (n, s.note depth) :: rest else (n, s) :: tally name depth rest

/-- The candidates that are alone at the least depth of their name, in their order. -/
def uniqueShallowest (candidates : List Slot) : List Slot :=
  let table := candidates.foldl (fun t s => tally s.name s.path.length t) []
  candidates.filter fun s => table.lookup s.name == some ⟨s.path.length, 1⟩

/-! ## 3. Layouts -/

/-- The wire fields of a record type in one mode. -/
structure Layout where
  typeName : String
  slots : List Slot
  /-- Whether every field is the record's own and none is ever left out. -/
  neverOmits : Bool
  /-- Places by wire name, later ones in front, where names are looked up often. -/
  index : Option (List (String × Nat))
  deriving DecidableEq, Repr

namespace Layout

/-- The layout of a record. -/
def resolve (c : Catalog) (id : RecordId) (mode : Mode) : Layout :=
  let slots := uniqueShallowest (c.candidates [id] [] id)
  { typeName := (c.decl id).name
    slots
    neverOmits := slots.all fun s => !s.omitEmpty && s.path.length == 1
    index :=
      match mode with
      | .named => some (slots.zipIdx.map fun (s, i) => (s.name, i)).reverse
      | .positional => none }

/-- The place of the slot with a wire name: from the index where there is one, else by looking
through the slots. -/
def position (l : Layout) (name : String) : Option Nat :=
  match l.index with
  | some index => index.lookup name
  | none => l.slots.findIdx? (·.name == name)

end Layout

end MessagePack
