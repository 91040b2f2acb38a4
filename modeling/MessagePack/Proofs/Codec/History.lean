import MessagePack.Proofs.Codec.Reachable
/-!
# What a codec's history shows

A codec is used for one operation after another, and some of them leave layouts behind that later
ones find.  None of that can be told from what the operations give back.  The bindings are all that
an operation hands on to the next, and only adding and removing bindings changes those, when it
succeeds.  So an operation gives what it would give on a fresh codec on which only the earlier
successful changes were made, whatever was read or written before and however it failed.

`Codec.Operation` is one operation and `Codec.after` any number of them.  Main statements:
`Codec.reply_congr`, `Codec.registry_after` and `Codec.history_invisible`.
-/

namespace MessagePack.Codec

variable {c c' : Codec}

/-! ## 1. Operations and what they give -/

/-- An operation on a codec. -/
inductive Operation where
  | encode (t : Ty) (d : Datum) (mode : Mode)
  | encodedLength (t : Ty) (d : Datum) (mode : Mode)
  /-- The steps of a value that is written by hand follow from what the operation sees. -/
  | encodeSteps (sizing writing : Context → List MessagePack.Step) (mode : Mode)
  | decode (t : Ty) (input : List UInt8) (mode : Mode)
  | decodeInto (t : Ty) (d : Datum) (input : List UInt8) (mode : Mode)
  | decodeValue (input : List UInt8)
  | decodeCalls (calls : List Call) (input : List UInt8) (mode : Mode)
  | layout (mode : Mode) (id : RecordId)
  | change (ch : Registry.Change)

/-- What an operation gives back. -/
inductive Reply where
  | bytes (r : Except Fault (List UInt8))
  | length (r : Except Fault Nat)
  | passes (e : Encoding)
  | datum (r : Except Fault Datum)
  /-- The outcome of reading in place, and the destination as it was left. -/
  | inPlace (outcome : Except Fault Unit) (left : Datum)
  | value (r : Except Fault Value)
  | reports (rs : List Report) (ended : Except Fault Unit)
  | layout (l : Layout)
  | changed (done : Bool)

/-- Adds or removes a binding. -/
def change (c : Codec) : Registry.Change → Bool × Codec
  | .register b => c.register b
  | .unregister tag host => c.unregister tag host

/-- Carries out an operation. -/
def perform (c : Codec) : Operation → Reply × Codec
  | .encode t d mode => (c.encode t d mode).map .bytes id
  | .encodedLength t d mode => (c.encodedLength t d mode).map .length id
  | .encodeSteps sizing writing mode =>
    (c.encodeSteps (sizing (c.context mode)) (writing (c.context mode)) mode).map .passes id
  | .decode t input mode => (c.decode t input mode).map .datum id
  | .decodeInto t d input mode =>
    let (outcome, left, c) := c.decodeInto t d input mode
    (.inPlace outcome left, c)
  | .decodeValue input => (c.decodeValue input).map .value id
  | .decodeCalls calls input mode =>
    let (reports, ended, c) := c.decodeCalls calls input mode
    (.reports reports ended, c)
  | .layout mode record => (c.layout mode record).map .layout id
  | .change ch => (c.change ch).map .changed id

/-- The codec after some operations. -/
def after (c : Codec) (ops : List Operation) : Codec :=
  ops.foldl (fun c op => (c.perform op).2) c

/-- The change that an operation made to the bindings, if it made one. -/
def changed? (op : Operation) (reply : Reply) : Option Registry.Change :=
  match op, reply with
  | .change ch, .changed true => some ch
  | _, _ => none

/-- The changes that some operations made to the bindings. -/
def made (c : Codec) : List Operation → List Registry.Change
  | [] => []
  | op :: ops => (changed? op (c.perform op).1).toList ++ (c.perform op).2.made ops

theorem change_eq (c : Codec) (ch : Registry.Change) :
    c.change ch = ((c.registry.change ch).1, { c with registry := (c.registry.change ch).2 }) := by
  cases ch <;> rfl

/-- Every operation is a step. -/
theorem step_perform (c : Codec) (op : Operation) : Step c (c.perform op).2 := by
  cases op with
  | encode t d mode => exact .encode t d mode
  | encodedLength t d mode => exact .encodedLength t d mode
  | encodeSteps sizing writing mode => exact .encodeSteps _ _ mode
  | decode t input mode => exact .decode t input mode
  | decodeInto t d input mode => exact .decodeInto t d input mode
  | decodeValue input => exact .decodeValue input
  | decodeCalls calls input mode => exact .decodeCalls calls input mode
  | layout mode id => exact .layout mode id
  | change ch =>
    cases ch with
    | register b => exact .register b
    | unregister tag host => exact .unregister tag host

/-- So a codec that can be reached can be reached after any of them. -/
theorem Reachable.after (reachable : c.Reachable) (ops : List Operation) :
    (c.after ops).Reachable := by
  induction ops generalizing c with
  | nil => exact reachable
  | cons op ops ih => exact ih (.step reachable (c.step_perform op))

/-! ## 2. What an operation hands on -/

theorem Step.catalog (step : Step c c') : c'.catalog = c.catalog := by
  cases step with
  | layout mode id => exact catalog_remember mode id
  | register | unregister => rfl
  | encode | encodedLength | encodeSteps | decodeInto | decode | decodeValue | decodeCalls =>
    exact catalog_rememberAll _ _

/-- The declarations stay. -/
theorem catalog_after (c : Codec) (ops : List Operation) : (c.after ops).catalog = c.catalog := by
  induction ops generalizing c with
  | nil => rfl
  | cons op ops ih => exact (ih _).trans (c.step_perform op).catalog

/-- **Only adding and removing changes the bindings**, whatever else is done and however it
ends. -/
theorem registry_perform (c : Codec) {op : Operation} (other : ∀ ch, op ≠ .change ch) :
    (c.perform op).2.registry = c.registry := by
  cases op with
  | layout mode id => exact registry_remember mode id
  | change ch => exact absurd rfl (other ch)
  | encode | encodedLength | encodeSteps | decodeInto | decode | decodeValue | decodeCalls =>
    exact registry_rememberAll _ _

/-- A change changes the registry, -/
theorem registry_change (c : Codec) (ch : Registry.Change) :
    (c.perform (.change ch)).2.registry = (c.registry.change ch).2 := by
  show (c.change ch).2.registry = _
  rw [change_eq]

/-- An operation leaves the bindings that the change it made leaves. -/
theorem Reachable.registry_changed (reachable : c.Reachable) (op : Operation) :
    (c.perform op).2.registry = c.registry.after (changed? op (c.perform op).1).toList := by
  by_cases changes : ∃ ch, op = .change ch
  · obtain ⟨ch, rfl⟩ := changes
    have answer : (c.perform (.change ch)).1 = .changed (c.registry.change ch).1 := by
      show Reply.changed (c.change ch).1 = _
      rw [change_eq]
    rw [registry_change, answer]
    cases done : (c.registry.change ch).1 with
    | true => rfl
    | false => exact reachable.consistent.registry.change_refused done
  · have other : ∀ ch, op ≠ .change ch := fun ch e => changes ⟨ch, e⟩
    have none : changed? op (c.perform op).1 = none := by
      unfold changed?
      split
      · rename_i ch _
        exact absurd rfl (other ch)
      · rfl
    rw [none, c.registry_perform other]
    rfl

/-- **The bindings after any operations are those that the changes made on the way leave.** -/
theorem Reachable.registry_after (reachable : c.Reachable) (ops : List Operation) :
    (c.after ops).registry = c.registry.after (c.made ops) := by
  induction ops generalizing c with
  | nil => rfl
  | cons op ops ih =>
    have rest := ih (.step reachable (c.step_perform op))
    rw [reachable.registry_changed op] at rest
    rw [made, Registry.after, List.foldl_append]
    exact rest

/-- Making some changes and nothing else. -/
theorem registry_replay (c : Codec) (changes : List Registry.Change) :
    (c.after (changes.map .change)).registry = c.registry.after changes := by
  induction changes generalizing c with
  | nil => rfl
  | cons ch changes ih =>
    rw [List.map_cons]
    exact (ih _).trans (by rw [registry_change]; rfl)

/-! ## 3. What an operation sees -/

/-- **What an operation gives follows from the catalog and the bindings.** -/
theorem reply_congr (reachable : c.Reachable) (reachable' : c'.Reachable)
    (catalog : c.catalog = c'.catalog) (registry : c.registry = c'.registry) (op : Operation) :
    (c.perform op).1 = (c'.perform op).1 := by
  have context : ∀ mode, c.context mode = c'.context mode := fun mode => by
    rw [reachable.context_eq, reachable'.context_eq, catalog, registry]
  cases op with
  | encode t d mode | encodedLength t d mode | encodeSteps sizing writing mode
  | decodeInto t d input mode | decodeCalls calls input mode =>
    simp only [perform, encode, encoding, conclude, encodedLength, encodeSteps, decodeInto, reading,
      settle, decodeCalls, context, Prod.map_fst]
  | decode t input mode =>
    simp only [perform, decode, decodeInto, reading, settle, context, catalog, Prod.map_fst]
  | decodeValue input =>
    simp only [perform, decodeValue, decode, decodeInto, reading, settle, context, catalog,
      Prod.map_fst]
  | layout mode id =>
    have same : c.layoutOf mode = c'.layoutOf mode := congrArg Context.layout (context mode)
    simp only [perform, layout, same, Prod.map_fst]
  | change ch => simp only [perform, change_eq, registry, Prod.map_fst]

/-! ## 4. Kept layouts -/

/-- A layout that is kept anew is the one that was looked up. -/
theorem mem_layouts_remember {mode : Mode} {id : RecordId} {e : (RecordId × Mode) × Layout}
    (kept : e ∈ (c.remember mode id).layouts) :
    e ∈ c.layouts ∨ e.2 = c.layoutOf e.1.2 e.1.1 := by
  unfold remember at kept
  split at kept
  · exact .inl kept
  · rcases List.mem_cons.1 kept with rfl | old
    · exact .inr rfl
    · exact .inl old

/-- A layout that is kept is an old one, or one that is found by resolving. -/
theorem mem_layouts_rememberAll {mode : Mode} {ids : List RecordId}
    {e : (RecordId × Mode) × Layout} (kept : e ∈ (c.rememberAll mode ids).layouts) :
    e ∈ c.layouts ∨ e.2 = c.layoutOf e.1.2 e.1.1 := by
  unfold rememberAll at kept
  induction ids generalizing c with
  | nil => exact .inl kept
  | cons id ids ih =>
    rcases ih kept with old | looked
    · exact mem_layouts_remember old
    · rw [layoutOf_remember] at looked
      exact .inr looked

/-- Whatever the step was. -/
theorem Step.mem_layouts (step : Step c c') {e : (RecordId × Mode) × Layout}
    (kept : e ∈ c'.layouts) : e ∈ c.layouts ∨ e.2 = c.layoutOf e.1.2 e.1.1 := by
  cases step with
  | layout mode id => exact mem_layouts_remember kept
  | register | unregister => exact .inl kept
  | encode | encodedLength | encodeSteps | decodeInto | decode | decodeValue | decodeCalls =>
    exact mem_layouts_rememberAll kept

/-- **A layout that is kept, under whatever record and mode, is the one that resolving gives.** -/
theorem Reachable.kept (reachable : c.Reachable) {e : (RecordId × Mode) × Layout}
    (kept : e ∈ c.layouts) : e.2 = .resolve c.catalog e.1.1 e.1.2 := by
  induction reachable with
  | fresh catalog => cases kept
  | step before step ih =>
    rw [step.catalog]
    rcases step.mem_layouts kept with old | looked
    · exact ih old
    · exact looked.trans (before.consistent.resolved _ _)

/-! ## 5. The theorem -/

/-- **A codec's history shows in its bindings alone.**  After any operations, whatever they were and
however they ended, the next one gives what it gives on a fresh codec on which nothing but the
changes made to the bindings on the way were made.  The layouts kept on the way are those that
resolving gives, and nothing but adding and removing touches the bindings. -/
theorem history_invisible (catalog : Catalog) (before : List Operation) (op : Operation) :
    let c := (fresh catalog).after before
    let replayed := (fresh catalog).after (((fresh catalog).made before).map .change)
    (c.perform op).1 = (replayed.perform op).1 ∧
      (∀ id mode l, ((id, mode), l) ∈ c.layouts → l = .resolve catalog id mode) ∧
      ((∀ ch, op ≠ .change ch) → (c.perform op).2.registry = c.registry) := by
  intro c replayed
  have start : (fresh catalog).Reachable := .fresh catalog
  have same : c.catalog = catalog := catalog_after _ _
  refine ⟨?_, fun id mode l kept => ?_, c.registry_perform⟩
  · have bindings : c.registry = replayed.registry :=
      (start.registry_after before).trans (registry_replay _ _).symm
    exact reply_congr (start.after _) (start.after _)
      (same.trans (catalog_after (fresh catalog) _).symm) bindings op
  · rw [← same]
    exact (start.after before).kept kept

end MessagePack.Codec
