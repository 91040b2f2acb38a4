import MessagePack.Codec
import MessagePack.Proofs.Extension.Registry
/-!
# Reachable codecs

A codec starts fresh and changes by its operations alone.  Whatever the operations and their order,
three things hold: a kept layout is the one that resolving gives, the registry finds a binding by
its host exactly where it finds it by its tag, and timestamps have their own binding.

`Codec.Step` is one operation, `Codec.Reachable` any number of them.  Main statements:
`Codec.Reachable.consistent` and `Codec.Reachable.context_eq`.
-/

namespace MessagePack

/-! ## 1. Layouts -/

namespace Codec

/-- A codec whose kept layouts are those that resolving gives, and whose registry's tables agree. -/
structure Consistent (c : Codec) : Prop where
  resolved : ∀ mode id, c.layoutOf mode id = .resolve c.catalog id mode
  registry : c.registry.Consistent

variable {c : Codec}

@[simp] theorem catalog_remember (mode : Mode) (id : RecordId) :
    (c.remember mode id).catalog = c.catalog := by
  unfold remember
  split <;> rfl

@[simp] theorem registry_remember (mode : Mode) (id : RecordId) :
    (c.remember mode id).registry = c.registry := by
  unfold remember
  split <;> rfl

/-- Keeping a layout changes no layout. -/
@[simp] theorem layoutOf_remember (mode mode' : Mode) (id id' : RecordId) :
    (c.remember mode id).layoutOf mode' id' = c.layoutOf mode' id' := by
  unfold remember
  split
  · rfl
  · rename_i missing
    unfold layoutOf
    simp only [List.lookup_cons]
    by_cases same : (id', mode') = (id, mode)
    · obtain ⟨rfl, rfl⟩ := Prod.mk.inj same
      rw [beq_self_eq_true, missing]
      rfl
    · rw [beq_eq_false_iff_ne.2 same]

@[simp] theorem catalog_rememberAll (mode : Mode) (ids : List RecordId) :
    (c.rememberAll mode ids).catalog = c.catalog := by
  unfold rememberAll
  induction ids generalizing c with
  | nil => rfl
  | cons id ids ih => rw [List.foldl_cons, ih, catalog_remember]

@[simp] theorem registry_rememberAll (mode : Mode) (ids : List RecordId) :
    (c.rememberAll mode ids).registry = c.registry := by
  unfold rememberAll
  induction ids generalizing c with
  | nil => rfl
  | cons id ids ih => rw [List.foldl_cons, ih, registry_remember]

@[simp] theorem layoutOf_rememberAll (mode mode' : Mode) (ids : List RecordId) (id : RecordId) :
    (c.rememberAll mode ids).layoutOf mode' id = c.layoutOf mode' id := by
  unfold rememberAll
  induction ids generalizing c with
  | nil => rfl
  | cons i ids ih => rw [List.foldl_cons, ih, layoutOf_remember]

/-- What an operation sees does not depend on the layouts that were kept before. -/
@[simp] theorem context_rememberAll (mode mode' : Mode) (ids : List RecordId) :
    (c.rememberAll mode ids).context mode' = c.context mode' := by
  unfold context
  rw [catalog_rememberAll, registry_rememberAll]
  congr 1
  exact funext fun id => layoutOf_rememberAll mode mode' ids id

/-- A fresh codec keeps no layouts. -/
theorem consistent_fresh (catalog : Catalog) : (fresh catalog).Consistent :=
  ⟨fun _ _ => rfl, Registry.consistent_initial⟩

/-- A layout that is remembered is the resolved one. -/
theorem Consistent.remember (con : c.Consistent) (mode : Mode) (id : RecordId) :
    (c.remember mode id).Consistent := by
  refine ⟨fun mode' id' => ?_, ?_⟩
  · rw [layoutOf_remember, catalog_remember]
    exact con.resolved mode' id'
  · rw [registry_remember]
    exact con.registry

theorem Consistent.rememberAll (con : c.Consistent) (mode : Mode) (ids : List RecordId) :
    (c.rememberAll mode ids).Consistent := by
  refine ⟨fun mode' id' => ?_, ?_⟩
  · rw [layoutOf_rememberAll, catalog_rememberAll]
    exact con.resolved mode' id'
  · rw [registry_rememberAll]
    exact con.registry

/-! ## 2. Operations -/

/-- One operation, and the codec it leaves. -/
inductive Step (c : Codec) : Codec → Prop
  | layout (mode : Mode) (id : RecordId) : Step c (c.layout mode id).2
  | register (b : Binding) : Step c (c.register b).2
  | unregister (tag : Int8) (host : Host) : Step c (c.unregister tag host).2
  | encode (t : Ty) (d : Datum) (mode : Mode) : Step c (c.encode t d mode).2
  | encodedLength (t : Ty) (d : Datum) (mode : Mode) : Step c (c.encodedLength t d mode).2
  | encodeSteps (sizing writing : List MessagePack.Step) (mode : Mode) :
      Step c (c.encodeSteps sizing writing mode).2
  | decodeInto (t : Ty) (d : Datum) (input : List UInt8) (mode : Mode) :
      Step c (c.decodeInto t d input mode).2.2
  | decode (t : Ty) (input : List UInt8) (mode : Mode) : Step c (c.decode t input mode).2
  | decodeValue (input : List UInt8) : Step c (c.decodeValue input).2
  | decodeCalls (calls : List Call) (input : List UInt8) (mode : Mode) :
      Step c (c.decodeCalls calls input mode).2.2

/-- A codec after any operations in any order. -/
inductive Reachable : Codec → Prop
  | fresh (catalog : Catalog) : Reachable (fresh catalog)
  | step {c c' : Codec} (before : Reachable c) (step : Step c c') : Reachable c'

/-- No operation breaks it. -/
theorem Step.consistent {c' : Codec} (step : Step c c') (con : c.Consistent) : c'.Consistent := by
  cases step with
  | layout mode id => exact con.remember mode id
  | register b => exact ⟨con.resolved, con.registry.register b⟩
  | unregister tag host => exact ⟨con.resolved, con.registry.unregister tag host⟩
  | encode | encodedLength | encodeSteps | decodeInto | decode | decodeValue | decodeCalls =>
    exact con.rememberAll _ _

/-- **Whatever operations were made, the codec is consistent.** -/
theorem Reachable.consistent (reachable : c.Reachable) : c.Consistent := by
  induction reachable with
  | fresh catalog => exact consistent_fresh catalog
  | step _ step ih => exact step.consistent ih

/-- **What an operation sees of a reachable codec is settled by its catalog and registry.** -/
theorem Reachable.context_eq (reachable : c.Reachable) (mode : Mode) :
    c.context mode = ⟨c.catalog, mode, fun id => .resolve c.catalog id mode, c.registry⟩ := by
  unfold context
  congr 1
  exact funext fun id => reachable.consistent.resolved mode id

end Codec

end MessagePack
