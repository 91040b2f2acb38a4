import MessagePack.Proofs.Decode.Nil
import MessagePack.Proofs.Record.Alter
/-!
# Patches

A patch changes a datum of a type by overwriting parts of it and keeping the rest.  Which parts it
overwrites, and with what, does not depend on the datum, with one exception: a part of an option may
be patched with the option filled beforehand, or only if it is filled.

Patches are made of patches of parts.  So are two patches after one another, and a patch made twice
is the same as made once.

Main statements: `Catalog.Patch.comp`, `Catalog.Patch.idem` and `Catalog.Patch.alter`.
-/

namespace MessagePack

namespace Datum

variable {d : Datum} {f g : Datum → Datum} {fs gs : Nat → Datum → Datum}

/-- An option with what it holds changed, if it holds something. -/
def alterHeld (f : Datum → Datum) : Datum → Datum
  | .present x => .present (f x)
  | d => d

/-- A record with each field changed by the function for its place. -/
def alterFields (fs : Nat → Datum → Datum) : Datum → Datum
  | .record fields => .record (fields.mapIdx fs)
  | d => d

/-- Changes of what an option holds add up, -/
theorem alterHeld_alterHeld : (d.alterHeld f).alterHeld g = d.alterHeld fun x => g (f x) := by
  cases d <;> rfl

/-- those of fields, -/
theorem alterFields_alterFields :
    (d.alterFields fs).alterFields gs = d.alterFields fun i x => gs i (fs i x) := by
  cases d with
  | record fields => exact congrArg Datum.record List.mapIdx_mapIdx
  | _ => rfl

theorem alterField_eq_alterFields (i : Nat) (f : Datum → Datum) (d : Datum) :
    d.alterField i f = d.alterFields fun j x => if i = j then f x else x := by
  cases d with
  | record fields =>
    refine congrArg Datum.record (List.ext_getElem? fun j => ?_)
    rw [List.getElem?_modify, List.getElem?_mapIdx]
    rfl
  | _ => rfl

end Datum

namespace Catalog

open Datum

variable {c : Catalog} {id inner : RecordId} {t : Ty} {ts : List Ty} {f g : Datum → Datum}
  {fs gs : Nat → Datum → Datum} {fresh : Bool}

/-- The parts of a tuple, each changed by the function for its place; a part that is missing counts
as a fresh one. -/
def alterParts (c : Catalog) : List Ty → (Nat → Datum → Datum) → List Datum → List Datum
  | [], _, ds => ds
  | t :: ts, fs, ds =>
    fs 0 (ds.headD (c.initial t)) :: c.alterParts ts (fun i => fs (i + 1)) ds.tail

/-- and those of parts. -/
theorem alterParts_alterParts (ds : List Datum) : c.alterParts ts gs (c.alterParts ts fs ds) =
    c.alterParts ts (fun i x => gs i (fs i x)) ds := by
  induction ts generalizing fs gs ds with
  | nil => rfl
  | cons t ts ih => exact congrArg (gs 0 (fs 0 _) :: ·) (ih ds.tail)

theorem alterParts_congr (same : ∀ i t, ts[i]? = some t → fs i = gs i) (ds : List Datum) :
    c.alterParts ts fs ds = c.alterParts ts gs ds := by
  induction ts generalizing fs gs ds with
  | nil => rfl
  | cons t ts ih =>
    rw [alterParts, alterParts, same 0 t rfl, ih fun i u part => same (i + 1) u part]

/-! ## 1. Patches of a type -/

/-- The function overwrites parts of a datum of this type and keeps the rest. -/
inductive Patch (c : Catalog) : Ty → (Datum → Datum) → Prop
  | keep {t : Ty} {g : Datum → Datum} (is : ∀ d, g d = d) : Patch c t g
  | write {t : Ty} {g : Datum → Datum} (x : Datum) (is : ∀ d, g d = x) : Patch c t g
  /-- A clock time that is told anew. -/
  | clock {g : Datum → Datum} (is : ∀ d, g d = .clockTime d.asClockTime) : Patch c .clockTime g
  | box {t : Ty} {g : Datum → Datum} (held : Patch c t g) : Patch c (.box t) g
  /-- An option that is filled beforehand, if it holds nothing. -/
  | fill {t : Ty} {f g : Datum → Datum} (held : Patch c t f)
      (is : ∀ d, g d = .present (f (d.held?.getD (c.initial t)))) : Patch c (.option t) g
  /-- An option that stays as it is, if it holds nothing. -/
  | within {t : Ty} {f g : Datum → Datum} (held : Patch c t f)
      (zero : f (c.initial t) = c.initial t)
      (is : ∀ d, g d = d.alterHeld f) : Patch c (.option t) g
  | parts {ts : List Ty} {fs : Nat → Datum → Datum} {g : Datum → Datum}
      (each : ∀ i t, ts[i]? = some t → Patch c t (fs i))
      (is : ∀ d, g d = .seq (c.alterParts ts fs d.items)) : Patch c (.tuple ts) g
  | fields {id : RecordId} {fs : Nat → Datum → Datum} {g : Datum → Datum}
      (each : ∀ i fd, c.field? id i = some fd → Patch c fd.type (fs i))
      (others : ∀ i, c.field? id i = none → ∀ x, fs i x = x)
      (is : ∀ d, g d = d.alterFields fs) : Patch c (.record id) g

namespace Patch

/-- A patch may be told in other words. -/
theorem congr (hf : c.Patch t f) (same : ∀ d, g d = f d) : c.Patch t g := by
  rwa [funext same]

/-- **Two patches after one another are a patch.** -/
theorem comp (hg : c.Patch t g) (hf : c.Patch t f) : c.Patch t fun d => g (f d) := by
  induction hg generalizing f with
  | keep is => exact hf.congr fun d => is _
  | write y is => exact .write y fun d => is _
  | clock is =>
    cases hf with
    | keep is' => exact .clock fun d => by rw [is, is']
    | write x is' => exact .write _ fun d => by rw [is']
    | clock is' => exact .clock fun d => by rw [is, is']; rfl
  | box held ih =>
    cases hf with
    | keep is' => exact .box (held.congr fun d => by rw [is'])
    | write x is' => exact .write _ fun d => by rw [is']
    | box held' => exact .box (ih held')
  | @fill t p g held is ih =>
    cases hf with
    | keep is' => exact .fill held fun d => by rw [is', is]
    | write x is' => exact .write _ fun d => by rw [is']
    | fill held' is' => exact .fill (ih held') fun d => by rw [is, is']; rfl
    | within held' zero is' =>
      -- the first patch leaves alone what the second fills in
      refine .fill (ih held') fun d => ?_
      rw [is, is']
      cases d with
      | present x => rfl
      | _ => exact congrArg (fun y => Datum.present (p y)) zero.symm
  | within held zero is ih =>
    cases hf with
    | keep is' => exact .within held zero fun d => by rw [is', is]
    | write x is' => exact .write _ fun d => by rw [is']
    | fill held' is' => exact .fill (ih held') fun d => by rw [is, is']; rfl
    | within held' zero' is' =>
      exact .within (ih held') (by rw [zero', zero]) fun d => by
        rw [is, is', alterHeld_alterHeld]
  | parts each is ih =>
    cases hf with
    | keep is' => exact .parts each fun d => by rw [is', is]
    | write x is' => exact .write _ fun d => by rw [is']
    | parts each' is' =>
      refine .parts (fun i t part => ih i t part (each' i t part)) fun d => ?_
      rw [is, is']
      exact congrArg Datum.seq (alterParts_alterParts d.items)
  | fields each others is ih =>
    cases hf with
    | keep is' => exact .fields each others fun d => by rw [is', is]
    | write x is' => exact .write _ fun d => by rw [is']
    | fields each' others' is' =>
      refine .fields (fun i fd field => ih i fd field (each' i fd field)) ?_ fun d => ?_
      · intro i undeclared x
        rw [others' i undeclared, others i undeclared]
      · rw [is, is', alterFields_alterFields]

/-- **A patch made twice is the same as made once.** -/
theorem idem (hf : c.Patch t f) (d : Datum) : f (f d) = f d := by
  induction hf generalizing d with
  | keep is => rw [is]
  | write x is => rw [is, is]
  | clock is =>
    rw [is, is]
    rfl
  | box _ ih => exact ih d
  | fill _ is ih =>
    rw [is, is]
    exact congrArg Datum.present (ih _)
  | within _ _ is ih =>
    rw [is, is, alterHeld_alterHeld]
    simp only [ih]
  | parts _ is ih =>
    rw [is, is]
    refine congrArg Datum.seq ((alterParts_alterParts d.items).trans ?_)
    exact alterParts_congr (fun i t part => funext (ih i t part)) d.items
  | @fields id fs g _ others is ih =>
    rw [is, is, alterFields_alterFields]
    congr 1
    funext i x
    cases field : c.field? id i with
    | some fd => exact ih i fd field x
    | none => rw [others i field, others i field]

/-! ## 2. Nil -/

/-- Nil is a patch of every type. -/
theorem afterNil (c : Catalog) : ∀ t : Ty, c.Patch t (c.afterNil t)
  | .box t => .box (afterNil c t)
  | .clockTime => .clock fun _ => rfl
  | .timestamp | .tuple _ | .record _ => .keep fun _ => rfl
  | .bool | .number _ | .text | .bytes | .dynamic | .list _ | .array _ _ | .option _
  | .map _ _ _ => .write _ fun _ => rfl

/-! ## 3. The ends of paths -/

/-- A record is patched at one field. -/
theorem field {i : Nat} {fd : FieldDecl} (field : c.field? id i = some fd)
    (hf : c.Patch fd.type f) : c.Patch (.record id) (alterField i f) := by
  refine .fields (fun j gd there => ?_) (fun j undeclared x => ?_) (alterField_eq_alterFields i f)
  · by_cases same : i = j
    · subst same
      cases field.symm.trans there
      exact hf.congr fun x => if_pos rfl
    · exact .keep fun x => if_neg same
  · refine if_neg ?_
    rintro rfl
    rw [undeclared] at field
    cases field

/-- A record in an embedding field is patched, by a patch that leaves a fresh one alone if it is
dropped where the record is absent. -/
theorem alterInner (hf : c.Patch (.record inner) f)
    (keeps : fresh = false → f (c.initial (.record inner)) = c.initial (.record inner)) :
    ∀ {t : Ty}, t.embedded? = some inner → c.Patch t (c.alterInner fresh t f)
  | .record _, embeds => by
    cases embeds
    cases fresh <;> exact hf.congr fun x => rfl
  | .box t, embeds => .box (alterInner hf keeps (t := t) embeds)
  | .option t, embeds => by
    have held := alterInner hf keeps (t := t) embeds
    cases fresh with
    | true => exact .fill held fun x => rfl
    | false =>
      refine .within held (alterInner_initial embeds (keeps rfl)) fun d => ?_
      cases d with
      | present x =>
        cases inside : t.recordIn? x with
        | none =>
          have missing : c.inner? false t x = none := inside
          rw [alterHeld, alterInner_of_missing missing]
          exact alterInner_of_missing inside
        | some r =>
          have found : c.inner? false t x = some r := inside
          rw [alterHeld, alterInner_eq found]
          exact alterInner_eq (t := .option t) inside
      | _ => rfl

/-- **A record is patched at the end of a path.** -/
theorem alter {h : Ty → Datum → Datum} (zero : c.ZeroDefaults) (hf : ∀ t, c.Patch t (h t))
    (keeps : fresh = false → ∀ t, h t (c.initial t) = c.initial t) (id : RecordId) (p : List Nat) :
    c.Patch (.record id) (c.alter fresh h id p) := by
  induction p generalizing id with
  | nil => exact .keep fun d => by rw [Catalog.alter]
  | cons i rest ih =>
    rcases eq_or_ne rest [] with rfl | some'
    · cases direct : c.direct? id i with
      | none => exact .keep fun d => by rw [Catalog.alter, direct]
      | some fd =>
        exact (field (direct?_eq_some direct) (hf fd.type)).congr fun d => alter_own direct
    · cases enter : c.enter? id i with
      | none => exact .keep fun d => alter_of_shut some' enter
      | some found =>
        obtain ⟨t, inner⟩ := found
        obtain ⟨fd, here, rfl, embeds⟩ := enter?_eq_some enter
        have alone : fresh = false →
            c.alter fresh h inner rest (c.initial (.record inner)) = c.initial (.record inner) := by
          rintro rfl
          exact alter_initial zero (keeps rfl)
        have patched := field here ((ih inner).alterInner alone embeds)
        exact patched.congr fun d => alter_within some' enter

end Patch

end Catalog

end MessagePack
