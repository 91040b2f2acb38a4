import Mathlib.Data.List.Basic
import MessagePack.Proofs.Record.Places
/-!
# Changes at the ends of paths

`Catalog.alter` changes what stands at the end of a path by a function and leaves alone what lies
beside the path.  An embedded record on the way that is absent comes into being for the change, or
the change is dropped; `fresh` says which.

Two changes, at the ends of paths of which neither leads through the other, can be made in either
order.  They may meet in an embedded record that is absent, one of them to be dropped there: in one
order it is dropped, in the other it finds the record that the other change brought into being.  So
it takes that a change that may be dropped leaves alone what is fresh, in fields as elsewhere.

Main statements: `Catalog.alter_comm`, and `Catalog.put_of_reach` and its siblings, which find the
changes in reaching and putting.
-/

namespace MessagePack

/-! ## 1. One field -/

namespace Datum

variable {d x : Datum} {i j : Nat} {f g : Datum → Datum}

/-- The record with one field changed, if it has that field. -/
def alterField (i : Nat) (f : Datum → Datum) : Datum → Datum
  | .record fields => .record (fields.modify i f)
  | d => d

/-- To change a field is to set it. -/
theorem alterField_eq (here : d.fields[i]? = some x) : d.alterField i f = d.setField i (f x) := by
  cases d with
  | record fields =>
    change fields[i]? = some x at here
    rw [alterField, List.modify_eq_set_getElem?, here]
    rfl
  | _ => cases here

/-- A change that changes nothing leaves the record. -/
theorem alterField_of_fixed (fixed : ∀ x, d.fields[i]? = some x → f x = x) :
    d.alterField i f = d := by
  cases d with
  | record fields =>
    rw [alterField, List.modify_eq_set_getElem?]
    cases here : fields[i]? with
    | none => rfl
    | some x =>
      have same : fields.set i (f x) = fields := by
        rw [fixed x here, Catalog.set_eq_self here]
      exact congrArg Datum.record same
  | _ => rfl

/-- Changes of one field add up, -/
theorem alterField_alterField :
    (d.alterField i g).alterField i f = d.alterField i fun x => f (g x) := by
  cases d with
  | record fields => exact congrArg Datum.record (List.modify_modify_eq g f i fields)
  | _ => rfl

/-- and those of two do not meet. -/
theorem alterField_comm (ne : i ≠ j) :
    (d.alterField j g).alterField i f = (d.alterField i f).alterField j g := by
  cases d with
  | record fields => exact congrArg Datum.record (List.modify_modify_ne g f fields ne.symm)
  | _ => rfl

end Datum

/-! ## 2. The record in an embedding field -/

namespace Catalog

open Datum

variable {c : Catalog} {id inner : RecordId} {t : Ty} {i : Nat} {d x r : Datum}
  {p q rest : List Nat} {fresh fresh' : Bool}

/-- The record that an embedding field holds, or a fresh one if it holds none and one may come into
being. -/
def inner? (c : Catalog) (fresh : Bool) (t : Ty) (x : Datum) : Option Datum :=
  if fresh then some (c.allocate t x) else t.recordIn? x

theorem inner?_of_recordIn (embeds : t.embedded? = some inner) (inside : t.recordIn? x = some r) :
    c.inner? fresh t x = some r := by
  cases fresh with
  | false => exact inside
  | true => rw [inner?, if_pos rfl, allocate_eq embeds, inside, Option.getD_some]

/-- A record that comes into being is a fresh one. -/
theorem inner?_of_absent (embeds : t.embedded? = some inner) (absent : t.recordIn? x = none) :
    c.inner? true t x = some (c.initial (.record inner)) := by
  rw [inner?, if_pos rfl, allocate_eq embeds, absent, Option.getD_none]

theorem inner?_holding (embeds : t.embedded? = some inner) :
    c.inner? fresh t (t.holding r) = some r :=
  inner?_of_recordIn embeds (recordIn?_holding embeds)

/-- The datum of an embedding field with the record in it changed. -/
def alterInner (c : Catalog) (fresh : Bool) (t : Ty) (f : Datum → Datum) (x : Datum) : Datum :=
  match c.inner? fresh t x with
  | some r => t.holding (f r)
  | none => x

variable {f g : Datum → Datum}

/-- An embedded record that is there is changed in its place. -/
theorem alterInner_eq (found : c.inner? fresh t x = some r) :
    c.alterInner fresh t f x = t.holding (f r) := by
  rw [alterInner, found]

/-- One that is not there is not. -/
theorem alterInner_of_missing (missing : c.inner? fresh t x = none) :
    c.alterInner fresh t f x = x := by
  rw [alterInner, missing]

/-- **The record in a field can be changed in either order**, if a change that may be dropped leaves
a fresh one alone. -/
theorem alterInner_comm (embeds : t.embedded? = some inner) (comm : ∀ r, f (g r) = g (f r))
    (keeps : fresh = false → f (c.initial (.record inner)) = c.initial (.record inner))
    (keeps' : fresh' = false → g (c.initial (.record inner)) = c.initial (.record inner)) :
    c.alterInner fresh t f (c.alterInner fresh' t g x) =
      c.alterInner fresh' t g (c.alterInner fresh t f x) := by
  have both : ∀ r, c.inner? fresh t x = some r → c.inner? fresh' t x = some r →
      c.alterInner fresh t f (c.alterInner fresh' t g x) =
        c.alterInner fresh' t g (c.alterInner fresh t f x) := by
    intro r found found'
    rw [alterInner_eq found, alterInner_eq found', alterInner_eq (inner?_holding embeds),
      alterInner_eq (inner?_holding embeds), comm]
  cases inside : t.recordIn? x with
  | some r => exact both r (inner?_of_recordIn embeds inside) (inner?_of_recordIn embeds inside)
  | none =>
    have missing : c.inner? false t x = none := inside
    have found := inner?_of_absent (c := c) embeds inside
    cases fresh with
    | true =>
      cases fresh' with
      | true => exact both _ found found
      | false =>
        rw [alterInner_of_missing missing, alterInner_eq found,
          alterInner_eq (inner?_holding embeds), ← comm, keeps' rfl]
    | false =>
      cases fresh' with
      | true =>
        rw [alterInner_of_missing missing, alterInner_eq found,
          alterInner_eq (inner?_holding embeds), comm, keeps rfl]
      | false => simp only [alterInner_of_missing missing]

/-- A change that is dropped where a record is absent leaves alone what is fresh, if it leaves a
fresh record alone. -/
theorem alterInner_initial (embeds : t.embedded? = some inner)
    (keeps : f (c.initial (.record inner)) = c.initial (.record inner)) :
    c.alterInner false t f (c.initial t) = c.initial t := by
  cases inside : t.recordIn? (c.initial t) with
  | none => exact alterInner_of_missing inside
  | some r =>
    rw [alterInner_eq (inner?_of_recordIn embeds inside), recordIn?_initial embeds inside, keeps,
      ← recordIn?_initial embeds inside]
    exact holding_of_recordIn inside

/-! ## 3. The end of a path -/

/-- The record with the datum at the end of a path changed; the change is told the type there. -/
def alter (c : Catalog) (fresh : Bool) (f : Ty → Datum → Datum) :
    RecordId → List Nat → Datum → Datum
  | _, [], d => d
  | id, [i], d =>
    match c.direct? id i with
    | some g => d.alterField i (f g.type)
    | none => d
  | id, i :: j :: rest, d =>
    match c.enter? id i with
    | some (t, inner) => d.alterField i (c.alterInner fresh t (c.alter fresh f inner (j :: rest)))
    | none => d

variable {f g : Ty → Datum → Datum} {decl : FieldDecl}

/-- At its end a path changes a field. -/
theorem alter_own (direct : c.direct? id i = some decl) :
    c.alter fresh f id [i] d = d.alterField i (f decl.type) := by
  rw [alter, direct]

/-- Before its end it goes into a record. -/
theorem alter_within (some' : rest ≠ []) (enter : c.enter? id i = some (t, inner)) :
    c.alter fresh f id (i :: rest) d =
      d.alterField i (c.alterInner fresh t (c.alter fresh f inner rest)) := by
  cases rest with
  | nil => exact (some' rfl).elim
  | cons j rest => rw [alter, enter]

/-- If there is none to go into it changes nothing. -/
theorem alter_of_shut (some' : rest ≠ []) (shut : c.enter? id i = none) :
    c.alter fresh f id (i :: rest) d = d := by
  cases rest with
  | nil => exact (some' rfl).elim
  | cons j rest => rw [alter, shut]

/-- Wherever a path ends, it is the first field on it that changes. -/
theorem exists_alterField (c : Catalog) (fresh : Bool) (f : Ty → Datum → Datum) (id : RecordId)
    (i : Nat) (rest : List Nat) :
    ∃ h, ∀ d, c.alter fresh f id (i :: rest) d = d.alterField i h := by
  have unchanged : ∀ d : Datum, d = d.alterField i fun x => x := fun d =>
    (alterField_of_fixed fun x _ => rfl).symm
  cases rest with
  | nil =>
    cases direct : c.direct? id i with
    | some g => exact ⟨_, fun d => alter_own direct⟩
    | none => exact ⟨_, fun d => by rw [alter, direct]; exact unchanged d⟩
  | cons j rest =>
    cases enter : c.enter? id i with
    | some found => exact ⟨_, fun d => alter_within (List.cons_ne_nil j rest) enter⟩
    | none =>
      exact ⟨_, fun d => (alter_of_shut (List.cons_ne_nil j rest) enter).trans (unchanged d)⟩

/-- **A change that is dropped where a record is absent, and that leaves zeros alone, leaves a fresh
record alone**, if that is made of zeros. -/
theorem alter_initial (zero : c.ZeroDefaults) (keeps : ∀ t, f t (c.initial t) = c.initial t) :
    c.alter false f id p (c.initial (.record id)) = c.initial (.record id) := by
  induction p generalizing id with
  | nil => rw [alter]
  | cons i rest ih =>
    rcases eq_or_ne rest [] with rfl | some'
    · cases direct : c.direct? id i with
      | none => rw [alter, direct]
      | some fd =>
        rw [alter_own direct]
        refine alterField_of_fixed fun x here => ?_
        rw [(Holds.own (direct?_eq_some direct) here).eq_initial zero]
        exact keeps fd.type
    · cases enter : c.enter? id i with
      | none => exact alter_of_shut some' enter
      | some found =>
        obtain ⟨t, inner⟩ := found
        rw [alter_within some' enter]
        refine alterField_of_fixed fun x here => ?_
        obtain ⟨fd, field, rfl, embeds⟩ := enter?_eq_some enter
        rw [(Holds.own field here).eq_initial zero]
        exact alterInner_initial embeds ih

/-- **Changes at the ends of two paths can be made in either order**, if neither path leads through
the other and a change that may be dropped leaves zeros alone. -/
theorem alter_comm (zero : c.ZeroDefaults) (apart : ¬ p <+: q) (apart' : ¬ q <+: p)
    (keeps : fresh = false → ∀ t, f t (c.initial t) = c.initial t)
    (keeps' : fresh' = false → ∀ t, g t (c.initial t) = c.initial t) :
    c.alter fresh f id p (c.alter fresh' g id q d) =
      c.alter fresh' g id q (c.alter fresh f id p d) := by
  induction p generalizing q id d with
  | nil => exact (apart List.nil_prefix).elim
  | cons i p ih =>
    cases q with
    | nil => exact (apart' List.nil_prefix).elim
    | cons j q =>
      -- side by side as long as the paths go together, field by field where they part
      rcases eq_or_ne i j with rfl | ne
      · rw [List.prefix_cons_inj] at apart apart'
        have some' : p ≠ [] := fun e => apart (e ▸ List.nil_prefix)
        have some'' : q ≠ [] := fun e => apart' (e ▸ List.nil_prefix)
        cases enter : c.enter? id i with
        | none => simp only [alter_of_shut some' enter, alter_of_shut some'' enter]
        | some found =>
          obtain ⟨t, inner⟩ := found
          obtain ⟨-, -, -, embeds⟩ := enter?_eq_some enter
          simp only [alter_within some' enter, alter_within some'' enter, alterField_alterField]
          congr 1
          funext x
          refine alterInner_comm embeds (fun r => ih apart apart') ?_ ?_
          · rintro rfl
            exact alter_initial zero (keeps rfl)
          · rintro rfl
            exact alter_initial zero (keeps' rfl)
      · obtain ⟨h, first⟩ := c.exists_alterField fresh f id i p
        obtain ⟨h', second⟩ := c.exists_alterField fresh' g id j q
        simp only [first, second]
        exact alterField_comm ne

/-! ## 4. Reaching and putting -/

/-- A path of one step does not go through embedded records. -/
theorem alter_of_short (short : p.length ≤ 1) :
    c.alter fresh f id p d = c.alter fresh' f id p d := by
  rcases p with _ | ⟨i, _ | ⟨j, rest⟩⟩
  · rw [alter, alter]
  · rw [alter, alter]
  · simp at short

/-- Where the end of a path is found, nothing has to come into being. -/
theorem alter_of_lookup {found : Ty × Datum} (there : c.lookup id p d = some found) :
    c.alter fresh f id p d = c.alter fresh' f id p d := by
  induction p generalizing id d with
  | nil => exact alter_of_short (Nat.zero_le 1)
  | cons i rest ih =>
    rcases eq_or_ne rest [] with rfl | some'
    · exact alter_of_short (Nat.le_refl 1)
    · cases enter : c.enter? id i with
      | none => rw [alter_of_shut some' enter, alter_of_shut some' enter]
      | some found =>
        obtain ⟨t, inner⟩ := found
        rw [lookup_within some' enter] at there
        obtain ⟨x, here, there⟩ := Option.bind_eq_some_iff.1 there
        obtain ⟨r, inside, there⟩ := Option.bind_eq_some_iff.1 there
        obtain ⟨-, -, -, embeds⟩ := enter?_eq_some enter
        rw [alter_within some' enter, alter_within some' enter, alterField_eq here,
          alterField_eq here, alterInner_eq (inner?_of_recordIn embeds inside),
          alterInner_eq (inner?_of_recordIn embeds inside), ih there]

/-- Where the end of a path is not found, a change that may be dropped is dropped. -/
theorem alter_of_missing (missing : c.lookup id p d = none) : c.alter false f id p d = d := by
  induction p generalizing id d with
  | nil => rw [alter]
  | cons i rest ih =>
    rcases eq_or_ne rest [] with rfl | some'
    · cases direct : c.direct? id i with
      | none => rw [alter, direct]
      | some fd =>
        rw [lookup_own direct, Option.map_eq_none_iff] at missing
        rw [alter_own direct]
        refine alterField_of_fixed fun x here => ?_
        rw [missing] at here
        cases here
    · cases enter : c.enter? id i with
      | none => exact alter_of_shut some' enter
      | some found =>
        obtain ⟨t, inner⟩ := found
        obtain ⟨-, -, -, embeds⟩ := enter?_eq_some enter
        rw [lookup_within some' enter] at missing
        rw [alter_within some' enter]
        refine alterField_of_fixed fun x here => ?_
        rw [here, Option.bind_some] at missing
        cases inside : t.recordIn? x with
        | none => exact alterInner_of_missing inside
        | some r =>
          rw [inside, Option.bind_some] at missing
          rw [alterInner_eq (inner?_of_recordIn embeds inside), ih missing]
          exact holding_of_recordIn inside

/-- **What is reached, changed and put back is what a change at the end of the path gives.** -/
theorem put_of_reach {name : String} {left : Datum}
    (reached : c.reach name id p d = (.ok (t, x), left)) :
    c.put id p left (f t x) = c.alter true f id p d := by
  induction p generalizing id d left with
  | nil => cases reached
  | cons i rest ih =>
    cases here : d.fields[i]? with
    | none =>
      cases rest <;> simp [reach, here] at reached
    | some y =>
      rcases eq_or_ne rest [] with rfl | some'
      · cases direct : c.direct? id i with
        | none => simp [reach, direct] at reached
        | some fd =>
          rw [reach, direct, here] at reached
          cases reached
          rw [alter_own direct, alterField_eq here, put]
      · cases enter : c.enter? id i with
        | none => cases rest <;> simp_all [reach]
        | some found =>
          obtain ⟨u, inner⟩ := found
          obtain ⟨-, -, -, embeds⟩ := enter?_eq_some enter
          rw [reach_within some' enter here] at reached
          obtain ⟨found, rfl⟩ := Prod.mk.inj reached
          rw [put_within some' enter (getElem?_setField here), setField_setField,
            allocate_holding embeds, ih (Prod.ext found rfl), alter_within some' enter,
            alterField_eq here]
          rfl

end Catalog

end MessagePack
