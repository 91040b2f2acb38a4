import Mathlib.Data.List.Pairwise
import MessagePack.Proofs.Decode.Changes
import MessagePack.Proofs.Decode.Frame
/-!
# The order of entries does not matter

The entries of a map can be read into a record in any order, if no name is spelled by two of them.

Each entry makes a change to the record that is settled by the bytes of its key and its value
(`InPlace.entryChange`), and reading the map makes the changes of its entries one after another.
Changes for two slots can be made in either order.  They may meet in an optional embedded record
that is absent: a nil for one of its fields is dropped there, but in the other order it finds the
record that another entry brought into being.  That record is fresh, and nil leaves its zeros alone,
if fresh records are made of zeros.

Main statements: `InPlace.eitherOrder_of_apart` and `Codec.decodeInto_record_order`.
-/

namespace MessagePack

/-- The value is a text that spells this name. -/
def WireValue.SpellsText (w : WireValue) (name : String) : Prop :=
  w.header.isText = true ∧ w.header.Holds w.body (utf8Bytes name)

/-! ## 1. What an entry makes of a record -/

namespace Datum

open Parse Decoded

variable {cx : Context} {n : Nat} {t : Ty} {x : Datum}

/-- What reading these bytes leaves of a destination; one that does not take them stays. -/
def readChange (cx : Context) (n : Nat) (u : List UInt8) (t : Ty) (x : Datum) : Datum :=
  if u = [Header.nil.toByte] then cx.catalog.afterNil t x
  else ((parse (read cx n t x)).result? u).getD x

/-- Nil leaves zeros alone. -/
theorem readChange_nil_initial (t : Ty) :
    readChange cx n [Header.nil.toByte] t (cx.catalog.initial t) = cx.catalog.initial t := by
  rw [readChange, if_pos rfl, cx.catalog.afterNil_initial]

theorem sound_readChange (cx : Context) (n : Nat) (t : Ty) (x : Datum) :
    (parse (read cx n t x)).Sound fun u y => y = readChange cx n u t x := by
  refine (whole_read cx n t x).takes.mono ?_
  rintro u y ⟨-, takes⟩
  unfold readChange
  split
  · rename_i nil
    subst nil
    exact eq_afterNil_of_takes takes
  · rw [takes.result, Option.getD_some]

end Datum

namespace InPlace

open Parse Read Decoded WireValue Datum

variable {cx : Context} {n : Nat} {id : RecordId} {layout : Layout} {d x : Datum}
  {e e' : WireValue × WireValue} {es es' : List (WireValue × WireValue)}
  {ss : List Slot} {s t : Slot}

/-- The slot that a key names, if it names one. -/
def slotOf (layout : Layout) (key : WireValue) : Option Slot :=
  ((slotNamed layout).parse.result? key.bytes).join

/-- What an entry makes of a record. -/
def entryChange (cx : Context) (n : Nat) (id : RecordId) (layout : Layout)
    (e : WireValue × WireValue) (d : Datum) : Datum :=
  slotChange cx.catalog (readChange cx n) id e.2.bytes (slotOf layout e.1) d

/-- **Entries that are read make their changes one after another.** -/
theorem Enters.eq_foldl (enters : Enters cx (read cx n) id layout es d x) :
    x = es.foldl (fun d e => entryChange cx n id layout e d) d := by
  induction enters with
  | nil => rfl
  | @cons e es found d mid x key value rest ih =>
    have named : slotOf layout e.1 = found := by rw [slotOf, key.result, Option.join_some]
    have changed : mid = entryChange cx n id layout e d := by
      rw [entryChange, named]
      exact (sound_slotOrSkip_change (sound_readChange cx n) (whole_read cx n) d found).holds value
    rw [ih, List.foldl_cons, changed]

/-- Each key of entries that are read is one. -/
theorem Enters.key {r : Ty → InPlace} (enters : Enters cx r id layout es d x) (mem : e ∈ es) :
    (slotNamed layout).parse.Takes e.1.bytes (slotOf layout e.1) := by
  induction enters with
  | nil => cases mem
  | cons key value rest ih =>
    rcases List.mem_cons.1 mem with rfl | later
    · rwa [slotOf, key.result, Option.join_some]
    · exact ih later

/-! ## 2. Two entries -/

/-- A key that names a slot is a text that spells its name. -/
theorem Spells.text {key : WireValue} (spells : Spells ss key.bytes (some s))
    (formed : key.Formed) : s ∈ ss ∧ key.SpellsText s.name := by
  obtain ⟨mem, b, body, e, text, holds⟩ := spells s rfl
  obtain ⟨front, own, inside⟩ := key
  obtain ⟨rfl, rest⟩ := List.cons.inj e
  have empty : inside = [] := formed.inside_eq_nil holds.flat
  rw [empty, bytesAll, List.append_nil] at rest
  exact ⟨mem, text, rest ▸ holds⟩

/-- The changes of two entries can be made in either order. -/
def EitherOrder (cx : Context) (n : Nat) (id : RecordId) (layout : Layout)
    (e e' : WireValue × WireValue) : Prop :=
  ∀ d, entryChange cx n id layout e' (entryChange cx n id layout e d) =
    entryChange cx n id layout e (entryChange cx n id layout e' d)

theorem EitherOrder.symm (either : EitherOrder cx n id layout e e') :
    EitherOrder cx n id layout e' e :=
  fun d => (either d).symm

/-- **Entries for two slots make their changes in either order.** -/
theorem eitherOrder_of_apart (zero : cx.catalog.ZeroDefaults) (slots : slotOf layout e.1 = some s)
    (slots' : slotOf layout e'.1 = some t) (apart : ¬ s.path <+: t.path)
    (apart' : ¬ t.path <+: s.path) : EitherOrder cx n id layout e e' := by
  have keeps : ∀ {u : List UInt8}, decide (u ≠ [Header.nil.toByte]) = false →
      ∀ t, readChange cx n u t (cx.catalog.initial t) = cx.catalog.initial t := by
    intro u nil t
    rw [not_not.1 (of_decide_eq_false nil)]
    exact readChange_nil_initial t
  intro d
  unfold entryChange
  rw [slots, slots']
  exact Catalog.alter_comm zero apart' apart keeps keeps

/-- An entry that names no slot changes nothing, before another or after it. -/
theorem eitherOrder_of_unnamed (unnamed : slotOf layout e.1 = none) :
    EitherOrder cx n id layout e e' := by
  have same : ∀ d, entryChange cx n id layout e d = d := fun d => by
    rw [entryChange, unnamed, slotChange]
  intro d
  rw [same, same]

/-! ## 3. All entries -/

/-- **Entries that spell different names of fields can be read in any order.** -/
theorem Enters.perm (zero : cx.catalog.ZeroDefaults)
    (resolved : layout = Layout.resolve cx.catalog id .named)
    (enters : Enters cx (read cx n) id layout es d x) (formed : ∀ e ∈ es, e.1.Formed)
    (distinct : es.Pairwise fun e e' => ∀ s ∈ layout.slots,
      e.1.SpellsText s.name → ¬ e'.1.SpellsText s.name)
    (perm : es.Perm es') {y : Datum} (enters' : Enters cx (read cx n) id layout es' d y) :
    x = y := by
  have spelled : ∀ e ∈ es, ∀ s, slotOf layout e.1 = some s →
      s ∈ layout.slots ∧ e.1.SpellsText s.name := by
    intro e mem s named
    have takes := enters.key mem
    rw [named] at takes
    exact ((sound_slotNamed resolved).holds takes).2.text (formed e mem)
  have either : es.Pairwise (EitherOrder cx n id layout) := by
    refine distinct.imp_of_mem fun {e e'} mem mem' differ => ?_
    cases named : slotOf layout e.1 with
    | none => exact eitherOrder_of_unnamed named
    | some s =>
      cases named' : slotOf layout e'.1 with
      | none => exact (eitherOrder_of_unnamed named').symm
      | some t =>
        obtain ⟨hs, text⟩ := spelled e mem s named
        obtain ⟨ht, text'⟩ := spelled e' mem' t named'
        have ne : s ≠ t := by
          rintro rfl
          exact differ s hs text text'
        rw [resolved] at hs ht
        exact eitherOrder_of_apart zero named named' (fun le => ne (Layout.eq_of_isPrefix hs ht le))
          fun le => ne (Layout.eq_of_isPrefix ht hs le).symm
  have : Std.Symm (EitherOrder cx n id layout) := ⟨fun _ _ => EitherOrder.symm⟩
  rw [enters.eq_foldl, enters'.eq_foldl]
  refine perm.foldl_eq' (fun e mem e' mem' => ?_) d
  exact either.forall_of_forall (fun _ _ _ => rfl) mem mem'

end InPlace

/-! ## 4. Whole operations -/

namespace Codec

open Parse Decoded WireValue Header InPlace

variable {c : Codec} {id : RecordId} {d : Datum} {b b' : UInt8} {body body' : List UInt8}
  {es es' : List (WireValue × WireValue)}

/-- A map that is accepted for a record is read entry by entry. -/
theorem enters_of_accepted (reachable : c.Reachable)
    (unclaimed : c.registry.forHost? (.record id) = none)
    (formed : (node b body (unpair es)).Everywhere Formed) (map : (ofByte b).isMap = true)
    (accepted : (c.decodeInto (.record id) d (node b body (unpair es)).bytes .named).1 = .ok ()) :
    Enters (c.context .named) (Datum.read (c.context .named) (maxDepth - 1)) id
      ((c.context .named).layout id) es d
      (c.decodeInto (.record id) d (node b body (unpair es)).bytes .named).2.1 := by
  have noNil : (node b body (unpair es)).bytes ≠ [Header.nil.toByte] := by
    intro e
    obtain ⟨rfl, -⟩ := List.cons.inj e
    cases map
  have each := Datum.whole_read (c.context .named) (maxDepth - 1)
  rcases parse_read_record reachable unclaimed d with only | fields
  · exact (noNil (holds_of_accepted accepted (only .named))).elim
  · rcases holds_of_accepted accepted
      (fields .named ▸ (sound_fields_named each rfl d).nested.retrace _) with nil | read
    · exact (noNil nil).elim
    · obtain ⟨front, own, entries, wellFormed, -, bytes, enters⟩ := read
      obtain ⟨-, -, inside⟩ := node.inj (WireValue.unique formed wellFormed bytes)
      obtain rfl : es = entries := by rw [← pairs_unpair es, inside, pairs_unpair]
      exact enters

/-- **The order of the entries of a map does not matter to a record** that no binding claims, where
the defaults of records are zeros.  Of two maps whose entries are permutations of each other, in
which no two keys spell the same name of a field, if both are accepted both leave the same record,
optional embedded records included.  Keys that are no texts or name no field may repeat, and the
maps may have headers of different lengths. -/
theorem decodeInto_record_order (reachable : c.Reachable)
    (unclaimed : c.registry.forHost? (.record id) = none) (zero : c.catalog.ZeroDefaults)
    (perm : es.Perm es')
    (distinct : es.Pairwise fun e e' => ∀ s ∈ (Layout.resolve c.catalog id .named).slots,
      e.1.SpellsText s.name → ¬ e'.1.SpellsText s.name)
    (formed : (node b body (unpair es)).Everywhere Formed) (map : (ofByte b).isMap = true)
    (formed' : (node b' body' (unpair es')).Everywhere Formed) (map' : (ofByte b').isMap = true)
    (accepted : (c.decodeInto (.record id) d (node b body (unpair es)).bytes .named).1 = .ok ())
    (accepted' :
      (c.decodeInto (.record id) d (node b' body' (unpair es')).bytes .named).1 = .ok ()) :
    (c.decodeInto (.record id) d (node b body (unpair es)).bytes .named).2.1 =
      (c.decodeInto (.record id) d (node b' body' (unpair es')).bytes .named).2.1 := by
  have resolved : (c.context .named).layout id =
      Layout.resolve (c.context .named).catalog id .named := by
    rw [reachable.context_eq .named]
  have keys : ∀ e ∈ es, e.1.Formed := fun e mem =>
    (forall_mem_unpair.1 formed.within e mem).1.here
  refine (enters_of_accepted reachable unclaimed formed map accepted).perm
    zero resolved keys ?_ perm
    (enters_of_accepted reachable unclaimed formed' map' accepted')
  rw [resolved]
  exact distinct

/-- A nil for a field of an absent record, before the entry that brings the record into being and
after it. -/
theorem decodeInto_record_order_nested :
    let c := fresh (Catalog.nestedCatalog false)
    let d : Datum := .record [.absent, .int 9]
    let mid : WireValue × WireValue := (node 0xa3 [109, 105, 100] [], node 0xc0 [] [])
    let leaf : WireValue × WireValue := (node 0xa4 [108, 101, 97, 102] [], node 7 [] [])
    let before := node 0x82 [] (unpair [mid, leaf])
    let after := node 0xde [0, 2] (unpair [leaf, mid])
    c.catalog.ZeroDefaults ∧ (c.decodeInto (.record 2) d before.bytes .named).1 = .ok () ∧
      (c.decodeInto (.record 2) d after.bytes .named).1 = .ok () ∧
      (c.decodeInto (.record 2) d before.bytes .named).2.1 =
        .record [.present (.record [.int 0, .present (.record [.int 7])]), .int 9] ∧
      (c.decodeInto (.record 2) d before.bytes .named).2.1 =
        (c.decodeInto (.record 2) d after.bytes .named).2.1 := by
  intro c d mid leaf before after
  have accepted : (c.decodeInto (.record 2) d before.bytes .named).1 = .ok () := by decide +kernel
  have accepted' : (c.decodeInto (.record 2) d after.bytes .named).1 = .ok () := by decide +kernel
  have left : (c.decodeInto (.record 2) d before.bytes .named).2.1 =
      .record [.present (.record [.int 0, .present (.record [.int 7])]), .int 9] := by
    decide +kernel
  have parts : ∀ e ∈ [mid, leaf], e.1.Everywhere Formed ∧ e.2.Everywhere Formed := by
    simp only [List.mem_cons, List.not_mem_nil, or_false, forall_eq_or_imp, forall_eq]
    exact ⟨⟨.leaf ⟨rfl, rfl⟩, .leaf ⟨rfl, rfl⟩⟩, .leaf ⟨rfl, rfl⟩, .leaf ⟨rfl, rfl⟩⟩
  have swap : [mid, leaf].Perm [leaf, mid] := .swap leaf mid []
  have formed : before.Everywhere Formed := everywhere_formed_unpair ⟨rfl, rfl⟩ parts
  have formed' : after.Everywhere Formed :=
    everywhere_formed_unpair ⟨rfl, rfl⟩ fun e mem => parts e (swap.mem_iff.2 mem)
  have differ : ∀ s ∈ (Layout.resolve c.catalog 2 .named).slots,
      mid.1.SpellsText s.name → ¬ leaf.1.SpellsText s.name := by
    rintro s - ⟨-, holds⟩ ⟨-, holds'⟩
    have three : (ofByte 0xa3).Holds [109, 105, 100] (utf8Bytes s.name) := holds
    have four : (ofByte 0xa4).Holds [108, 101, 97, 102] (utf8Bytes s.name) := holds'
    have same := (Holds.length_fixText (n := 3) three).symm.trans
      (Holds.length_fixText (n := 4) four)
    exact absurd same (by decide)
  have zero : c.catalog.ZeroDefaults := .of_all rfl
  refine ⟨zero, accepted, accepted', left, ?_⟩
  exact decodeInto_record_order (.fresh _) rfl zero swap
    (List.pairwise_pair.2 differ) formed rfl formed' rfl accepted accepted'

end Codec

end MessagePack
