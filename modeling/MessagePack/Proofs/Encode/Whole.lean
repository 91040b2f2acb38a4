import MessagePack.Proofs.RoundTrip.Restores
import MessagePack.Proofs.Record.Places
/-!
# Whatever is written is complete

A header is written before what it announces, and the two are computed apart: the length of a list
against a walk through it, the number of present slots against a second look at each slot.  They
agree for every datum of every type, so what is written is always exactly one complete value, of
any nesting.  Bindings are trusted to write one extension each; the timestamp's does.

Hence an encoding ends of its own: whatever follows, skipping stops right behind it, and no encoding
starts another.

Main statements: `Datum.complete_script` and `Codec.Writes.ends_alone`.
-/

namespace MessagePack

/-! ## 1. Data behind paths -/

namespace Catalog

variable {c : Catalog} {id : RecordId} {i : Nat} {f : FieldDecl} {t : Ty} {d x : Datum}

/-- **What stands at the end of a path is of the field's type.** -/
theorem OfType.lookup {path : List Nat} (typed : c.OfType (.record id) d)
    (found : c.lookup id path d = some (t, x)) : c.OfType t x := by
  induction path generalizing id d with
  | nil => cases found
  | cons i rest ih =>
    cases rest with
    | nil =>
      simp only [Catalog.lookup, bind, Option.bind_eq_some_iff] at found
      obtain ⟨f, direct, y, here, pair⟩ := found
      obtain ⟨rfl, rfl⟩ := Prod.mk.inj (Option.some.inj pair)
      exact typed.field (direct?_eq_some direct) here
    | cons j rest =>
      simp only [Catalog.lookup, bind, Option.bind_eq_some_iff] at found
      obtain ⟨⟨u, inner⟩, entered, y, here, r, inside, below⟩ := found
      obtain ⟨f, field, rfl, embeds⟩ := enter?_eq_some entered
      exact ih ((typed.field field here).recordIn embeds inside) below

end Catalog

/-! ## 2. Bindings -/

/-- Every binding but the timestamp's writes one extension whenever it succeeds. -/
def Registry.WritesOne (r : Registry) : Prop :=
  ∀ h b, r.forHost? h = some b → h ≠ .timestamp → ∀ d bs, (b.encode d).Puts bs →
    ∃ tag payload, (Script.ext tag payload).Puts bs

/-- Adding a binding that writes one extension keeps this of all bindings. -/
theorem Registry.WritesOne.register {r : Registry} (one : r.WritesOne) {b : Binding}
    (writes : ∀ d bs, (b.encode d).Puts bs → ∃ tag payload, (Script.ext tag payload).Puts bs) :
    (r.register b).2.WritesOne := by
  rcases r.register_cases b with ⟨-, done⟩ | ⟨-, done⟩
  · rw [done]
    intro h b' bound other
    rw [Registry.forHost?_insert] at bound
    split at bound
    · cases bound
      exact writes
    · exact one h b' bound other
  · rw [done]
    exact one

namespace Context

variable {cx : Context} {id : RecordId} {t : Ty} {d x : Datum} {bs : List UInt8} {ss : List Slot}

/-- A payload goes out as an extension, which has no parts. -/
theorem flat_encodeExtension (con : cx.registry.Consistent) (one : cx.registry.WritesOne)
    {h : Host} (puts : (cx.encodeExtension h d).Puts bs) : Flat bs := by
  unfold encodeExtension at puts
  split at puts
  · rename_i b bound
    by_cases built : h = .timestamp
    · subst built
      rw [con.timestamp] at bound
      cases bound
      exact Script.flat_ext puts
    · obtain ⟨tag, payload, puts⟩ := one h b bound built d bs puts
      exact Script.flat_ext puts
  · cases puts

/-! ## 3. Parts -/

/-- What is written for the datum is one complete value. -/
def PutsOne (cx : Context) (t : Ty) (x : Datum) : Prop :=
  ∀ bs, (x.script cx t).Puts bs → ∃ k, Complete k 1 bs

open Datum

/-- A sequence of bytes is one value, and any other is an array of as many as it has elements. -/
theorem complete_sequence {items : List Datum} (each : ∀ x ∈ items, cx.PutsOne t x)
    (puts : (Script.sequence t items (items.map (script cx t))).Puts bs) :
    ∃ k, Complete k 1 bs := by
  by_cases bin : t.sequenceKind = .bin
  · obtain rfl : t = .byte := by
      unfold Ty.sequenceKind at bin
      split at bin
      · rfl
      · cases bin
    obtain ⟨_, _, -, -, -, flat, -⟩ := Restores.takes_bin puts
    exact ⟨0, flat.complete 0⟩
  · refine Script.complete_array
      ((Restores.puts_sequence (Ty.sequenceKind_array bin)).1 puts) fun u inside => ?_
    have whole := Script.complete_each (fun x hx => each x hx) inside
    rwa [Nat.one_mul] at whole

/-- A tuple is an array of as many as it has parts. -/
theorem complete_tuple {ts : List Ty} (length : d.items.length = ts.length)
    (each : ∀ p ∈ ts.zip d.items, cx.PutsOne p.1 p.2)
    (puts : (d.script cx (.tuple ts)).Puts bs) : ∃ k, Complete k 1 bs := by
  rw [script_tuple] at puts
  refine Script.complete_array puts fun u inside => ?_
  have whole := Script.complete_each (fun p hp => each p hp) inside
  rwa [Nat.one_mul, List.length_zip, length, Nat.min_self] at whole

/-- A map has a key and a value for each of its entries. -/
theorem complete_entries {order : MapOrder} {kt vt : Ty}
    (each : ∀ e ∈ d.entries, cx.PutsOne kt e.1 ∧ cx.PutsOne vt e.2)
    (puts : (d.script cx (.map order kt vt)).Puts bs) : ∃ k, Complete k 1 bs := by
  rw [script_map] at puts
  refine Script.complete_map puts fun u inside => ?_
  refine Script.complete_each (fun e he v hv => ?_) inside
  obtain ⟨w, w', hw, hw', rfl⟩ := Script.puts_append.1 hv
  exact Complete.exists_append ((each e he).1 w (Script.puts_key.1 hw).2)
    ((each e he).2 w' hw')

/-- A slot of an array is one value: its field, or nil where there is none. -/
theorem complete_positional (each : ∀ s ∈ ss, ∀ t x, cx.catalog.lookup id s.path d = some (t, x) →
      cx.PutsOne t x) (puts : (Script.all (ss.map (positionalScript cx id d))).Puts bs) :
    ∃ k, Complete k ss.length bs := by
  rw [← Nat.one_mul ss.length]
  refine Script.complete_each (fun s hs u puts => ?_) puts
  unfold positionalScript at puts
  split at puts
  · rename_i t x there
    exact each s hs t x there u puts
  · obtain rfl := (Script.puts_put _).1 puts
    exact ⟨0, Flat.nil.complete 0⟩

/-- A name and a value are two. -/
theorem complete_entry {name : String} (value : cx.PutsOne t x)
    (puts : (Script.text name ++ x.script cx t).Puts bs) : ∃ k, Complete k 2 bs := by
  obtain ⟨u, v, hu, hv, rfl⟩ := Script.puts_append.1 puts
  exact Complete.exists_append ⟨0, (Script.flat_text hu).complete 0⟩ (value v hv)

/-- In a map that leaves no slot out each is an entry. -/
theorem complete_direct (each : ∀ s ∈ ss, ∀ t x, cx.catalog.lookup id s.path d = some (t, x) →
      cx.PutsOne t x) (puts : (Script.all (ss.map (directScript cx id d))).Puts bs) :
    ∃ k, Complete k (2 * ss.length) bs := by
  refine Script.complete_each (fun s hs u puts => ?_) puts
  unfold directScript at puts
  split at puts
  · rename_i t x there
    exact complete_entry (each s hs t x there) puts
  · cases puts

/-- How many entries a map has for these slots. -/
def entryCount (cx : Context) (id : RecordId) (d : Datum) (ss : List Slot) : Nat :=
  ss.countP fun s => (cx.present? id d s).isSome

/-- As many pairs as there are entries. -/
theorem sum_entries (cx : Context) (id : RecordId) (d : Datum) (ss : List Slot) :
    (ss.map fun s => if (cx.present? id d s).isSome then 2 else 0).sum =
      2 * cx.entryCount id d ss := by
  unfold entryCount
  induction ss with
  | nil => rfl
  | cons s ss ih =>
    rw [List.map_cons, List.sum_cons, ih, List.countP_cons]
    split <;> omega

/-- **A map has an entry for each slot that is present when it is counted.** -/
theorem complete_present (each : ∀ s ∈ ss, ∀ t x, cx.present? id d s = some (t, x) →
      cx.PutsOne t x) (puts : (Script.all (ss.map (presentScript cx id d))).Puts bs) :
    ∃ k, Complete k (2 * cx.entryCount id d ss) bs := by
  rw [← sum_entries]
  refine Script.complete_all (fun s hs u puts => ?_) puts
  unfold presentScript at puts
  split at puts
  · rename_i t x there
    rw [there]
    exact complete_entry (each s hs t x there) puts
  · rename_i absent
    cases puts
    rw [absent]
    exact ⟨0, .none⟩

/-- A record is an extension, an array with a value for each slot or a map with as many entries as
it was counted to have. -/
theorem complete_record (con : cx.registry.Consistent) (one : cx.registry.WritesOne)
    (each : ∀ path t x, cx.catalog.lookup id path d = some (t, x) → cx.PutsOne t x)
    (puts : (d.script cx (.record id)).Puts bs) : ∃ k, Complete k 1 bs := by
  cases bound : cx.hasBinding (.record id) || (cx.catalog.decl id).form == .external with
  | true =>
    rw [script_bound cx d bound] at puts
    exact ⟨0, (flat_encodeExtension con one puts).complete 0⟩
  | false =>
    cases mode : cx.mode with
    | positional =>
      rw [script_positional cx d bound mode] at puts
      obtain ⟨_, u, ⟨⟩, hu, rfl⟩ := Script.puts_append.1 puts
      exact Script.complete_array hu fun v inside =>
        complete_positional (fun s _ => each s.path) inside
    | named =>
      cases omits : (cx.layout id).neverOmits with
      | true =>
        rw [script_direct cx d bound mode omits] at puts
        obtain ⟨_, u, ⟨⟩, hu, rfl⟩ := Script.puts_append.1 puts
        exact Script.complete_map hu fun v inside =>
          complete_direct (fun s _ => each s.path) inside
      | false =>
        rw [script_counted cx d bound mode omits] at puts
        obtain ⟨_, u, ⟨⟩, hu, rfl⟩ := Script.puts_append.1 puts
        refine Script.complete_map hu fun v inside => complete_present ?_ inside
        exact fun s _ t x there => each s.path t x (Option.filter_eq_some_iff.1 there).1

end Context

/-! ## 4. All types -/

namespace Datum

open Context

variable {cx : Context}

/-- **What is written for a datum of a type is one complete value.** -/
theorem complete_script (con : cx.registry.Consistent) (one : cx.registry.WritesOne)
    {t : Ty} {d : Datum} (typed : cx.catalog.OfType t d) : cx.PutsOne t d := by
  intro bs puts
  match t with
  | .bool =>
    cases typed
    exact (Restores.bool _).complete puts
  | .number t =>
    cases typed with
    | whole fits => exact (Restores.whole fits).complete puts
    | single a => exact (Restores.single a).complete puts
    | double a => exact (Restores.double a).complete puts
  | .text =>
    cases typed
    exact (Restores.text _).complete puts
  | .bytes =>
    cases typed
    exact (Restores.bytes _).complete puts
  | .dynamic =>
    cases typed with
    | dynamic v =>
      rw [script] at puts
      exact ⟨v.depth, Value.complete_script con v puts⟩
  | .timestamp =>
    rw [script] at puts
    exact ⟨0, (flat_encodeExtension con one puts).complete 0⟩
  | .clockTime =>
    rw [script] at puts
    exact ⟨0, (flat_encodeExtension con one puts).complete 0⟩
  | .list t =>
    rw [script_list] at puts
    refine complete_sequence (fun x hx => ?_) puts
    -- an item is smaller than its list, which the recursion goes down by
    have := sizeOf_items hx
    exact complete_script con one (typed.item hx)
  | .array n t =>
    rw [script_array] at puts
    refine complete_sequence (fun x hx => ?_) puts
    have := sizeOf_items hx
    exact complete_script con one (typed.element hx)
  | .tuple ts =>
    refine complete_tuple typed.length_parts (fun p hp => ?_) puts
    have := sizeOf_items (List.of_mem_zip hp).2
    exact complete_script con one (typed.part hp)
  | .option t =>
    rw [script_option] at puts
    split at puts
    · rename_i x hx
      have := sizeOf_held hx
      exact complete_script con one (typed.held hx) bs puts
    · obtain rfl := (Script.puts_put _).1 puts
      exact ⟨0, Flat.nil.complete 0⟩
  | .box t =>
    rw [script_box] at puts
    exact complete_script con one typed.unbox bs puts
  | .map order kt vt =>
    refine complete_entries (fun e he => ?_) puts
    have := sizeOf_entries he
    exact ⟨complete_script con one (typed.entry he).1, complete_script con one (typed.entry he).2⟩
  | .record id =>
    refine complete_record con one (fun path t x there => ?_) puts
    have := Catalog.sizeOf_lookup there
    exact complete_script con one (typed.lookup there)
termination_by (sizeOf d, sizeOf t)
decreasing_by
  all_goals first
    | exact Prod.Lex.left _ _ ‹_›
    | exact Prod.Lex.left _ _ (‹_ ∧ _›).1
    | exact Prod.Lex.left _ _ (‹_ ∧ _›).2
    | exact Prod.Lex.right _ (by simp only [Ty.box.sizeOf_spec]; omega)

end Datum

/-! ## 5. Whole operations -/

namespace Codec

/-- A codec whose bindings write one extension each gives these bytes for a datum of a type. -/
structure Writes (c : Codec) (t : Ty) (d : Datum) (mode : Mode) (bs : List UInt8) : Prop where
  reachable : c.Reachable
  one : c.registry.WritesOne
  typed : c.catalog.OfType t d
  result : (c.encode t d mode).1 = .ok bs

variable {c : Codec} {t : Ty} {d : Datum} {mode : Mode} {bs : List UInt8}

/-- What is written is one complete value. -/
theorem Writes.complete (writes : c.Writes t d mode bs) : ∃ k, Complete k 1 bs := by
  have one : (c.context mode).PutsOne t d :=
    Datum.complete_script writes.reachable.consistent.registry writes.one writes.typed
  exact one bs (encode_eq_ok.1 writes.result)

/-- **What is written is one complete value**: every header in it counts exactly what follows it.
So skipping stops right behind it, whatever stands there, and nothing that is written for any datum
of any type by any codec starts with it but itself. -/
theorem Writes.ends_alone (writes : c.Writes t d mode bs) :
    (∃ k, Complete k 1 bs) ∧
      (∀ tail, (Read.skip (.start (bs ++ tail))).1 = .ok () ∧
        (Read.skip (.start (bs ++ tail))).2.position = bs.length ∧
        (Read.skip (.start (bs ++ tail))).2.rest = tail) ∧
      ∀ {c' : Codec} {t' d' mode' bs'}, c'.Writes t' d' mode' bs' → bs <+: bs' → bs = bs' := by
  obtain ⟨k, complete⟩ := writes.complete
  refine ⟨⟨k, complete⟩, fun tail => ?_, ?_⟩
  · obtain ⟨known, run⟩ := Read.takes_skip complete 0 tail {}
    rw [Nat.zero_add] at run
    rw [Cursor.start, Read.parse_eq_some.1 run]
    exact ⟨rfl, rfl, rfl⟩
  · rintro c' t' d' mode' bs' writes' ⟨tail, rfl⟩
    obtain ⟨k', complete'⟩ := writes'.complete
    exact (complete.unique complete' (r := tail) (s := []) (List.append_nil _).symm).1

theorem writesOne_initial : Registry.initial.WritesOne := by
  intro h b bound other d bs puts
  rw [Registry.initial, Registry.forHost?_insert, if_neg (by exact other)] at bound
  cases bound

/-- A record of two fields, the second of them nil, in front of another nil. -/
theorem ends_alone_note :
    let c := fresh { records := [{ name := "Note", fields := [{ name := "a", type := .byte },
      { name := "b", type := .option .text }] }] }
    let d : Datum := .record [.int 5, .absent]
    let bs : List UInt8 := [0x82, 0xa1, 97, 5, 0xa1, 98, 0xc0]
    c.Writes (.record 0) d .named bs ∧ (Read.skip (.start (bs ++ [0xc0]))).1 = .ok () ∧
      (Read.skip (.start (bs ++ [0xc0]))).2.position = 7 ∧
      ∀ {c' : Codec} {t' d' mode' bs'}, c'.Writes t' d' mode' bs' → bs <+: bs' → bs' = bs := by
  intro c d bs
  have typed : c.catalog.OfType (.record 0) d := by
    refine .record rfl ?_
    intro i f x field here
    rcases i with _ | _ | i
    · cases field
      cases here
      exact .whole rfl
    · cases field
      cases here
      exact .absent
    · cases here
  have slots : ((c.context .named).layout 0).slots = [⟨"a", [0], false⟩, ⟨"b", [1], false⟩] := by
    change uniqueShallowest (c.catalog.candidates [0] [] 0) = _
    rw [Catalog.candidates]
    rfl
  have never : ((c.context .named).layout 0).neverOmits = true := by
    change ((c.context .named).layout 0).slots.all _ = _
    rw [slots]
    rfl
  have a : (Datum.int 5).script (c.context .named) .byte = .uint 5 := by
    rw [Datum.script]
    rfl
  have b : Datum.absent.script (c.context .named) (.option .text) = .nil := by
    rw [Datum.script]
    rfl
  have written : (c.encode (.record 0) d .named).1 = .ok bs := by
    refine encode_eq_ok.2 ?_
    rw [Datum.script_direct _ d rfl rfl never, slots]
    change (_ ++ (_ ++ Script.all [
      .text "a" ++ (Datum.int 5).script (c.context .named) .byte,
      .text "b" ++ Datum.absent.script (c.context .named) (.option .text)])).Puts _
    rw [a, b]
    rfl
  have writes : c.Writes (.record 0) d .named bs :=
    ⟨.fresh _, writesOne_initial, typed, written⟩
  obtain ⟨-, skips, alone⟩ := writes.ends_alone
  obtain ⟨ok, position, -⟩ := skips [0xc0]
  exact ⟨writes, ok, position, fun writes' starts => (alone writes' starts).symm⟩

end Codec

end MessagePack
