import Mathlib.Data.String.Basic
import MessagePack.Gallery.Bindings
import MessagePack.Proofs.Datum.Keys
import MessagePack.Proofs.Decode.Language
import MessagePack.Proofs.Decode.Typing
/-!
# Maps by key and maps as they came

There are two kinds of maps, one that holds its entries by key and one that holds them as they came,
and a dynamic value keeps every entry that it was read from.  The readers of all three go through
the same entries.

Reading into either kind of map runs in the same way and binds the same entries, whatever it ends in
(`InPlace.exists_map`).  So the two maps hold the same entries, each in its own order.  If the keys
are texts, a map binds each of them to the value that a dynamic value has for it last.  There the
entries have to be spelled out on the wire: a binding may give a text or a map as the dynamic form
of an extension, and no reader of texts or maps takes an extension (`InPlace.refuses_map_texts`).

Main statement: `Codec.maps_agree`.
-/

namespace MessagePack

/-! ## 1. Both readers go through the same entries -/

namespace InPlace

open MapOrder

variable {P : Datum → Prop} {key value : InPlace} {keyZero valueZero : Datum}

/-- Binding entries runs alike in either order of the map, from what other entries made. -/
theorem exists_bindings (keys : ∀ c, P (key keyZero c).dest) (n : Nat)
    (done : List (Datum × Datum)) (before : ∀ e ∈ done, P e.1) (c : Cursor) :
    ∃ (outcome : Except Fault Unit) (es : List (Datum × Datum)) (c' : Cursor),
      (∀ e ∈ es, P e.1) ∧ ∀ o : MapOrder,
        bindings o key value keyZero valueZero n (o.bindAll done) c =
          ⟨outcome, .map (o.bindAll es), c'⟩ := by
  -- On the way both maps are made of the same entries, whatever orders they keep them in.
  induction n generalizing done c with
  | zero => exact ⟨.ok (), done, c, before, fun _ => rfl⟩
  | succ n ih =>
    rcases check : Read.checkKey c with ⟨f | _, c₁⟩
    · exact ⟨.error f, done, c₁, before, fun o => by simp only [bindings, check]⟩
    · rcases first : key keyZero c₁ with ⟨f | _, k, c₂⟩
      · exact ⟨.error f, done, c₂, before, fun o => by simp only [bindings, check, first]⟩
      · rcases second : value valueZero c₂ with ⟨f | _, v, c₃⟩
        · exact ⟨.error f, done, c₃, before, fun o => by
            simp only [bindings, check, first, second]⟩
        · have here : P k := by simpa only [first] using keys c₁
          have after : ∀ e ∈ done ++ [(k, v)], P e.1 :=
            List.forall_mem_append.2 ⟨before, List.forall_mem_singleton.2 here⟩
          obtain ⟨outcome, es, c', each, runs⟩ := ih (done ++ [(k, v)]) after c₃
          refine ⟨outcome, es, c', each, fun o => ?_⟩
          rw [← runs o, bindAll_concat]
          simp only [bindings, check, first, second]

/-- **Reading into a map runs alike for either kind of map**, whatever the destination held. -/
theorem exists_map {deeper : Option (Ty → InPlace)} {kt : Ty} (vt : Ty)
    (keys : ∀ r, deeper = some r → ∀ c, P (r kt keyZero c).dest) (c : Cursor) :
    ∃ (outcome : Except Fault Unit) (es : List (Datum × Datum)) (c' : Cursor),
      (∀ e ∈ es, P e.1) ∧ ∀ (o : MapOrder) (d : Datum),
        map deeper o kt vt keyZero valueZero d c = ⟨outcome, .map (o.bindAll es), c'⟩ := by
  rcases announced : Read.mapLength .map c with ⟨f | _ | n, c'⟩
  · exact ⟨.error f, [], c', List.forall_mem_nil _, fun o d => by
      simp only [map, announced]
      rfl⟩
  · exact ⟨.ok (), [], c', List.forall_mem_nil _, fun o d => by
      simp only [map, announced]
      rfl⟩
  · cases deeper with
    | none => exact ⟨.error (.tooDeep maxDepth), [], c', List.forall_mem_nil _, fun o d => by
        simp only [map, announced]
        rfl⟩
    | some r =>
      have entries := @exists_bindings P _ (r vt) keyZero valueZero (keys r rfl)
      obtain ⟨outcome, es, last, each, runs⟩ :=
        entries n [] (List.forall_mem_nil _) (c'.retrace .down)
      refine ⟨outcome, es, last.retrace .up, each, fun o d => ?_⟩
      have below := congrArg (fun r : Decoded => { r with cursor := r.cursor.retrace .up }) (runs o)
      simp only [map, announced]
      exact below

end InPlace

/-- Both hold the same entries, the one by key and the other as they came, and neither holds two
entries with equal keys. -/
def SameMap (d d' : Datum) : Prop :=
  ∃ m m' : List (Datum × Datum), d = .map m ∧ d' = .map m' ∧ m.Perm m' ∧
    MapOrder.sorted.Ordered m ∧ MapOrder.arrival.Ordered m'

/-- Both maps of the same entries are the same map. -/
theorem sameMap_bindAll {P : Datum → Prop} {es : List (Datum × Datum)}
    (comparable : Datum.Comparable P) (each : ∀ e ∈ es, P e.1) :
    SameMap (.map (MapOrder.sorted.bindAll es)) (.map (MapOrder.arrival.bindAll es)) :=
  ⟨_, _, rfl, rfl, MapOrder.perm_bindAll comparable each,
    (MapOrder.lastWins_bindAll comparable each).ordered,
    (MapOrder.lastWins_bindAll comparable each).ordered⟩

/-! ## 2. Maps of texts -/

/-- An entry of a dynamic value whose key is a text, as an entry of a map of texts. -/
def textEntry (e : String × Value) : Datum × Datum := (.text e.1, .dynamic e.2)

namespace MapOrder

open Datum

variable {o : MapOrder} {es : List (String × Value)} {k : String} {v : Value} {e : Datum × Datum}

/-- Among texts the comparison is that of an order. -/
theorem comparable_text : Comparable fun k => ∃ s, k = .text s := by
  rintro _ _ _ ⟨a, rfl⟩ ⟨b, rfl⟩ ⟨c, rfl⟩
  exact Chained.of_compare a b c

/-- Of entries with texts for keys the last one of each key wins. -/
theorem lastWins_texts (o : MapOrder) (es : List (String × Value)) :
    o.LastWins (es.map textEntry) (o.bindAll (es.map textEntry)) :=
  lastWins_bindAll comparable_text (List.forall_mem_map.2 fun e _ => ⟨e.1, rfl⟩)

/-- A map of texts has no other entries than those of texts. -/
theorem exists_textEntry (mem : e ∈ o.bindAll (es.map textEntry)) :
    ∃ k v, e = textEntry (k, v) := by
  obtain ⟨_, own, key⟩ := (o.lastWins_texts es).keys e mem
  obtain ⟨p, -, rfl⟩ := List.mem_map.1 own
  obtain ⟨before, k, after, split, -, -⟩ := (o.lastWins_texts es).last e mem
  have own : (k, e.2) ∈ es.map textEntry := by simp [split]
  obtain ⟨q, -, value⟩ := List.mem_map.1 own
  exact ⟨p.1, q.2, Prod.ext key.symm (congrArg Prod.snd value).symm⟩

/-- What stands in the map is the last entry of its key. -/
theorem lookup_of_mem_bindAll (mem : textEntry (k, v) ∈ o.bindAll (es.map textEntry)) :
    es.reverse.lookup k = some v := by
  obtain ⟨_, _, _, split, equal, none'⟩ := (o.lastWins_texts es).last _ mem
  obtain ⟨front, back, rfl, -, later⟩ := List.map_eq_append_iff.1 split
  obtain ⟨⟨l, w⟩, back, rfl, entry, rfl⟩ := List.map_eq_cons_iff.1 later
  obtain ⟨rfl, value⟩ := Prod.mk.inj entry
  obtain rfl : w = v := by injection value
  obtain rfl : l = k := compare_eq_iff_eq.1 equal
  refine List.lookup_eq_some_iff.2 ⟨back.reverse, front.reverse, by simp, fun p mem => ?_⟩
  have other := none' _ (List.mem_map_of_mem (List.mem_reverse.1 mem))
  rw [bne_iff_ne]
  rintro rfl
  exact other (order_self _)

/-- **A map of texts has for each key the value of its last entry.** -/
theorem mem_bindAll_texts :
    textEntry (k, v) ∈ o.bindAll (es.map textEntry) ↔ es.reverse.lookup k = some v := by
  refine ⟨lookup_of_mem_bindAll, fun found => ?_⟩
  obtain ⟨front, back, split, -⟩ := List.lookup_eq_some_iff.1 found
  have own : (k, v) ∈ es := List.mem_reverse.1 (by simp [split])
  obtain ⟨e, mem, equal⟩ := (o.lastWins_texts es).bound _ (List.mem_map_of_mem own)
  obtain ⟨l, w, rfl⟩ := exists_textEntry mem
  obtain rfl : k = l := compare_eq_iff_eq.1 equal
  rw [lookup_of_mem_bindAll mem] at found
  cases found
  exact mem

end MapOrder

/-! ## 3. Entries spelled out -/

/-- Neither the value nor one of its keys is an extension. -/
def WireValue.SpelledOut (w : WireValue) : Prop := ∀ x ∈ w :: w.keys, x.header.isExt = false

/-- A map is spelled out if its keys are no extensions. -/
theorem WireValue.spelledOut_iff {b : UInt8} {body : List UInt8}
    (map : (Header.ofByte b).isMap = true) (ws : List (WireValue × WireValue)) :
    (node b body (unpair ws)).SpelledOut ↔ ∀ w ∈ ws, w.1.header.isExt = false := by
  have outer : (node b body (unpair ws)).header.isExt = false :=
    Header.isExt_of_isContainer (Header.isContainer_of_isMap map)
  rw [SpelledOut, List.forall_mem_cons, keys_of_isMap map, List.forall_mem_map]
  exact and_iff_right outer

namespace Header.ReadsAs

variable {registry : Registry} {h : Header} {body : List UInt8}

/-- What is read as a text and is no extension holds that text. -/
theorem holds_text {s : String} (reads : h.ReadsAs registry body (.text s))
    (spelled : h.isExt = false) : h.Holds body (utf8Bytes s) := by
  cases reads with
  | text _ holds => exact holds
  | extension holds _ => exact absurd (spelled.symm.trans holds.isExt) nofun

/-- Without entries on the wire only an extension is read as a map. -/
theorem isExt_of_map {entries : List (Value × Value)}
    (reads : h.ReadsAs registry body (.map entries)) : h.isExt = true := by
  cases reads with
  | extension holds _ => exact holds.isExt

end Header.ReadsAs

/-- What is read as a map of texts is an extension, or a map whose keys are read as those texts. -/
theorem WireValue.ReadsAs.texts {registry : Registry} {w : WireValue} {es : List (String × Value)}
    (reads : w.ReadsAs registry (.map (es.map fun e => (.text e.1, e.2)))) :
    (∃ b body, w = .node b body [] ∧ (Header.ofByte b).ReadsAs registry body
        (.map (es.map fun e => (.text e.1, e.2)))) ∨
      ∃ b body ws, w = .node b body (unpair ws) ∧ (Header.ofByte b).isMap = true ∧
        (Header.ofByte b).Owes body (2 * ws.length) ∧
        List.Forall₂ (fun w e => w.1.ReadsAs registry (.text e.1) ∧ w.2.ReadsAs registry e.2)
          ws es := by
  generalize entries : (es.map fun e => (Value.text e.1, e.2)) = pairs at reads ⊢
  cases reads with
  | flat alone => exact .inl ⟨_, _, rfl, alone⟩
  | map map own _ length keys values =>
    subst entries
    have each := List.forall₂_iff_zip.2
      ⟨length, fun pair => And.intro (keys _ pair) (values _ pair)⟩
    exact .inr ⟨_, _, _, rfl, map, own, List.forall₂_map_right_iff.1 each⟩

section OnlyTimestamps

variable {r : Registry} {w : WireValue} {h : Header} {body : List UInt8}

/-- Where timestamps alone have a binding, no extension is given as a text or as a map. -/
theorem Value.ofExt_ne (con : r.Consistent) (only : r.OnlyTimestamps) (tag : Int8)
    (payload : List UInt8) :
    (∀ s, ofExt r tag payload ≠ .ok (.text s)) ∧ ∀ m, ofExt r tag payload ≠ .ok (.map m) := by
  by_cases own : tag = Binding.timestampTag
  · subst own
    rw [ofExt_timestamp con]
    cases Timestamp.ofPayload payload <;> exact ⟨nofun, nofun⟩
  · rw [ofExt_other only own]
    exact ⟨nofun, nofun⟩

/-- There what is read as a text is a text on the wire. -/
theorem Header.ReadsAs.isExt_of_text (con : r.Consistent) (only : r.OnlyTimestamps) {s : String}
    (reads : h.ReadsAs r body (.text s)) : h.isExt = false := by
  cases reads with
  | text text _ => exact isExt_of_isText text
  | extension _ rich => exact absurd rich ((Value.ofExt_ne con only _ _).1 s)

/-- Where only timestamps are bound, a key that reads as a text is no extension. -/
theorem WireValue.isExt_of_text (con : r.Consistent) (only : r.OnlyTimestamps) {s : String}
    (reads : w.ReadsAs r (.text s)) : w.header.isExt = false := by
  cases reads with
  | flat alone => exact alone.isExt_of_text con only

/-- And nothing without values inside reads as a map. -/
theorem Header.not_readsAs_map (con : r.Consistent) (only : r.OnlyTimestamps)
    {m : List (Value × Value)} : ¬ h.ReadsAs r body (.map m) := by
  intro reads
  cases reads with
  | extension _ rich => exact (Value.ofExt_ne con only _ _).2 m rich

/-- There every map of texts is spelled out. -/
theorem WireValue.spelledOut_of_onlyTimestamps (con : r.Consistent) (only : r.OnlyTimestamps)
    {es : List (String × Value)}
    (reads : w.ReadsAs r (.map (es.map fun e => (.text e.1, e.2)))) : w.SpelledOut := by
  rcases reads.texts with ⟨b, body, rfl, alone⟩ | ⟨b, body, ws, rfl, map, -, each⟩
  · exact absurd alone (Header.not_readsAs_map con only)
  · have plain := each.imp fun _ _ entry => And.intro (isExt_of_text con only entry.1) entry
    exact (spelledOut_iff map ws).2 ((List.forall₂_and_left ws es).1 plain).1

end OnlyTimestamps

namespace InPlace

open Datum Decoded Read

variable {registry : Registry} {cx : Context} {w : WireValue} {n : Nat}

/-- A key that reads as a text and is no extension is taken by the reader for texts. -/
theorem takes_of_readsAs_text {s : String} (reads : w.ReadsAs registry (.text s))
    (spelled : w.header.isExt = false) : Flat w.bytes ∧ Read.text.parse.Takes w.bytes s := by
  cases reads with
  | @flat b body _ alone =>
    have holds := alone.holds_text spelled
    refine ⟨⟨b, body, WireValue.bytes_flat b body, holds.flat, holds.owes⟩, ?_⟩
    rw [WireValue.bytes_flat, ← Header.toByte_ofByte b]
    exact takes_text (Header.stands_ofByte b) holds (textOfUtf8?_utf8Bytes s)

variable {ws : List (WireValue × WireValue)} {es : List (String × Value)}

/-- Entries whose keys are spelled out are taken one by one. -/
theorem takes_bindings_texts
    (each : List.Forall₂ (fun w e => (w.1.header.isExt = false ∧ w.2.depth ≤ n) ∧
      w.1.ReadsAs cx.registry (.text e.1) ∧ w.2.ReadsAs cx.registry e.2) ws es)
    (o : MapOrder) (keyZero valueZero : Datum) (done : List (Datum × Datum)) :
    (parse (bindings o (read cx n .text) (read cx n .dynamic) keyZero valueZero ws.length
      (o.bindAll done))).Takes (ws.flatMap fun e => e.1.bytes ++ e.2.bytes)
      (.map (o.bindAll (done ++ es.map textEntry))) := by
  induction each generalizing done with
  | nil =>
    rw [List.map_nil, List.append_nil]
    exact Parse.takes_pure _
  | @cons w e ws es here _ ih =>
    obtain ⟨⟨spelled, shallow⟩, text, reads⟩ := here
    obtain ⟨flat, key⟩ := takes_of_readsAs_text text spelled
    have rest := ih (done ++ [textEntry e])
    rw [MapOrder.bindAll_concat, List.append_assoc] at rest
    rw [List.length_cons, parse_bindings_succ, List.flatMap_cons, List.append_assoc,
      parse_read_text, parse_read_dynamic]
    exact takes_checkKey flat (key.map.bind ((reads.takes shallow).map.bind rest))

/-- **A map that is spelled out is read into a map of texts**, if its keys are texts. -/
theorem takes_map_texts (reads : w.ReadsAs cx.registry (.map (es.map fun e => (.text e.1, e.2))))
    (spelled : w.SpelledOut) (shallow : w.depth ≤ n) (o : MapOrder) (d : Datum) :
    (parse (read cx n (.map o .text .dynamic) d)).Takes w.bytes
      (.map (o.bindAll (es.map textEntry))) := by
  rcases reads.texts with ⟨b, body, rfl, alone⟩ | ⟨b, body, ws, rfl, map, own, each⟩
  · have outer := spelled _ List.mem_cons_self
    exact absurd (outer.symm.trans alone.isExt_of_map) nofun
  · obtain ⟨m, rfl, levels⟩ :=
      (WireValue.depth_le_of_deep (Header.isContainer_of_isMap map)).1 shallow
    have below := WireValue.forall_mem_unpair.1 levels
    have plain := (WireValue.spelledOut_iff map ws).1 spelled
    have entries := (List.forall₂_and_left ws es).2
      ⟨fun w mem => And.intro (plain w mem) (below w mem).2, each⟩
    rw [read_eq, readStep, parse_map, WireValue.bytes, WireValue.bytesAll_unpair,
      ← Header.toByte_ofByte b, ← List.cons_append]
    refine (takes_mapLength .map (Header.stands_ofByte b) map own).bind ?_
    exact (takes_bindings_texts entries o _ _ []).nested

end InPlace

/-! ## 4. What is not spelled out -/

namespace InPlace

open Datum Decoded Read

variable {cx : Context} {w : WireValue} {n : Nat} {ws : List (WireValue × WireValue)}
  {es : List (String × Value)}

/-- An extension among the keys ends the reading. -/
theorem refuses_bindings_texts
    (each : List.Forall₂ (fun w e => w.2.depth ≤ n ∧
      w.1.ReadsAs cx.registry (.text e.1) ∧ w.2.ReadsAs cx.registry e.2) ws es)
    (ext : ∃ w ∈ ws, w.1.header.isExt = true)
    (o : MapOrder) (keyZero valueZero : Datum) (done : List (Datum × Datum)) :
    (parse (bindings o (read cx n .text) (read cx n .dynamic) keyZero valueZero ws.length
      done)).Refuses (ws.flatMap fun e => e.1.bytes ++ e.2.bytes) := by
  induction each generalizing done with
  | nil =>
    obtain ⟨w, mem, -⟩ := ext
    cases mem
  | @cons w e ws es here _ ih =>
    obtain ⟨shallow, text, reads⟩ := here
    have some' : w.1.bytes ++ (w.2.bytes ++ ws.flatMap fun e => e.1.bytes ++ e.2.bytes) ≠ [] := by
      rcases w.1 with ⟨b, body, below⟩
      exact List.cons_ne_nil _ _
    rw [List.length_cons, parse_bindings_succ, List.flatMap_cons, List.append_assoc,
      parse_read_text, parse_read_dynamic]
    refine refuses_checkKey ?_ some'
    -- The first key that is an extension is refused; the entries before it are read.
    cases first : w.1.header.isExt with
    | true =>
      refine Parse.Refuses.bind ?_ _ _
      rw [← List.append_nil w.1.bytes]
      refine Parse.Refuses.bind ?_ _ _
      obtain ⟨⟨b, body, below⟩, v⟩ := w
      exact refuses_text first _
    | false =>
      have later : ∃ w ∈ ws, w.1.header.isExt = true := by
        obtain ⟨x, mem, isExt⟩ := ext
        rcases List.mem_cons.1 mem with rfl | mem
        · exact absurd (first.symm.trans isExt) nofun
        · exact ⟨x, mem, isExt⟩
      obtain ⟨-, key⟩ := takes_of_readsAs_text text first
      exact key.map.bind_refuses ((reads.takes shallow).map.bind_refuses (ih later _))

/-- **A map that is not spelled out is not read into a map of texts.** -/
theorem refuses_map_texts (reads : w.ReadsAs cx.registry (.map (es.map fun e => (.text e.1, e.2))))
    (not' : ¬ w.SpelledOut) (shallow : w.depth ≤ n) (o : MapOrder) (d : Datum) :
    (parse (read cx n (.map o .text .dynamic) d)).Refuses w.bytes := by
  rw [read_eq, readStep, parse_map]
  rcases reads.texts with ⟨b, body, rfl, alone⟩ | ⟨b, body, ws, rfl, map, own, each⟩
  · rw [WireValue.bytes_flat, ← List.append_nil (b :: body)]
    exact (refuses_mapLength .map alone.isExt_of_map body).bind _ []
  · obtain ⟨m, rfl, levels⟩ :=
      (WireValue.depth_le_of_deep (Header.isContainer_of_isMap map)).1 shallow
    have below := WireValue.forall_mem_unpair.1 levels
    have ext : ∃ w ∈ ws, w.1.header.isExt = true := by
      refine Decidable.byContradiction fun none' => not' ((WireValue.spelledOut_iff map ws).2 ?_)
      exact fun w mem => Bool.eq_false_iff.2 fun isExt => none' ⟨w, mem, isExt⟩
    have entries := (List.forall₂_and_left ws es).2 ⟨fun w mem => (below w mem).2, each⟩
    rw [WireValue.bytes, WireValue.bytesAll_unpair, ← Header.toByte_ofByte b, ← List.cons_append]
    refine (takes_mapLength .map (Header.stands_ofByte b) map own).bind_refuses ?_
    exact (refuses_bindings_texts entries ext o _ _ []).nested

end InPlace

/-! ## 5. Whole operations -/

/-- A map with an entry for every key of these entries and for no other, bound to the value of the
last one. -/
structure BindsLast (es : List (String × Value)) (m : List (Datum × Datum)) : Prop where
  texts : ∀ e ∈ m, ∃ k v, e = textEntry (k, v)
  keys : ∀ k, (∃ v, textEntry (k, v) ∈ m) ↔ ∃ v, (k, v) ∈ es
  last : ∀ k v, textEntry (k, v) ∈ m ↔ es.reverse.lookup k = some v

/-- In each map a text is bound to what came last for it. -/
theorem bindsLast_bindAll (o : MapOrder) (es : List (String × Value)) :
    BindsLast es (o.bindAll (es.map textEntry)) := by
  refine ⟨fun e mem => MapOrder.exists_textEntry mem, fun k => ⟨?_, ?_⟩,
    fun k v => MapOrder.mem_bindAll_texts⟩
  · rintro ⟨v, mem⟩
    obtain ⟨front, back, split, -⟩ := List.lookup_eq_some_iff.1 (MapOrder.lookup_of_mem_bindAll mem)
    exact ⟨v, List.mem_reverse.1 (by simp [split])⟩
  · rintro ⟨v, own⟩
    obtain ⟨e, mem, equal⟩ := (o.lastWins_texts es).bound _ (List.mem_map_of_mem own)
    obtain ⟨l, w, rfl⟩ := MapOrder.exists_textEntry mem
    obtain rfl : k = l := compare_eq_iff_eq.1 equal
    exact ⟨w, mem⟩

namespace Codec

variable {c : Codec}

/-- Decoding into either kind of map binds the same entries and ends alike. -/
theorem exists_decodeInto_map (bindings : c.registry.Typed c.catalog) (kt vt : Ty)
    (input : List UInt8) (mode : Mode) :
    ∃ (outcome : Except Fault Unit) (es : List (Datum × Datum)) (c' : Codec),
      (∀ e ∈ es, c.catalog.OfType kt e.1) ∧ ∀ (o : MapOrder) (d : Datum),
        c.decodeInto (.map o kt vt) d input mode = (outcome, .map (o.bindAll es), c') := by
  have keys : ∀ r, Datum.oneDown (c.context mode) maxDepth = some r → ∀ at',
      c.catalog.OfType kt (r kt (c.catalog.initial kt) at').dest := fun r level at' =>
    Datum.keepsTypes_oneDown bindings level kt _ at' (c.catalog.ofType_initial kt)
  have alike := @InPlace.exists_map _ _ (c.catalog.initial vt) _ _ vt keys (.start input)
  obtain ⟨outcome, es, last, each, runs⟩ := alike
  have run : ∀ o d, Datum.read (c.context mode) maxDepth (.map o kt vt) d (.start input) =
      ⟨outcome, .map (o.bindAll es), last⟩ := fun o d => by
    rw [Datum.read_eq, Datum.readStep]
    exact runs o d
  -- Only where the reader succeeds can anything be left over.
  rcases outcome with f | ⟨⟩
  · refine ⟨.error f, es, c.rememberAll mode last.trace.consulted, each, fun o d => ?_⟩
    unfold decodeInto settle reading
    rw [run]
  · refine ⟨finish last, es, c.rememberAll mode last.trace.consulted, each, fun o d => ?_⟩
    unfold decodeInto settle reading
    rw [run]

/-- What the reader refuses is not accepted. -/
theorem decodeInto_of_refuses {t : Ty} {d : Datum} {input : List UInt8} {mode : Mode}
    (refuses : (Decoded.parse (Datum.read (c.context mode) maxDepth t d)).Refuses input) :
    (c.decodeInto t d input mode).1 ≠ .ok () := by
  intro accepted
  obtain ⟨c', run, -⟩ := decodeInto_ok_iff.1 ⟨accepted, rfl⟩
  have refused := refuses 0 [] {}
  rw [List.append_nil] at refused
  cases refused.symm.trans run

/-- **Maps by key and maps as they came agree**, whatever the destinations held.  They take the same
inputs with the same faults and hold the same entries.  An input that is a map of texts as a dynamic
value is taken exactly if it is spelled out, and then each text is bound to the value of its last
entry. -/
theorem maps_agree (bindings : c.registry.Typed c.catalog) :
    (∀ (input : List UInt8) (es : List (String × Value)),
      (c.decodeValue input).1 = .ok (.map (es.map fun e => (.text e.1, e.2))) →
      ∃ w : WireValue, w.bytes = input ∧ w.Everywhere WireValue.Formed ∧
        ∀ (mode : Mode) (d d' : Datum),
          let byKey := c.decodeInto (.map .sorted .text .dynamic) d input mode
          let asCame := c.decodeInto (.map .arrival .text .dynamic) d' input mode
          (byKey.1 = .ok () ↔ w.SpelledOut) ∧ (asCame.1 = .ok () ↔ w.SpelledOut) ∧
            (w.SpelledOut → SameMap byKey.2.1 asCame.2.1 ∧
              BindsLast es byKey.2.1.entries ∧ BindsLast es asCame.2.1.entries)) ∧
      ∀ (kt vt : Ty) (input : List UInt8) (mode : Mode) (d d' : Datum),
        let byKey := c.decodeInto (.map .sorted kt vt) d input mode
        let asCame := c.decodeInto (.map .arrival kt vt) d' input mode
        byKey.1 = asCame.1 ∧ SameMap byKey.2.1 asCame.2.1 ∧ byKey.2.2 = asCame.2.2 := by
  have both : ∀ (kt vt : Ty) (input : List UInt8) (mode : Mode) (d d' : Datum),
      let byKey := c.decodeInto (.map .sorted kt vt) d input mode
      let asCame := c.decodeInto (.map .arrival kt vt) d' input mode
      byKey.1 = asCame.1 ∧ SameMap byKey.2.1 asCame.2.1 ∧ byKey.2.2 = asCame.2.2 := by
    intro kt vt input mode d d'
    obtain ⟨outcome, es, c', each, runs⟩ := exists_decodeInto_map bindings kt vt input mode
    rw [runs .sorted d, runs .arrival d']
    exact ⟨rfl, sameMap_bindAll (c.catalog.comparable_ofType kt) each, rfl⟩
  refine ⟨fun input es decoded => ?_, both⟩
  obtain ⟨w, rfl, formed, shallow, reads⟩ := exists_readsAs_of_decodeValue decoded
  have taken : w.SpelledOut → ∀ (mode : Mode) (o : MapOrder) (d : Datum),
      (c.decodeInto (.map o .text .dynamic) d w.bytes mode).1 = .ok () ∧
        (c.decodeInto (.map o .text .dynamic) d w.bytes mode).2.1 =
          .map (o.bindAll (es.map textEntry)) := fun spelled mode o d =>
    decodeInto_of_takes (InPlace.takes_map_texts reads spelled shallow o d)
  -- whatever is not spelled out is refused, so nothing else is accepted
  have exact' : ∀ (mode : Mode) (o : MapOrder) (d : Datum),
      (c.decodeInto (.map o .text .dynamic) d w.bytes mode).1 = .ok () ↔ w.SpelledOut := by
    refine fun mode o d => ⟨fun accepted => ?_, fun spelled => (taken spelled mode o d).1⟩
    refine Classical.byContradiction fun not' => decodeInto_of_refuses ?_ accepted
    exact InPlace.refuses_map_texts reads not' shallow o d
  refine ⟨w, rfl, formed, fun mode d d' => ⟨exact' mode _ d, exact' mode _ d', fun spelled => ?_⟩⟩
  refine ⟨(both .text .dynamic w.bytes mode d d').2.1, ?_, ?_⟩
  · rw [(taken spelled mode _ d).2]
    exact bindsLast_bindAll _ es
  · rw [(taken spelled mode _ d').2]
    exact bindsLast_bindAll _ es

/-- Of two entries with one key the later one stays, and nothing stays that was there before. -/
theorem maps_agree_duplicate :
    let c := fresh ⟨[], rfl, rfl⟩
    let input : List UInt8 := [0x83, 0xa1, 98, 1, 0xa1, 97, 2, 0xa1, 98, 0xc0]
    let es : List (String × Value) := [("b", .uint 1), ("a", .uint 2), ("b", .nil)]
    let d : Datum := .map [(.text "z", .dynamic .nil)]
    let byKey := c.decodeInto (.map .sorted .text .dynamic) d input .named
    let asCame := c.decodeInto (.map .arrival .text .dynamic) d input .named
    c.registry.Typed c.catalog ∧
      (c.decodeValue input).1 = .ok (.map (es.map fun e => (.text e.1, e.2))) ∧
      byKey.1 = .ok () ∧ asCame.1 = .ok () ∧ SameMap byKey.2.1 asCame.2.1 ∧
      BindsLast es byKey.2.1.entries ∧ BindsLast es asCame.2.1.entries ∧
      byKey.2.1 = .map [textEntry ("a", .uint 2), textEntry ("b", .nil)] := by
  intro c input es d byKey asCame
  have bindings : c.registry.Typed c.catalog := Registry.typed_initial _
  have decoded : (c.decodeValue input).1 = .ok (.map (es.map fun e => (.text e.1, e.2))) := by
    unfold c input
    rfl
  obtain ⟨w, bytes, formed, agree⟩ := (maps_agree bindings).1 input es decoded
  obtain ⟨accepted, accepted', bound⟩ := agree .named d d
  have spelled : w.SpelledOut := by
    obtain ⟨v, bytes', formed', -, reads⟩ := exists_readsAs_of_decodeValue decoded
    obtain rfl := WireValue.unique formed formed' (bytes.trans bytes'.symm)
    exact WireValue.spelledOut_of_onlyTimestamps Registry.consistent_initial
      Registry.onlyTimestamps_initial reads
  obtain ⟨same, last, last'⟩ := bound spelled
  exact ⟨bindings, decoded, accepted.2 spelled, accepted'.2 spelled, same, last, last',
    by decide +kernel⟩

/-- A map of texts takes no extension for a key, even if its dynamic form is a text. -/
theorem maps_refuse_extension :
    let c := ((fresh { records := [{ name := "Version", fields := [] }] }).register
      (Gallery.version 0 5 true)).2
    let input : List UInt8 := [0x81, 0xd6, 5, 0, 1, 0, 2, 1]
    (c.decodeValue input).1 = .ok (.map [(.text "1.2", .uint 1)]) ∧
      ∀ (o : MapOrder) (mode : Mode) (d : Datum),
        (c.decodeInto (.map o .text .dynamic) d input mode).1 = .error (.format 0xd6 .text) := by
  intro c input
  refine ⟨by decide +kernel, fun o mode d => ?_⟩
  cases o <;> cases mode <;> rfl

end Codec

end MessagePack
