import MessagePack.Proofs.Decode.Language
import MessagePack.Proofs.RoundTrip.Value
import MessagePack.Proofs.Wire.Shortest
/-!
# What is written is the shortest form

A value may be read from many bytes: headers may be wider than they need to be, numbers longer,
extensions and timestamps in longer forms.  What is written for it is never longer, and reading that
gives the value back, whole numbers from zero up being unsigned.

`Value.Rewrites` states this of one tree and what it is read as, and is closed under arrays and
maps.  Main statements: `WireValue.ReadsAs.rewrites`, by induction on the tree, and
`Codec.encode_shortest`, the same for whole operations of a codec.
-/

namespace MessagePack

namespace Value

open WireValue Script

variable {cx : Context} {b : UInt8} {body bs : List UInt8} {v : Value} {w : WireValue}

/-! ## 1. What is read is written again

The induction is on the tree that an input is the bytes of.  Four things go together there, since
each is needed one level up: the kind of what was read (a key must be no array and no map), how deep
it nests (it is to be read back), its leaves, which come back as they were but for their spelling,
and how many bytes it takes. -/

/-- A value without parts that comes back as it is, if it is no whole number. -/
def SteadyLeaf (r : Registry) (v : Value) : Prop := RawLeaf r v ∧ settleLeaf v = unsignedLeaf v

/-- The value can be written in no more bytes than the tree has, and comes back then. -/
structure Rewrites (cx : Context) (w : WireValue) (v : Value) : Prop where
  kind : v.kind.isContainer = w.header.isContainer
  depth : v.depth ≤ w.depth
  leaves : v.AllLeaves (SteadyLeaf cx.registry)
  puts : ∃ bs, (v.script cx).Puts bs ∧ bs.length ≤ w.bytes.length

/-- A value without parts nests no deeper than nothing. -/
theorem rewrites_flat (single : (Header.ofByte b).isContainer = false)
    (leaf : v.kind.isContainer = false) (steady : SteadyLeaf cx.registry v)
    (puts : ∃ bs, (v.script cx).Puts bs ∧ bs.length ≤ 1 + body.length) :
    Rewrites cx (.node b body []) v := by
  have flat : v.depth = 0 ∧ v.AllLeaves (SteadyLeaf cx.registry) := by
    cases v with
    | array | map => cases leaf
    | _ => exact ⟨rfl, steady⟩
  refine ⟨leaf.trans single.symm, ?_, flat.2, ?_⟩
  · rw [flat.1]
    exact Nat.zero_le _
  · rwa [bytes_flat, List.length_cons, Nat.add_comm]

/-- The payload of a timestamp needs no more than the one it was read from. -/
theorem timestamp_announces {h : Header} {size payload : List UInt8} {t : Timestamp}
    (announces : Family.ext.Announces h size payload.length)
    (read : Timestamp.ofPayload payload = .ok t) :
    ∃ h' size', Family.ext.Announces h' size' t.payload.length ∧
      size'.length + t.payload.length ≤ size.length + payload.length := by
  -- the shortest payload is the one that was read, or one of four or eight bytes with a header of
  -- its own
  rcases Timestamp.length_payload_le read with same | ⟨four | eight, le⟩
  · rw [← same] at announces ⊢
    exact ⟨h, size, announces, Nat.le_refl _⟩
  · refine ⟨.fixExt 2, [], .fix (by rw [four]; rfl), ?_⟩
    exact Nat.add_le_add (Nat.zero_le _) le
  · refine ⟨.fixExt 3, [], .fix (by rw [eight]; rfl), ?_⟩
    exact Nat.add_le_add (Nat.zero_le _) le

/-- An extension is a timestamp or stays raw. -/
theorem rewrites_extension (con : cx.registry.Consistent) (only : cx.registry.OnlyTimestamps)
    {tag : Int8} {payload : List UInt8} (holds : (Header.ofByte b).HoldsExt body tag payload)
    (rich : ofExt cx.registry tag payload = .ok v) : Rewrites cx (.node b body []) v := by
  obtain ⟨size, rfl, announces⟩ := Family.announces_ext (Header.stands_ofByte b) holds
  -- the timestamp's tag is bound and no other is
  by_cases own : tag = Binding.timestampTag
  · subst own
    rw [ofExt_timestamp con] at rich
    split at rich
    · rename_i t read
      cases rich
      -- its payload may have been a longer one
      obtain ⟨h', size', announces', le⟩ := timestamp_announces announces read
      obtain ⟨bs, puts, shorter⟩ := ext_shortest announces' Binding.timestampTag
      refine rewrites_flat holds.flat rfl ⟨trivial, rfl⟩ ?_
      rw [script_timestamp con]
      refine ⟨bs, puts, Nat.le_trans shorter ?_⟩
      simp only [List.length_append, List.length_cons]
      omega
    · cases rich
  · -- what no binding makes a value of is kept with its tag and its payload
    have raw : ofExt cx.registry tag payload = .ok (.ext tag payload) := ofExt_other only own
    cases raw.symm.trans rich
    exact rewrites_flat holds.flat rfl ⟨raw, rfl⟩ (ext_shortest announces tag)

/-- What has no parts. -/
theorem rewrites_alone (con : cx.registry.Consistent) (only : cx.registry.OnlyTimestamps)
    (alone : (Header.ofByte b).ReadsAs cx.registry body v) : Rewrites cx (.node b body []) v := by
  have stands := Header.stands_ofByte b
  have single := alone.flat
  have own := alone.owes
  generalize same : Header.ofByte b = h at alone stands single own
  rw [← same] at single
  cases alone with
  | nil | bool => exact rewrites_flat single rfl ⟨trivial, rfl⟩ ⟨_, rfl, Nat.le_refl 1⟩
  | uint spells => exact rewrites_flat single rfl ⟨trivial, rfl⟩ spells.uint_shortest
  | int spells => exact rewrites_flat single rfl ⟨trivial, rfl⟩ spells.int_shortest
  | @single _ x =>
    -- what was widened and narrowed once stays as it is from then on
    have steady : settleLeaf (.single x.widen.narrow) = .single x.widen.narrow :=
      congrArg Value.single x.narrow_widen_idem
    refine rewrites_flat single rfl ⟨trivial, steady⟩ ⟨_, puts_headed_self .., ?_⟩
    simp [own.1, Nat.add_comm]
  | double =>
    refine rewrites_flat single rfl ⟨trivial, rfl⟩ ⟨_, puts_headed_self .., ?_⟩
    simp [own.1, Nat.add_comm]
  | text text holds =>
    obtain ⟨size, rfl, announces⟩ := Family.announces_text stands text holds
    exact rewrites_flat single rfl ⟨trivial, rfl⟩ (announced_shortest announces)
  | bin bin holds =>
    obtain ⟨size, rfl, announces⟩ := Family.announces_bin stands bin holds
    exact rewrites_flat single rfl ⟨trivial, rfl⟩ (announced_shortest announces)
  | extension holds rich =>
    rw [← same] at holds
    exact rewrites_extension con only holds rich

/-- Items one after another. -/
theorem rewrites_items {ws : List WireValue} {vs : List Value}
    (each : List.Forall₂ (Rewrites cx) ws vs) :
    depthItems vs ≤ depthAll ws ∧ AllItems (SteadyLeaf cx.registry) vs ∧
      ∃ bs, (itemsScript cx vs).Puts bs ∧ bs.length ≤ (bytesAll ws).length := by
  induction each with
  | nil => exact ⟨Nat.le_refl 0, trivial, [], rfl, Nat.le_refl 0⟩
  | @cons w v ws vs first _ ih =>
    obtain ⟨depth, leaves, bs, puts, le⟩ := ih
    obtain ⟨u, puts', le'⟩ := first.puts
    refine ⟨?_, ⟨first.leaves, leaves⟩, u ++ bs, puts_append.2 ⟨u, bs, puts', puts, rfl⟩, ?_⟩
    · have here := first.depth
      simp only [depthItems, depthAll]
      omega
    · rw [List.length_append, bytesAll, List.length_append]
      exact Nat.add_le_add le' le

/-- Entries one after another, none with an array or a map for a key. -/
theorem rewrites_entries {es : List (WireValue × WireValue)} {entries : List (Value × Value)}
    (single : ∀ e ∈ es, e.1.header.isContainer = false)
    (each : List.Forall₂ (fun e x => Rewrites cx e.1 x.1 ∧ Rewrites cx e.2 x.2) es entries) :
    depthEntries entries ≤ depthAll (unpair es) ∧ AllEntries (SteadyLeaf cx.registry) entries ∧
      ∃ bs, (entriesScript cx entries).Puts bs ∧ bs.length ≤ (bytesAll (unpair es)).length := by
  induction each with
  | nil => exact ⟨Nat.le_refl 0, trivial, [], rfl, Nat.le_refl 0⟩
  | @cons e x es entries first _ ih =>
    obtain ⟨flat, single⟩ := List.forall_mem_cons.1 single
    obtain ⟨depth, leaves, bs, puts, le⟩ := ih single
    obtain ⟨key, value⟩ := first
    obtain ⟨u, putsKey, leKey⟩ := key.puts
    obtain ⟨v, putsValue, leValue⟩ := value.puts
    have unpaired : unpair (e :: es) = e.1 :: e.2 :: unpair es := rfl
    -- a key that was read is no container, so it is taken as a key
    have checked := puts_key.2 ⟨key.kind.trans flat, putsKey⟩
    refine ⟨?_, ⟨key.leaves, value.leaves, leaves⟩, u ++ v ++ bs,
      puts_append.2 ⟨_, _, puts_append.2 ⟨_, _, checked, putsValue, rfl⟩, puts, rfl⟩, ?_⟩
    · have first := key.depth
      have second := value.depth
      rw [unpaired]
      simp only [depthEntries, depthAll]
      omega
    · rw [unpaired, bytesAll, bytesAll]
      simp only [List.length_append]
      omega

/-- An array has the same number of items, under a header that may be shorter. -/
theorem rewrites_array {ws : List WireValue} {items : List Value}
    (array : (Header.ofByte b).isArray = true) (own : (Header.ofByte b).Owes body ws.length)
    (each : List.Forall₂ (Rewrites cx) ws items) :
    Rewrites cx (.node b body ws) (.array items) := by
  have deep := Header.isContainer_of_isArray array
  obtain ⟨depth, leaves, bs, puts, le⟩ := rewrites_items each
  rw [each.length_eq] at own
  have announces := Family.announces_array (Header.stands_ofByte b) array own
  refine ⟨deep.symm, ?_, leaves, ?_⟩
  · rw [WireValue.depth, if_pos deep]
    exact Nat.succ_le_succ depth
  · rw [WireValue.bytes, List.length_cons, Nat.add_comm]
    exact headed_shortest announces puts le

/-- A map has the same number of entries, under a header that may be shorter. -/
theorem rewrites_map {es : List (WireValue × WireValue)} {entries : List (Value × Value)}
    (map : (Header.ofByte b).isMap = true) (own : (Header.ofByte b).Owes body (2 * es.length))
    (single : ∀ e ∈ es, e.1.header.isContainer = false)
    (each : List.Forall₂ (fun e x => Rewrites cx e.1 x.1 ∧ Rewrites cx e.2 x.2) es entries) :
    Rewrites cx (.node b body (unpair es)) (.map entries) := by
  have deep := Header.isContainer_of_isMap map
  obtain ⟨depth, leaves, bs, puts, le⟩ := rewrites_entries single each
  rw [each.length_eq] at own
  have announces := Family.announces_map (Header.stands_ofByte b) map own
  refine ⟨deep.symm, ?_, leaves, ?_⟩
  · rw [WireValue.depth, if_pos deep]
    exact Nat.succ_le_succ depth
  · rw [WireValue.bytes, List.length_cons, Nat.add_comm]
    exact headed_shortest announces puts le

/-- **Whatever a tree is read as can be written in no more bytes than the tree has.** -/
theorem rewrites_of_readsAs (con : cx.registry.Consistent) (only : cx.registry.OnlyTimestamps)
    (reads : w.ReadsAs cx.registry v) : Rewrites cx w v := by
  induction reads with
  | flat alone => exact rewrites_alone con only alone
  | array array own length each ih =>
    exact rewrites_array array own (List.forall₂_iff_zip.2 ⟨length, fun h => ih _ h⟩)
  | map map own single length keys values ihk ihv =>
    have each := List.forall₂_iff_zip.2 ⟨length, fun h => And.intro (ihk _ h) (ihv _ h)⟩
    exact rewrites_map map own single each

/-! ## 2. Values written alike

Of two values that differ in the spelling of whole numbers one is put in the same bytes as the
other, and of two that differ in floats that are no numbers in as many bytes.  Both are instances of
one fact about replacing the leaves of a value, `Value.PutsAlike`. -/

mutual

/-- Functions that agree on all leaves of a value make the same of it. -/
theorem mapLeaves_congr {f g : Value → Value} :
    ∀ v : Value, v.AllLeaves (fun x => f x = g x) → mapLeaves f v = mapLeaves g v
  | .array items, same => congrArg Value.array (mapItems_congr items same)
  | .map entries, same => congrArg Value.map (mapEntries_congr entries same)
  | .nil, same | .bool _, same | .int _, same | .uint _, same | .single _, same | .double _, same
  | .text _, same | .bin _, same | .ext _ _, same | .timestamp _, same => same

theorem mapItems_congr {f g : Value → Value} :
    ∀ vs : List Value, AllItems (fun x => f x = g x) vs → mapItems f vs = mapItems g vs
  | [], _ => rfl
  | v :: vs, same => by
    rw [mapItems, mapItems, mapLeaves_congr v same.1, mapItems_congr vs same.2]

theorem mapEntries_congr {f g : Value → Value} :
    ∀ es : List (Value × Value), AllEntries (fun x => f x = g x) es →
      mapEntries f es = mapEntries g es
  | [], _ => rfl
  | (k, v) :: es, same => by
    rw [mapEntries, mapEntries, mapLeaves_congr k same.1, mapLeaves_congr v same.2.1,
      mapEntries_congr es same.2.2]

end

/-- To replace the parts of a value by `f` changes what is put for it only up to `R`. -/
structure PutsAlike (cx : Context) (f : Value → Value) (R : List UInt8 → List UInt8 → Prop) :
    Prop where
  refl : ∀ u, R u u
  append : ∀ {u u' v v'}, R u u' → R v v' → R (u ++ v) (u' ++ v')
  leaf : ∀ {v : Value} {bs}, v.kind.isContainer = false → (v.script cx).Puts bs →
    (f v).kind.isContainer = false ∧ ∃ bs', ((f v).script cx).Puts bs' ∧ R bs bs'

/-- Replacing leaves keeps the number of items, -/
theorem length_mapItems (f : Value → Value) (vs : List Value) :
    (mapItems f vs).length = vs.length := by
  induction vs with
  | nil => rfl
  | cons v vs ih => rw [mapItems, List.length_cons, List.length_cons, ih]

/-- and that of entries. -/
theorem length_mapEntries (f : Value → Value) (es : List (Value × Value)) :
    (mapEntries f es).length = es.length := by
  induction es with
  | nil => rfl
  | cons e es ih => rw [mapEntries, List.length_cons, List.length_cons, ih]

variable {f : Value → Value} {R : List UInt8 → List UInt8 → Prop}

/-- A value without parts is its own leaf. -/
theorem mapLeaves_of_leaf (leaf : v.kind.isContainer = false) : mapLeaves f v = f v := by
  cases v with
  | array | map => cases leaf
  | _ => rfl

theorem PutsAlike.mapLeaves_leaf (alike : PutsAlike cx f R) (leaf : v.kind.isContainer = false)
    (puts : (v.script cx).Puts bs) : ∃ bs', ((mapLeaves f v).script cx).Puts bs' ∧ R bs bs' := by
  rw [mapLeaves_of_leaf leaf]
  exact (alike.leaf leaf puts).2

mutual

theorem PutsAlike.mapLeaves (alike : PutsAlike cx f R) :
    ∀ (v : Value) {bs}, (v.script cx).Puts bs →
      ∃ bs', ((mapLeaves f v).script cx).Puts bs' ∧ R bs bs'
  | .array items, bs, puts => by
    obtain ⟨u, w, hu, hw, rfl⟩ := puts_append.1 puts
    obtain ⟨w', hw', same⟩ := PutsAlike.mapItems alike items hw
    -- the header is the same, since it tells the number of items alone
    rw [← length_mapItems f items] at hu
    exact ⟨u ++ w', puts_append.2 ⟨u, w', hu, hw', rfl⟩, alike.append (alike.refl u) same⟩
  | .map entries, bs, puts => by
    obtain ⟨u, w, hu, hw, rfl⟩ := puts_append.1 puts
    obtain ⟨w', hw', same⟩ := PutsAlike.mapEntries alike entries hw
    rw [← length_mapEntries f entries] at hu
    exact ⟨u ++ w', puts_append.2 ⟨u, w', hu, hw', rfl⟩, alike.append (alike.refl u) same⟩
  | .nil, _, puts | .bool _, _, puts | .int _, _, puts | .uint _, _, puts | .single _, _, puts
  | .double _, _, puts | .text _, _, puts | .bin _, _, puts | .ext _ _, _, puts
  | .timestamp _, _, puts => alike.mapLeaves_leaf rfl puts

theorem PutsAlike.mapItems (alike : PutsAlike cx f R) :
    ∀ (vs : List Value) {bs}, (itemsScript cx vs).Puts bs →
      ∃ bs', (itemsScript cx (mapItems f vs)).Puts bs' ∧ R bs bs'
  | [], bs, puts => ⟨bs, puts, alike.refl bs⟩
  | v :: vs, bs, puts => by
    obtain ⟨u, w, hu, hw, rfl⟩ := puts_append.1 puts
    obtain ⟨u', hu', first⟩ := PutsAlike.mapLeaves alike v hu
    obtain ⟨w', hw', rest⟩ := PutsAlike.mapItems alike vs hw
    exact ⟨u' ++ w', puts_append.2 ⟨u', w', hu', hw', rfl⟩, alike.append first rest⟩

theorem PutsAlike.mapEntries (alike : PutsAlike cx f R) :
    ∀ (es : List (Value × Value)) {bs}, (entriesScript cx es).Puts bs →
      ∃ bs', (entriesScript cx (mapEntries f es)).Puts bs' ∧ R bs bs'
  | [], bs, puts => ⟨bs, puts, alike.refl bs⟩
  | (k, v) :: es, bs, puts => by
    obtain ⟨kv, w, hkv, hw, rfl⟩ := puts_append.1 puts
    obtain ⟨u, u₁, hu, hu₁, rfl⟩ := puts_append.1 hkv
    -- a key that is put is a leaf, and stays one
    obtain ⟨flat, hu⟩ := puts_key.1 hu
    obtain ⟨flat', u', hu', key⟩ := alike.leaf flat hu
    rw [← mapLeaves_of_leaf flat (f := f)] at flat' hu'
    obtain ⟨u₁', hu₁', value⟩ := PutsAlike.mapLeaves alike v hu₁
    obtain ⟨w', hw', rest⟩ := PutsAlike.mapEntries alike es hw
    have pair := puts_append.2 ⟨u', u₁', puts_key.2 ⟨flat', hu'⟩, hu₁', rfl⟩
    exact ⟨u' ++ u₁' ++ w', puts_append.2 ⟨_, w', pair, hw', rfl⟩,
      alike.append (alike.append key value) rest⟩

end

/-- A whole number from zero up is put as if it were unsigned. -/
theorem putsAlike_unsigned (cx : Context) : PutsAlike cx unsignedLeaf fun u u' => u' = u := by
  refine ⟨fun _ => rfl, fun {_ _ _ _} e e' => by rw [e, e'], fun {v bs} leaf puts => ?_⟩
  cases v with
  | int i =>
    unfold unsignedLeaf
    dsimp only
    split
    · rename_i positive
      -- from zero up the writer takes the way of numbers without a sign in any case
      have high := i.toInt_lt
      have room : i.toInt.toNat < 2 ^ 64 := by omega
      have value : (UInt64.ofNat i.toInt.toNat).toNat = i.toInt.toNat :=
        UInt64.toNat_ofNat_of_lt' room
      refine ⟨rfl, bs, ?_, rfl⟩
      unfold script Script.int at puts
      rw [if_pos positive] at puts
      rw [script, value]
      exact puts
    · exact ⟨rfl, bs, puts, rfl⟩
  | array | map => cases leaf
  | _ => exact ⟨leaf, bs, puts, rfl⟩

/-- All floats of one width take as many bytes. -/
theorem putsAlike_upToNan (cx : Context) :
    PutsAlike cx nanLeaf fun u u' => u'.length = u.length := by
  refine ⟨fun _ => rfl, fun {_ _ _ _} e e' => by simp [e, e'], fun {v bs} leaf puts => ?_⟩
  cases v with
  | single x =>
    cases (puts_headed_self .single (bigEndian 4 x.bits.toNat)).symm.trans puts
    exact ⟨rfl, _, puts_headed_self .., by simp⟩
  | double x =>
    cases (puts_headed_self .double (bigEndian 8 x.bits.toNat)).symm.trans puts
    exact ⟨rfl, _, puts_headed_self .., by simp⟩
  | array | map => cases leaf
  | _ => exact ⟨leaf, bs, puts, rfl⟩

variable {u : List UInt8}

/-- What is put for a value is put for it with its whole numbers unsigned. -/
theorem puts_unsigned (puts : (v.script cx).Puts bs) : (v.unsigned.script cx).Puts bs := by
  obtain ⟨_, puts', rfl⟩ := (putsAlike_unsigned cx).mapLeaves v puts
  exact puts'

/-- **Values that differ in the spelling of whole numbers and in floats that are no numbers take as
many bytes.** -/
theorem length_eq_of_upToNan {v' : Value} (puts : (v.script cx).Puts bs)
    (puts' : (v'.script cx).Puts u) (same : v'.unsigned.upToNan = v.unsigned.upToNan) :
    bs.length = u.length := by
  -- with the spelling of whole numbers and of floats settled, both are one value
  obtain ⟨w, put, length⟩ := (putsAlike_upToNan cx).mapLeaves _ (puts_unsigned puts)
  obtain ⟨w', put', length'⟩ := (putsAlike_upToNan cx).mapLeaves _ (puts_unsigned puts')
  change (v'.unsigned.upToNan.script cx).Puts w' at put'
  rw [same] at put'
  cases put.symm.trans put'
  exact length.symm.trans length'

/-- What is put for a value that was read comes back with its whole numbers unsigned. -/
theorem Rewrites.takes {n : Nat} (con : cx.registry.Consistent) (rewrites : Rewrites cx w v)
    (shallow : w.depth ≤ n) (puts : (v.script cx).Puts bs) :
    (read cx.registry n).parse.Takes bs v.unsigned := by
  have raw : v.Raw cx.registry := AllLeaves.mono (fun _ steady => steady.1) v rewrites.leaves
  have same : v.settled = v.unsigned :=
    mapLeaves_congr v (AllLeaves.mono (fun _ steady => steady.2) v rewrites.leaves)
  have nests := (complete_script con v puts).mono (Nat.le_trans rewrites.depth shallow)
  rw [← same]
  exact takes_read con v raw puts nests

end Value

/-! ## 3. Whole operations

An operation of a codec reads with all levels left and writes by one script.  What it remembers of
layouts is of no account, so the registry that a later operation sees is the one that the first
saw. -/

namespace Codec

variable {c : Codec} {input bs : List UInt8} {v : Value}

/-- What is decoded from an input is rewritten. -/
theorem exists_rewrites (reachable : c.Reachable) (only : c.registry.OnlyTimestamps) (mode : Mode)
    (decoded : (c.decodeValue input).1 = .ok v) :
    ∃ w : WireValue,
      w.bytes = input ∧ w.depth ≤ maxDepth ∧ Value.Rewrites (c.context mode) w v := by
  obtain ⟨w, rfl, -, shallow, reads⟩ := exists_readsAs_of_decodeValue decoded
  exact ⟨w, rfl, shallow, Value.rewrites_of_readsAs reachable.consistent.registry only reads⟩

/-- Reading a value changes nothing that a later operation sees, -/
theorem context_decodeValue (c : Codec) (input : List UInt8) (mode : Mode) :
    (c.decodeValue input).2.context mode = c.context mode :=
  context_rememberAll ..

/-- nor does writing. -/
theorem context_encode (c : Codec) (t : Ty) (d : Datum) (mode mode' : Mode) :
    (c.encode t d mode).2.context mode' = c.context mode' :=
  context_rememberAll ..

theorem encode_dynamic {mode : Mode} :
    (c.encode .dynamic (.dynamic v) mode).1 = .ok bs ↔ (v.script (c.context mode)).Puts bs := by
  rw [encode_eq_ok, Datum.script]
  rfl

/-- **A value that was decoded is encoded in a shortest form.**  The form is no longer than the
input; it is decoded as the value with its whole numbers from zero up unsigned, and that value has
the same form.  No input is shorter that is decoded as the same value, but for the spelling of whole
numbers and for floats that are no numbers. -/
theorem encode_shortest (reachable : c.Reachable) (only : c.registry.OnlyTimestamps)
    (decoded : (c.decodeValue input).1 = .ok v) (mode : Mode) :
    let written := (c.decodeValue input).2.encode .dynamic (.dynamic v) mode
    ∃ bs, written.1 = .ok bs ∧ bs.length ≤ input.length ∧
      (written.2.decodeValue bs).1 = .ok v.unsigned ∧
      ((written.2.decodeValue bs).2.encode .dynamic (.dynamic v.unsigned) mode).1 = .ok bs ∧
      ∀ input' v', (c.decodeValue input').1 = .ok v' →
        v'.unsigned.upToNan = v.unsigned.upToNan → bs.length ≤ input'.length := by
  intro written
  have con := reachable.consistent.registry
  obtain ⟨w, rfl, shallow, rewrites⟩ := exists_rewrites reachable only mode decoded
  obtain ⟨bs, puts, le⟩ := rewrites.puts
  have later : written.2.context mode = c.context mode :=
    (context_encode ..).trans (context_decodeValue ..)
  have bindings : written.2.registry = c.registry := congrArg Context.registry later
  refine ⟨bs, ?_, le, ?_, ?_, fun input' v' decoded' same => ?_⟩
  · refine encode_dynamic.2 ?_
    rwa [context_decodeValue]
  · refine decodeValue_of_takes ?_
    rw [bindings]
    exact rewrites.takes con shallow puts
  · -- what was put for the value as it was read is put for it unsigned
    refine encode_dynamic.2 ?_
    rw [context_decodeValue, later]
    exact Value.puts_unsigned puts
  · -- the other input is rewritten too, in as many bytes as this one
    obtain ⟨w', rfl, -, rewrites'⟩ := exists_rewrites reachable only mode decoded'
    obtain ⟨bs', puts', le'⟩ := rewrites'.puts
    rw [Value.length_eq_of_upToNan puts puts' same]
    exact le'

/-- An array of a long number, a timestamp in a longer form and a text with a wide header. -/
theorem encode_shortest_array :
    let c := fresh ⟨[], rfl, rfl⟩
    let input : List UInt8 := [0xdd, 0, 0, 0, 3, 0xd3, 0, 0, 0, 0, 0, 0, 0, 5,
      0xc7, 8, 0xff, 0, 0, 0, 0, 0, 0, 0, 1, 0xd9, 1, 97]
    let v : Value := .array [.int 5, .timestamp ⟨1, noNanos⟩, .text "a"]
    let written := (c.decodeValue input).2.encode .dynamic (.dynamic v) .named
    c.Reachable ∧ c.registry.OnlyTimestamps ∧ (c.decodeValue input).1 = .ok v ∧
      ∃ bs, written.1 = .ok bs ∧ bs.length ≤ input.length ∧
        (written.2.decodeValue bs).1 = .ok v.unsigned ∧
        ((written.2.decodeValue bs).2.encode .dynamic (.dynamic v.unsigned) .named).1 = .ok bs ∧
        ∀ input' v', (c.decodeValue input').1 = .ok v' →
          v'.unsigned.upToNan = v.unsigned.upToNan → bs.length ≤ input'.length := by
  intro c input v written
  have reachable : c.Reachable := .fresh _
  have only : c.registry.OnlyTimestamps := Registry.onlyTimestamps_initial
  have decoded : (c.decodeValue input).1 = .ok v := by
    unfold c input v
    rfl
  exact ⟨reachable, only, decoded, encode_shortest reachable only decoded .named⟩

end Codec

end MessagePack
