import MessagePack.Proofs.Codec.Reachable
import MessagePack.Proofs.Decode.InPlace
import MessagePack.Proofs.Decode.Value
import MessagePack.Proofs.Encode.Runs
import MessagePack.Proofs.Ieee.Widen
import MessagePack.Proofs.Time.Payload
/-!
# Dynamic values come back

What `Value.script` puts is read by `Value.read` as the same value, except that whole numbers from
zero up come back unsigned.  Short floats pass through a long float on the way; that changes none of
them, and a pattern that is no number stays none.

`Value.settled` is exactly what comes back.  Main statements: `Value.takes_read`, reading what was
put, and `Codec.decodeValue_encode`, the same for whole operations of a codec.
-/

namespace MessagePack

namespace Value

/-! ## 1. Measures and forms of values -/

mutual

/-- How many levels of arrays and maps a value nests. -/
def depth : Value → Nat
  | .array items => depthItems items + 1
  | .map entries => depthEntries entries + 1
  | _ => 0

/-- The greatest depth of some items. -/
def depthItems : List Value → Nat
  | [] => 0
  | v :: vs => max (depth v) (depthItems vs)

/-- The greatest depth of some keys and values. -/
def depthEntries : List (Value × Value) → Nat
  | [] => 0
  | (k, v) :: es => max (max (depth k) (depth v)) (depthEntries es)

end

mutual

/-- Every part of the value that is no array and no map is one of `P`. -/
def AllLeaves (P : Value → Prop) : Value → Prop
  | .array items => AllItems P items
  | .map entries => AllEntries P entries
  | v => P v

def AllItems (P : Value → Prop) : List Value → Prop
  | [] => True
  | v :: vs => AllLeaves P v ∧ AllItems P vs

def AllEntries (P : Value → Prop) : List (Value × Value) → Prop
  | [] => True
  | (k, v) :: es => AllLeaves P k ∧ AllLeaves P v ∧ AllEntries P es

end

/-- No extension whose tag a binding claims. -/
def UnclaimedLeaf (r : Registry) : Value → Prop
  | .ext tag _ => r.forTag? tag = none
  | _ => True

/-- No extension in the value has a tag that a binding claims. -/
def Unclaimed (r : Registry) : Value → Prop := AllLeaves (UnclaimedLeaf r)

/-- No extension that is read as something else. -/
def RawLeaf (r : Registry) : Value → Prop
  | .ext tag payload => ofExt r tag payload = .ok (.ext tag payload)
  | _ => True

/-- The extensions in the value are read as they are: a binding that claims the tag of one takes its
payload and leaves it raw. -/
def Raw (r : Registry) : Value → Prop := AllLeaves (RawLeaf r)

mutual

/-- The value with everything but its arrays and maps replaced. -/
def mapLeaves (f : Value → Value) : Value → Value
  | .array items => .array (mapItems f items)
  | .map entries => .map (mapEntries f entries)
  | v => f v

def mapItems (f : Value → Value) : List Value → List Value
  | [] => []
  | v :: vs => mapLeaves f v :: mapItems f vs

def mapEntries (f : Value → Value) : List (Value × Value) → List (Value × Value)
  | [] => []
  | (k, v) :: es => (mapLeaves f k, mapLeaves f v) :: mapEntries f es

end

/-- A whole number from zero up becomes unsigned. -/
def unsignedLeaf : Value → Value
  | .int i => if 0 ≤ i.toInt then .uint (UInt64.ofNat i.toInt.toNat) else .int i
  | v => v

/-- The value with whole numbers from zero up unsigned. -/
def unsigned : Value → Value := mapLeaves unsignedLeaf

/-- A float that is no number becomes one fixed such float. -/
def nanLeaf : Value → Value
  | .single x => .single x.upToNan
  | .double x => .double x.upToNan
  | v => v

/-- The value with all floats that are no numbers alike. -/
def upToNan : Value → Value := mapLeaves nanLeaf

/-- What comes back of a value without parts. -/
def settleLeaf : Value → Value
  | .int i => unsignedLeaf (.int i)
  | .single x => .single x.widen.narrow
  | v => v

/-- What comes back of a value. -/
def settled : Value → Value := mapLeaves settleLeaf

/-- What holds of all leaves holds of a value that is one. -/
theorem AllLeaves.leaf {P : Value → Prop} {v : Value} (leaf : v.kind.isContainer = false)
    (all : v.AllLeaves P) : P v := by
  cases v with
  | array | map => cases leaf
  | _ => exact all

mutual

/-- What holds of all leaves implies what it implies of each. -/
theorem AllLeaves.mono {P Q : Value → Prop} (le : ∀ v, P v → Q v) :
    ∀ v : Value, v.AllLeaves P → v.AllLeaves Q
  | .array items, all => AllItems.mono le items all
  | .map entries, all => AllEntries.mono le entries all
  | .nil, all | .bool _, all | .int _, all | .uint _, all | .single _, all | .double _, all
  | .text _, all | .bin _, all | .ext _ _, all | .timestamp _, all => le _ all

theorem AllItems.mono {P Q : Value → Prop} (le : ∀ v, P v → Q v) :
    ∀ vs : List Value, AllItems P vs → AllItems Q vs
  | [], _ => trivial
  | v :: vs, all => ⟨AllLeaves.mono le v all.1, AllItems.mono le vs all.2⟩

theorem AllEntries.mono {P Q : Value → Prop} (le : ∀ v, P v → Q v) :
    ∀ es : List (Value × Value), AllEntries P es → AllEntries Q es
  | [], _ => trivial
  | (k, v) :: es, all =>
    ⟨AllLeaves.mono le k all.1, AllLeaves.mono le v all.2.1, AllEntries.mono le es all.2.2⟩

end

/-- An extension that no binding claims is read as it is. -/
theorem Unclaimed.raw {r : Registry} {v : Value} (unclaimed : v.Unclaimed r) : v.Raw r := by
  refine AllLeaves.mono (fun leaf open' => ?_) v unclaimed
  cases leaf with
  | ext tag payload =>
    change r.forTag? tag = none at open'
    simp only [RawLeaf, ofExt, open']
  | _ => trivial

/-! ## 2. Values without parts -/

variable {cx : Context} {v : Value} {h : Header} {body bs : List UInt8}

open Read Parse

/-- A number has no parts. -/
theorem flat_number {n : Number} (spells : h.Spells body n) : Flat (h.toByte :: body) :=
  .of_header spells.stands spells.flat spells.owes

/-- A timestamp is an extension, by its own binding. -/
theorem script_timestamp (con : cx.registry.Consistent) (t : Timestamp) :
    (Value.timestamp t).script cx = .ext Binding.timestampTag t.payload := by
  unfold script Context.encodeExtension
  rw [con.timestamp]
  rfl

/-- **What is put for a value without parts is read as that value, settled.** -/
theorem takes_leaf (con : cx.registry.Consistent) (leaf : v.kind.isContainer = false)
    (puts : (v.script cx).Puts bs) :
    Flat bs ∧ (RawLeaf cx.registry v →
      ∀ deeper, (readStep cx.registry deeper).parse.Takes bs (settleLeaf v)) := by
  cases v with
  | nil =>
    obtain rfl := (Script.puts_put _).1 puts
    exact ⟨.nil, fun _ _ => takes_nil⟩
  | bool b =>
    obtain rfl := (Script.puts_put _).1 puts
    exact ⟨.of_header (Header.stands_bool b) rfl ⟨rfl, rfl⟩, fun _ _ => takes_truth b⟩
  | int i =>
    unfold settleLeaf unsignedLeaf
    dsimp only
    split
    · rename_i positive
      have high := i.toInt_lt
      obtain ⟨h, body, put, spells⟩ := Script.uint_spells (n := i.toInt.toNat) (by omega)
      unfold script Script.int at puts
      rw [if_pos positive] at puts
      cases put.symm.trans puts
      exact ⟨flat_number spells, fun _ _ => takes_uint spells⟩
    · rename_i negative
      obtain ⟨h, body, put, spells⟩ := Script.int_spells (i := i.toInt) (by omega) i.le_toInt
      cases put.symm.trans puts
      rw [Int64.ofInt_toInt] at spells
      exact ⟨flat_number spells, fun _ _ => takes_int spells⟩
  | uint u =>
    obtain ⟨h, body, put, spells⟩ := Script.uint_spells u.toNat_lt
    cases put.symm.trans puts
    rw [UInt64.ofNat_toNat] at spells
    exact ⟨flat_number spells, fun _ _ => takes_uint spells⟩
  | single x =>
    obtain ⟨body, put, spells⟩ := Script.single_spells x
    cases put.symm.trans puts
    exact ⟨flat_number spells, fun _ _ => takes_single spells⟩
  | double x =>
    obtain ⟨body, put, spells⟩ := Script.double_spells x
    cases put.symm.trans puts
    exact ⟨flat_number spells, fun _ _ => takes_double spells⟩
  | text s =>
    obtain ⟨h, body, e, rfl⟩ := Script.puts_announced.1 puts
    obtain ⟨text, holds⟩ := Family.text_announces e
    have stands := Family.stands_header? e
    exact ⟨.of_header stands holds.flat holds.owes,
      fun _ _ => takes_string stands text holds (textOfUtf8?_utf8Bytes s)⟩
  | bin bytes =>
    obtain ⟨h, body, e, rfl⟩ := Script.puts_announced.1 puts
    obtain ⟨bin, holds⟩ := Family.bin_announces e
    have stands := Family.stands_header? e
    exact ⟨.of_header stands holds.flat holds.owes, fun _ _ => takes_bin stands bin holds⟩
  | array items => cases leaf
  | map entries => cases leaf
  | ext tag payload =>
    obtain ⟨h, body, e, rfl⟩ := Script.puts_ext.1 puts
    have holds := Family.ext_announces e tag
    have stands := Family.stands_header? e
    exact ⟨.of_header stands holds.flat holds.owes, fun raw _ =>
      takes_extension stands holds raw⟩
  | timestamp t =>
    rw [script_timestamp con] at puts
    obtain ⟨h, body, e, rfl⟩ := Script.puts_ext.1 puts
    have holds := Family.ext_announces e Binding.timestampTag
    have stands := Family.stands_header? e
    refine ⟨.of_header stands holds.flat holds.owes, fun _ _ => takes_extension stands holds ?_⟩
    have tagged : cx.registry.forTag? Binding.timestampTag = some .timestamp :=
      (con.byHost con.timestamp).2
    simp only [ofExt, tagged, Binding.decodeValue, Binding.timestamp, Datum.asTimestamp,
      Timestamp.ofPayload_payload]
    rfl

/-! ## 3. All values -/

mutual

/-- What is put for a value is one complete value of the same depth. -/
theorem complete_script (con : cx.registry.Consistent) :
    ∀ (v : Value) {bs}, (v.script cx).Puts bs → Complete v.depth 1 bs
  | .array items, bs, puts => by
    obtain ⟨h, body, w, rfl, stands, array, own, hw⟩ := Script.puts_array puts
    exact .of_deep stands (Header.isContainer_of_isArray array) own (complete_items con items hw)
  | .map entries, bs, puts => by
    obtain ⟨h, body, w, rfl, stands, map, own, hw⟩ := Script.puts_map puts
    exact .of_deep stands (Header.isContainer_of_isMap map) own (complete_entries con entries hw)
  | .nil, _, puts | .bool _, _, puts | .int _, _, puts | .uint _, _, puts | .single _, _, puts
  | .double _, _, puts | .text _, _, puts | .bin _, _, puts | .ext _ _, _, puts
  | .timestamp _, _, puts => (takes_leaf con rfl puts).1.complete _

/-- Items are as many values. -/
theorem complete_items (con : cx.registry.Consistent) :
    ∀ (vs : List Value) {bs}, (itemsScript cx vs).Puts bs → Complete (depthItems vs) vs.length bs
  | [], _, puts => by
    cases puts
    exact .none
  | v :: vs, _, puts => by
    obtain ⟨u, w, hu, hw, rfl⟩ := Script.puts_append.1 puts
    rw [List.length_cons, Nat.add_comm]
    exact ((complete_script con v hu).mono (Nat.le_max_left _ _)).append
      ((complete_items con vs hw).mono (Nat.le_max_right _ _))

/-- Entries are twice as many. -/
theorem complete_entries (con : cx.registry.Consistent) :
    ∀ (es : List (Value × Value)) {bs}, (entriesScript cx es).Puts bs →
      Complete (depthEntries es) (2 * es.length) bs
  | [], _, puts => by
    cases puts
    exact .none
  | (k, v) :: es, _, puts => by
    obtain ⟨kv, w, hkv, hw, rfl⟩ := Script.puts_append.1 puts
    obtain ⟨u, u', hu, hu', rfl⟩ := Script.puts_append.1 hkv
    have first := complete_script con k (Script.puts_key.1 hu).2
    have second := complete_script con v hu'
    have later := complete_entries con es hw
    rw [List.length_cons, Nat.mul_succ, Nat.add_comm]
    unfold depthEntries
    exact ((first.mono (by omega)).append (second.mono (by omega))).append (later.mono (by omega))

end

/-- A leaf is read as what it settles to. -/
theorem takes_read_leaf {n : Nat} (con : cx.registry.Consistent) (leaf : v.kind.isContainer = false)
    (raw : v.Raw cx.registry) (puts : (v.script cx).Puts bs) :
    (read cx.registry n).parse.Takes bs (settleLeaf v) := by
  rw [read_eq]
  exact (takes_leaf con leaf puts).2 (raw.leaf leaf) (oneDown cx.registry n)

mutual

/-- **What is put for a value is read as that value, settled**, wherever it nests no deeper than the
levels that are left. -/
theorem takes_read (con : cx.registry.Consistent) :
    ∀ (v : Value) {n bs}, v.Raw cx.registry → (v.script cx).Puts bs → Complete n 1 bs →
      (read cx.registry n).parse.Takes bs v.settled
  | .array items, n, bs, raw, puts, nests => by
    obtain ⟨h, body, w, rfl, stands, array, own, hw⟩ := Script.puts_array puts
    obtain ⟨m, rfl, inner⟩ :=
      (Complete.deep_iff stands (Header.isContainer_of_isArray array) own).1 nests
    exact takes_array stands array own (takes_items con items [] raw hw inner)
  | .map entries, n, bs, raw, puts, nests => by
    obtain ⟨h, body, w, rfl, stands, map, own, hw⟩ := Script.puts_map puts
    obtain ⟨m, rfl, inner⟩ :=
      (Complete.deep_iff stands (Header.isContainer_of_isMap map) own).1 nests
    exact takes_map stands map own (takes_entries con entries [] raw hw inner)
  | .nil, _, _, raw, puts, _ | .bool _, _, _, raw, puts, _
  | .int _, _, _, raw, puts, _ | .uint _, _, _, raw, puts, _
  | .single _, _, _, raw, puts, _ | .double _, _, _, raw, puts, _
  | .text _, _, _, raw, puts, _ | .bin _, _, _, raw, puts, _
  | .ext _ _, _, _, raw, puts, _ | .timestamp _, _, _, raw, puts, _ =>
    takes_read_leaf con rfl raw puts

theorem takes_items (con : cx.registry.Consistent) :
    ∀ (vs : List Value) {n bs} (done : List Value), AllItems (RawLeaf cx.registry) vs →
      (itemsScript cx vs).Puts bs → Complete n vs.length bs →
      (repeated (read cx.registry n) vs.length done).parse.Takes bs
        (done.reverse ++ mapItems settleLeaf vs)
  | [], n, bs, done, _, puts, _ => by
    cases puts
    rw [mapItems, List.append_nil]
    exact takes_pure _
  | v :: vs, n, bs, done, raw, puts, nests => by
    obtain ⟨u, w, hu, hw, rfl⟩ := Script.puts_append.1 puts
    rw [List.length_cons, Nat.add_comm] at nests
    obtain ⟨first, later⟩ := nests.of_append (complete_script con v hu)
    rw [List.length_cons, parse_repeated_succ]
    refine (takes_read con v raw.1 hu first).bind ?_
    have rest := takes_items con vs (v.settled :: done) raw.2 hw later
    rwa [List.reverse_cons, List.append_assoc] at rest

theorem takes_entries (con : cx.registry.Consistent) :
    ∀ (es : List (Value × Value)) {n bs} (done : List (Value × Value)),
      AllEntries (RawLeaf cx.registry) es → (entriesScript cx es).Puts bs →
      Complete n (2 * es.length) bs →
      (repeated (readEntry (read cx.registry n)) es.length done).parse.Takes bs
        (done.reverse ++ mapEntries settleLeaf es)
  | [], n, bs, done, _, puts, _ => by
    cases puts
    rw [mapEntries, List.append_nil]
    exact takes_pure _
  | (k, v) :: es, n, bs, done, raw, puts, nests => by
    obtain ⟨kv, w, hkv, hw, rfl⟩ := Script.puts_append.1 puts
    obtain ⟨u, u', hu, hu', rfl⟩ := Script.puts_append.1 hkv
    obtain ⟨flatKind, hu⟩ := Script.puts_key.1 hu
    have flat := (takes_leaf con flatKind hu).1
    have pair := (complete_script con k hu).mono (Nat.le_max_left _ v.depth) |>.append
      ((complete_script con v hu').mono (Nat.le_max_right k.depth _))
    rw [List.length_cons, Nat.mul_succ, Nat.add_comm] at nests
    obtain ⟨both, later⟩ := nests.of_append pair
    obtain ⟨first, second⟩ := both.of_append (m := 1) (n := 1) (complete_script con k hu)
    rw [List.length_cons, parse_repeated_succ]
    refine (takes_entry flat (takes_read con k raw.1 hu first)
      (takes_read con v raw.2.1 hu' second)).bind ?_
    have rest := takes_entries con es ((k.settled, v.settled) :: done) raw.2.2 hw later
    rwa [List.reverse_cons, List.append_assoc] at rest

end

/-! ## 4. What settling changes -/

mutual

/-- **Settling only makes whole numbers unsigned**, floats that are no numbers being alike. -/
theorem settled_upToNan : ∀ v : Value, v.settled.upToNan = v.unsigned.upToNan
  | .array items => congrArg Value.array (settledItems_upToNan items)
  | .map entries => congrArg Value.map (settledEntries_upToNan entries)
  | .single x => congrArg Value.single x.upToNan_narrow_widen
  | .nil | .bool _ | .int _ | .uint _ | .double _ | .text _ | .bin _ | .ext _ _
  | .timestamp _ => rfl

theorem settledItems_upToNan : ∀ vs : List Value,
    mapItems nanLeaf (mapItems settleLeaf vs) = mapItems nanLeaf (mapItems unsignedLeaf vs)
  | [] => rfl
  | v :: vs => by
    have first := settled_upToNan v
    have rest := settledItems_upToNan vs
    unfold settled unsigned upToNan at first
    rw [mapItems, mapItems, mapItems, mapItems, first, rest]

theorem settledEntries_upToNan : ∀ es : List (Value × Value),
    mapEntries nanLeaf (mapEntries settleLeaf es) =
      mapEntries nanLeaf (mapEntries unsignedLeaf es)
  | [] => rfl
  | (k, v) :: es => by
    have key := settled_upToNan k
    have value := settled_upToNan v
    have rest := settledEntries_upToNan es
    unfold settled unsigned upToNan at key value
    rw [mapEntries, mapEntries, mapEntries, mapEntries, key, value, rest]

end

end Value

/-! ## 5. Whole operations -/

namespace Codec

variable {c : Codec} {t : Ty} {d : Datum} {mode : Mode} {bs : List UInt8}

/-- Encoding succeeds exactly when the script puts the bytes. -/
theorem encode_eq_ok :
    (c.encode t d mode).1 = .ok bs ↔ (d.script (c.context mode) t).Puts bs := by
  rw [← Script.bytes_eq_ok, ← Script.encode_result]
  rfl

/-- **A dynamic value comes back from what it was written as**, its whole numbers from zero up being
unsigned. -/
theorem decodeValue_encode {v : Value} (reachable : c.Reachable)
    (written : (c.encode .dynamic (.dynamic v) mode).1 = .ok bs) (shallow : v.depth ≤ maxDepth)
    (unclaimed : v.Unclaimed c.registry) :
    ∃ w, ((c.encode .dynamic (.dynamic v) mode).2.decodeValue bs).1 = .ok w ∧
      w.upToNan = v.unsigned.upToNan := by
  refine ⟨v.settled, ?_, v.settled_upToNan⟩
  have con : (c.context mode).registry.Consistent := reachable.consistent.registry
  have puts := encode_eq_ok.1 written
  rw [Datum.script] at puts
  have nests := (Value.complete_script con v puts).mono shallow
  have takes := Value.takes_read con v unclaimed.raw puts nests
  have decoded : ((c.encode .dynamic (.dynamic v) mode).2.decode .dynamic bs default).1 =
      .ok (.dynamic v.settled) := by
    refine decode_of_takes ?_
    rw [encode, conclude, context_rememberAll, Datum.parse_read_dynamic]
    exact takes.map
  unfold decodeValue
  simp only [decoded]
  rfl

/-- A map with a repeated key, a signed number and an extension that nothing claims. -/
theorem decodeValue_encode_map :
    let v : Value := .map [(.text "a", .int 5), (.text "a", .ext 7 [1])]
    let c := fresh ⟨[], rfl, rfl⟩
    ∃ bs w, (c.encode .dynamic (.dynamic v) .named).1 = .ok bs ∧ v.depth ≤ maxDepth ∧
      v.Unclaimed c.registry ∧
      ((c.encode .dynamic (.dynamic v) .named).2.decodeValue bs).1 = .ok w ∧
      w.upToNan = v.unsigned.upToNan := by
  intro v c
  have written : (c.encode .dynamic (.dynamic v) .named).1 =
      .ok [0x82, 0xa1, 97, 5, 0xa1, 97, 0xd4, 7, 1] := by
    refine encode_eq_ok.2 ?_
    rw [Datum.script]
    rfl
  have shallow : v.depth ≤ maxDepth := by decide
  have unclaimed : v.Unclaimed c.registry := ⟨trivial, trivial, trivial, rfl, trivial⟩
  obtain ⟨w, decoded, same⟩ := decodeValue_encode (.fresh _) written shallow unclaimed
  exact ⟨_, w, written, shallow, unclaimed, decoded, same⟩

end Codec

end MessagePack
