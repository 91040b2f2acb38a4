import MessagePack.Proofs.RoundTrip.Restores
/-!
# Typed data come back

`Datum.Fits cx t x` says that `x` is a datum of the record-free type `t` that its wire form can tell
from others: whole numbers lie in their types, arrays have their length, the keys of a map ascend,
no option is full of something that is written as nil.  Each comes back as itself, dynamic values
with their whole numbers from zero up unsigned.

`Datum.settled` is exactly what comes back.  Main statements: `Datum.Fits.restores` and
`Codec.decode_encode`.
-/

namespace MessagePack

namespace Datum

/-! ## 1. Forms of data -/

mutual

/-- The datum with everything but its sequences, options and maps replaced. -/
def mapLeaves (f : Datum → Datum) : Datum → Datum
  | .seq items => .seq (mapItems f items)
  | .present d => .present (mapLeaves f d)
  | .map entries => .map (mapEntries f entries)
  | d => f d

def mapItems (f : Datum → Datum) : List Datum → List Datum
  | [] => []
  | d :: ds => mapLeaves f d :: mapItems f ds

def mapEntries (f : Datum → Datum) : List (Datum × Datum) → List (Datum × Datum)
  | [] => []
  | (k, v) :: es => (mapLeaves f k, mapLeaves f v) :: mapEntries f es

end

/-- Items are mapped one by one. -/
theorem mapItems_eq (f : Datum → Datum) (ds : List Datum) :
    mapItems f ds = ds.map (mapLeaves f) := by
  induction ds with
  | nil => rfl
  | cons d ds ih => rw [mapItems, ih, List.map_cons]

/-- Entries are mapped, key and value. -/
theorem mapEntries_eq (f : Datum → Datum) (es : List (Datum × Datum)) :
    mapEntries f es = es.map fun e => (mapLeaves f e.1, mapLeaves f e.2) := by
  induction es with
  | nil => rfl
  | cons e es ih => rw [mapEntries, ih, List.map_cons]

/-- Dynamic values with whole numbers from zero up unsigned. -/
def unsignedLeaf : Datum → Datum
  | .dynamic v => .dynamic v.unsigned
  | d => d

/-- The datum with all whole numbers from zero up unsigned that stand in dynamic values. -/
def unsigned : Datum → Datum := mapLeaves unsignedLeaf

/-- A float that is no number becomes one fixed such float. -/
def nanLeaf : Datum → Datum
  | .single x => .single x.upToNan
  | .double x => .double x.upToNan
  | .dynamic v => .dynamic v.upToNan
  | d => d

/-- The datum with all floats that are no numbers alike. -/
def upToNan : Datum → Datum := mapLeaves nanLeaf

/-- What comes back of a datum without parts. -/
def settleLeaf : Datum → Datum
  | .single x => .single x.widen.narrow
  | .dynamic v => .dynamic v.settled
  | d => d

/-- What comes back of a datum. -/
def settled : Datum → Datum := mapLeaves settleLeaf

/-! ## 2. What settling changes -/

mutual

/-- **Settling only makes whole numbers in dynamic values unsigned**, floats that are no numbers
being alike. -/
theorem settled_upToNan : ∀ d : Datum, d.settled.upToNan = d.unsigned.upToNan
  | .seq items => congrArg Datum.seq (settledItems_upToNan items)
  | .present d => congrArg Datum.present (settled_upToNan d)
  | .map entries => congrArg Datum.map (settledEntries_upToNan entries)
  | .single x => congrArg Datum.single x.upToNan_narrow_widen
  | .dynamic v => congrArg Datum.dynamic v.settled_upToNan
  | .bool _ | .int _ | .double _ | .text _ | .bytes _ | .timestamp _ | .clockTime _ | .absent
  | .record _ => rfl

/-- So do items, -/
theorem settledItems_upToNan : ∀ ds : List Datum,
    mapItems nanLeaf (mapItems settleLeaf ds) = mapItems nanLeaf (mapItems unsignedLeaf ds)
  | [] => rfl
  | d :: ds => by
    have first := settled_upToNan d
    have rest := settledItems_upToNan ds
    unfold settled unsigned upToNan at first
    rw [mapItems, mapItems, mapItems, mapItems, first, rest]

/-- and entries. -/
theorem settledEntries_upToNan : ∀ es : List (Datum × Datum),
    mapEntries nanLeaf (mapEntries settleLeaf es) =
      mapEntries nanLeaf (mapEntries unsignedLeaf es)
  | [] => rfl
  | (k, v) :: es => by
    have key := settled_upToNan k
    have value := settled_upToNan v
    have rest := settledEntries_upToNan es
    unfold settled unsigned upToNan at key value
    rw [mapEntries, mapEntries, mapEntries, mapEntries, key, value, rest]

end

mutual

/-- Settling moves no key. -/
theorem order_settled : ∀ a b : Datum, order a.settled b.settled = order a b
  | .seq as, b => by
    cases b with
    | seq bs => exact orderEach_settled as bs
    | _ => rfl
  | .present a, b => by
    cases b with
    | present b => exact order_settled a b
    | _ => rfl
  | .map as, b => by
    cases b with
    | map bs => exact orderEntries_settled as bs
    | _ => rfl
  | .bool _, b | .int _, b | .single _, b | .double _, b | .text _, b | .bytes _, b
  | .dynamic _, b | .timestamp _, b | .clockTime _, b | .absent, b | .record _, b => by
    cases b <;> rfl

theorem orderEach_settled : ∀ as bs : List Datum,
    orderEach (mapItems settleLeaf as) (mapItems settleLeaf bs) = orderEach as bs
  | [], bs => by cases bs <;> rfl
  | a :: as, bs => by
    cases bs with
    | nil => rfl
    | cons b bs =>
      have first := order_settled a b
      have rest := orderEach_settled as bs
      unfold settled at first
      rw [mapItems, mapItems, orderEach, orderEach, first, rest]

theorem orderEntries_settled : ∀ as bs : List (Datum × Datum),
    orderEntries (mapEntries settleLeaf as) (mapEntries settleLeaf bs) = orderEntries as bs
  | [], bs => by cases bs <;> rfl
  | (k, v) :: as, bs => by
    cases bs with
    | nil => rfl
    | cons b bs =>
      obtain ⟨l, w⟩ := b
      have key := order_settled k l
      have value := order_settled v w
      have rest := orderEntries_settled as bs
      unfold settled at key value
      rw [mapEntries, mapEntries, orderEntries, orderEntries, key, value, rest]

end

/-! ## 3. Typed data -/

/-- A datum of a record-free type that its wire form can tell from others. -/
inductive Fits (cx : Context) : Ty → Datum → Prop
  | bool (b : Bool) : Fits cx .bool (.bool b)
  | whole {t : NumType} {i : Int} (fits : t.holds i = true) : Fits cx (.number t) (.int i)
  | single (x : Single) : Fits cx (.number .single) (.single x)
  | double (x : Double) : Fits cx (.number .double) (.double x)
  | text (s : String) : Fits cx .text (.text s)
  | bytes (b : List UInt8) : Fits cx .bytes (.bytes b)
  | timestamp (a : Timestamp) : Fits cx .timestamp (.timestamp a)
  | dynamic {v : Value} (raw : v.Raw cx.registry) : Fits cx .dynamic (.dynamic v)
  | list {t : Ty} {items : List Datum} (each : ∀ x ∈ items, Fits cx t x) :
      Fits cx (.list t) (.seq items)
  | array {t : Ty} {items : List Datum} (each : ∀ x ∈ items, Fits cx t x) :
      Fits cx (.array items.length t) (.seq items)
  | tuple {parts : List (Ty × Datum)} (each : ∀ p ∈ parts, Fits cx p.1 p.2) :
      Fits cx (.tuple (parts.map (·.1))) (.seq (parts.map (·.2)))
  | absent {t : Ty} : Fits cx (.option t) .absent
  /-- What is held is not written as nil. -/
  | present {t : Ty} {x : Datum} (held : Fits cx t x)
      (solid : ¬ (x.script cx t).Puts [Header.nil.toByte]) : Fits cx (.option t) (.present x)
  | box {t : Ty} {x : Datum} (held : Fits cx t x) : Fits cx (.box t) x
  /-- The keys ascend. -/
  | map {kt vt : Ty} {es : List (Datum × Datum)} (keys : ∀ e ∈ es, Fits cx kt e.1)
      (values : ∀ e ∈ es, Fits cx vt e.2)
      (ascending : es.Pairwise fun a b => order a.1 b.1 = .lt) :
      Fits cx (.map .sorted kt vt) (.map es)
  /-- A host type: its binding writes one extension of its own tag and makes the datum of the
  payload again. -/
  | host {id : RecordId} {b : Binding} {fields : List Datum} {payload : List UInt8}
      (claims : cx.registry.forHost? (.record id) = some b)
      (encodes : b.encode (.record fields) = Script.ext b.tag payload)
      (decodes : b.decode payload = .ok (.record fields)) :
      Fits cx (.record id) (.record fields)

namespace Fits

open Context

variable {cx : Context} {t : Ty} {x : Datum} {items : List Datum}

/-- Data that fit the type of bytes are bytes. -/
theorem areBytes (bin : t.sequenceKind = .bin) (each : ∀ x ∈ items, Fits cx t x) :
    t = .byte ∧ ∃ b : List UInt8, items = b.map fun u => .int u.toNat := by
  have byte : t = .byte := by
    unfold Ty.sequenceKind at bin
    split at bin
    · rfl
    · cases bin
  subst byte
  refine ⟨rfl, ?_⟩
  induction items with
  | nil => exact ⟨[], rfl⟩
  | cons x items ih =>
    obtain ⟨b, rfl⟩ := ih fun y hy => each y (List.mem_cons_of_mem _ hy)
    cases each x (by simp) with
    | @whole _ i fits =>
      obtain ⟨low, high⟩ := Number.holds_uint.1 fits
      change i < 2 ^ 8 at high
      refine ⟨UInt8.ofNat i.toNat :: b, ?_⟩
      have small : i.toNat < UInt8.size := by
        change i.toNat < 256
        omega
      rw [List.map_cons, UInt8.toNat_ofNat_of_lt' small, Int.toNat_of_nonneg low]

theorem settled_bytes (b : List UInt8) :
    (Datum.seq (b.map fun u => .int u.toNat)).settled = .seq (b.map fun u => .int u.toNat) := by
  change Datum.seq (mapItems settleLeaf _) = _
  rw [mapItems_eq, List.map_map]
  rfl

/-- Elements with what comes back of them. -/
theorem pairs_fst (items : List Datum) : (items.map fun x => (x, x.settled)).map (·.1) = items := by
  rw [List.map_map]
  exact List.map_id items

theorem settled_seq (items : List Datum) :
    (Datum.seq items).settled = .seq ((items.map fun x => (x, x.settled)).map (·.2)) := by
  change Datum.seq (mapItems settleLeaf items) = _
  rw [mapItems_eq, List.map_map]
  rfl

theorem each_pair (each : ∀ x ∈ items, cx.Restores t x x.settled) :
    ∀ p ∈ items.map fun x => (x, x.settled), cx.Restores t p.1 p.2 := by
  intro p hp
  obtain ⟨x, hx, rfl⟩ := List.mem_map.1 hp
  exact each x hx

/-- **A typed datum comes back settled.** -/
theorem restores (con : cx.registry.Consistent) (fits : Fits cx t x) :
    cx.Restores t x x.settled := by
  induction fits with
  | bool b => exact .bool b
  | whole fits => exact .whole fits
  | single x => exact .single x
  | double x => exact .double x
  | text s => exact .text s
  | bytes b => exact .bytes b
  | timestamp a => exact .timestamp con a
  | dynamic raw => exact .dynamic con raw
  | @list t items each ih =>
    by_cases bin : t.sequenceKind = .bin
    · obtain ⟨rfl, b, rfl⟩ := areBytes bin each
      rw [settled_bytes]
      exact .byteList b
    · have back := Restores.list (Ty.sequenceKind_array bin) (each_pair ih)
      rwa [pairs_fst, ← settled_seq] at back
  | @array t items each ih =>
    by_cases bin : t.sequenceKind = .bin
    · obtain ⟨rfl, b, rfl⟩ := areBytes bin each
      rw [settled_bytes, List.length_map]
      exact .byteArray b
    · have back := Restores.array (Ty.sequenceKind_array bin) (each_pair ih)
      rwa [pairs_fst, ← settled_seq, List.length_map] at back
  | @tuple parts each ih =>
    have back : cx.Restores _ _ _ := .tuple (parts.map fun p => (p.1, p.2, p.2.settled)) (by
      intro q hq
      obtain ⟨p, hp, rfl⟩ := List.mem_map.1 hq
      exact ih p hp)
    rw [List.map_map, List.map_map, List.map_map] at back
    have same : (Datum.seq (parts.map (·.2))).settled = .seq (parts.map fun p => p.2.settled) := by
      change Datum.seq (mapItems settleLeaf _) = _
      rw [mapItems_eq, List.map_map]
      rfl
    rw [same]
    exact back
  | absent => exact .absent
  | present _ solid ih => exact .present ih solid
  | box _ ih => exact .box ih
  | @map kt vt es _ _ ascending keys values =>
    have each : ∀ q ∈ es.map fun e => (e, e.1.settled, e.2.settled),
        cx.Restores kt q.1.1 q.2.1 ∧ cx.Restores vt q.1.2 q.2.2 := by
      intro q hq
      obtain ⟨e, he, rfl⟩ := List.mem_map.1 hq
      exact ⟨keys e he, values e he⟩
    have still : ((es.map fun e => (e, e.1.settled, e.2.settled)).map (·.2)).Pairwise
        fun a b => MapOrder.sorted.IsAfter b.1 a.1 := by
      rw [List.map_map, List.pairwise_map]
      refine ascending.imp fun {a b} lt => ?_
      change order b.1.settled a.1.settled = .gt
      rw [order_settled, order_swap, lt]
      rfl
    have back := Restores.map _ each still
    rw [List.map_map, List.map_map] at back
    have same : (Datum.map es).settled = .map (es.map fun e => (e.1.settled, e.2.settled)) := by
      change Datum.map (mapEntries settleLeaf es) = _
      rw [mapEntries_eq]
      rfl
    have own : es.map ((·.1) ∘ fun e => (e, e.1.settled, e.2.settled)) = es := List.map_id es
    rw [own] at back
    rw [same]
    exact back
  | host claims encodes decodes => exact .bound con claims encodes decodes

end Fits

end Datum

/-! ## 4. Whole operations -/

namespace Codec

variable {c : Codec} {t : Ty} {x y : Datum} {mode : Mode} {bs : List UInt8}

/-- **Typed data come back from what they were written as**, the whole numbers from zero up in
dynamic values being unsigned.  What is written is always one complete value; it comes back if it
nests no deeper than decoding goes. -/
theorem decode_encode (reachable : c.Reachable) (fits : Datum.Fits (c.context mode) t x)
    (written : (c.encode t x mode).1 = .ok bs) :
    (∃ k, Complete k 1 bs) ∧
      (Complete maxDepth 1 bs → ∃ y, ((c.encode t x mode).2.decode t bs mode).1 = .ok y ∧
        y.upToNan = x.unsigned.upToNan) := by
  have back := fits.restores reachable.consistent.registry
  exact ⟨back.complete (encode_eq_ok.1 written),
    fun nests => ⟨_, decode_of_restores back written nests, x.settled_upToNan⟩⟩

/-- A map from texts to bytes. -/
theorem decode_encode_bytes :
    let c := fresh ⟨[], rfl, rfl⟩
    let t : Ty := .map .sorted .text (.list .byte)
    let x : Datum := .map [(.text "a", .seq [.int 5, .int 6])]
    ∃ bs y, (c.encode t x .named).1 = .ok bs ∧ Datum.Fits (c.context .named) t x ∧
      ((c.encode t x .named).2.decode t bs .named).1 = .ok y ∧
      y.upToNan = x.unsigned.upToNan := by
  intro c t x
  have written : (c.encode t x .named).1 = .ok [0x81, 0xa1, 97, 0xc4, 2, 5, 6] := by
    have key : (Datum.text "a").script (c.context .named) .text = .text "a" := by
      rw [Datum.script]
      rfl
    refine encode_eq_ok.2 ?_
    rw [Datum.script_map]
    change (_ ++ Script.all [Datum.entryScript _ _ _ (.text "a", .seq [.int 5, .int 6])]).Puts _
    rw [Datum.entryScript, key, Datum.script_list]
    rfl
  have fits : Datum.Fits (c.context .named) t x := by
    refine .map (fun e he => ?_) (fun e he => ?_) (List.pairwise_singleton _ _)
    · obtain rfl := List.mem_singleton.1 he
      exact .text "a"
    · obtain rfl := List.mem_singleton.1 he
      refine .list ?_
      intro y hy
      rcases List.mem_cons.1 hy with rfl | hy
      · exact .whole rfl
      · obtain rfl := List.mem_singleton.1 hy
        exact .whole rfl
  obtain ⟨-, comes⟩ := decode_encode (.fresh _) fits written
  have key : Flat [0xa1, 97] := .of_header (Header.stands_fixText 1) rfl ⟨rfl, rfl⟩
  have value : Flat [0xc4, 2, 5, 6] :=
    .of_header (h := .bin .w8) rfl rfl ⟨[2], [5, 6], rfl, rfl, rfl, rfl⟩
  have nests : Complete maxDepth 1 [0x81, 0xa1, 97, 0xc4, 2, 5, 6] :=
    .of_deep (Header.stands_fixMap 1) rfl ⟨rfl, rfl⟩
      ((key.complete 255).append (value.complete 255))
  obtain ⟨y, decoded, same⟩ := comes nests
  exact ⟨_, y, written, fits, decoded, same⟩

end Codec

end MessagePack
