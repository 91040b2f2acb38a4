import MessagePack.Proofs.Decode.Shape
/-!
# What every run is composed of

Every read is composed of looking at a byte, taking bytes and skipping a value; every run into a
destination is composed of reads in the three ways of `Decoded.ended`, `Decoded.afterRead` and
`Decoded.afterRun`.  Either may go down a level and come back up.  `Read.Composed` and
`Decoded.Composed` say so, and count how many levels lie inside one another at most.

A property that the single steps have and that composing keeps is thereby a property of reading any
type into any destination: it is proved by induction on how the run is composed, with no look at the
readers themselves.  The count makes the bound on nesting such a property too.

Main statement: `Datum.composed_read`.
-/

namespace MessagePack

namespace Read

/-! ## 1. Reads

A read that looks at what comes and then decides is composed by `bind`, the branches being one of
the alternatives.  So for each primitive a proof names the reads it begins with and goes through the
headers it tells apart. -/

/-- Reads that are composed of single steps, going down at most so many levels. -/
inductive Composed : {α : Type} → Read α → ℕ → Prop
  | pure {α : Type} {n : ℕ} (a : α) : Composed (Read.pure a) n
  | fail {α : Type} {n : ℕ} (f : Fault) : Composed (Read.fail f : Read α) n
  | peekByte {n : ℕ} : Composed Read.peekByte n
  | takeByte {n : ℕ} : Composed Read.takeByte n
  | takeMany {n : ℕ} (k : ℕ) : Composed (Read.takeMany k) n
  /-- Skipping counts the values that are owed and goes down no level. -/
  | skip {n : ℕ} : Composed Read.skip n
  | bind {α β : Type} {n : ℕ} {r : Read α} {next : α → Read β} (first : Composed r n)
      (then' : ∀ a, Composed (next a) n) : Composed (r >>= next) n
  /-- The place where the read starts may be told in a fault. -/
  | located {α : Type} {n : ℕ} {r : ℕ → Read α} (each : ∀ place, Composed (r place) n) :
      Composed (fun c => r c.position c) n
  | nested {α : Type} {n : ℕ} {r : Read α} (inner : Composed r n) : Composed r.nested (n + 1)

/-- Whatever is one level down is of `P` for one level less. -/
def Below {α : Type} (deeper : Option α) (n : ℕ) (P : ℕ → α → Prop) : Prop :=
  ∀ r, deeper = some r → ∃ m, n = m + 1 ∧ P m r

/-- With nothing one level down there is nothing to say. -/
theorem Below.none {α : Type} {n : ℕ} {P : ℕ → α → Prop} : Below none n P := nofun

/-- What is one level down takes one of the levels that are left. -/
theorem Below.some {α : Type} {n : ℕ} {P : ℕ → α → Prop} {r : α} (holds : P n r) :
    Below (some r) (n + 1) P := by
  intro _ e
  cases e
  exact ⟨n, rfl, holds⟩

namespace Composed

variable {α : Type} {n : ℕ} {r : Read α}

/-- A number of a width is that many bytes. -/
theorem takeUnsigned (w : Width) : (Read.takeUnsigned w).Composed n :=
  (takeMany _).bind fun _ => .pure _

/-- With a sign it is the same bytes. -/
theorem takeSigned (w : Width) : (Read.takeSigned w).Composed n :=
  (takeUnsigned w).bind fun _ => .pure _

/-- A header is a look at one byte, -/
theorem peekHeader : Read.peekHeader.Composed n := peekByte.bind fun _ => .pure _

/-- or the byte itself. -/
theorem takeHeader : Read.takeHeader.Composed n := takeByte.bind fun _ => .pure _

/-- A nil is taken if it is there. -/
theorem tryNil : Read.tryNil.Composed n := by
  refine peekByte.bind fun b => ?_
  split
  · exact takeByte.bind fun _ => .pure _
  · exact .pure _

theorem ofExcept (e : Except Fault α) : (Read.ofExcept e).Composed n := by
  cases e with
  | ok a => exact .pure a
  | error f => exact .fail f

theorem bool : Read.bool.Composed n := by
  refine takeHeader.bind ?_
  rintro ⟨b, h⟩
  cases h with
  | bool | nil => exact .pure _
  | _ => exact .fail _

/-- A number is its header and as many bytes as that says. -/
theorem number (kind : Kind) : (Read.number kind).Composed n := by
  -- nil stands for zero, and any other header that is no number's is refused
  refine takeHeader.bind ?_
  rintro ⟨b, h⟩
  cases h with
  | posFix | negFix | nil => exact .pure _
  | uint | single | double => exact (takeUnsigned _).bind fun _ => .pure _
  | int => exact (takeSigned _).bind fun _ => .pure _
  | _ => exact .fail _

theorem narrow (t : NumType) (kind : Kind) (m : Number) : (Read.narrow t kind m).Composed n := by
  unfold Read.narrow
  split
  · exact .pure _
  · exact .fail _

/-- A payload is its header, its length if that does not carry it, and the bytes. -/
theorem raw (kind : Kind) : (Read.raw kind).Composed n := by
  refine takeHeader.bind ?_
  rintro ⟨b, h⟩
  cases h with
  | nil => exact .pure _
  | fixText => exact (takeMany _).bind fun _ => .pure _
  | text | bin => exact (takeUnsigned _).bind fun n => (takeMany n).bind fun _ => .pure _
  | _ => exact .fail _

/-- The text in a payload whose header stands at a place; nothing is the empty one. -/
def textAt (place : Nat) : Option (List UInt8) → Read String
  | none => Read.pure ""
  | some bytes =>
    match textOfUtf8? bytes with
    | some s => Read.pure s
    | none => Read.fail (.invalidUtf8 place)

/-- A text is its payload, and a fault in it is told with the place where the header stands. -/
theorem text_eq : Read.text = fun c => (Read.raw .text >>= textAt c.position) c := by
  funext c
  rw [run_bind]
  unfold Read.text
  rcases Read.raw .text c with ⟨f | _ | bytes, c'⟩
  · rfl
  · rfl
  · simp only [textAt]
    cases textOfUtf8? bytes <;> rfl

theorem text : Read.text.Composed n := by
  rw [text_eq]
  -- the place is looked up before the header is taken
  refine .located fun place => (raw .text).bind fun bytes => ?_
  unfold textAt
  split
  · exact .pure _
  · split
    · exact .pure _
    · exact .fail _

/-- The length of an array is its header, and the number behind it if it does not carry one. -/
theorem arrayLength (kind : Kind) : (Read.arrayLength kind).Composed n := by
  refine takeHeader.bind ?_
  rintro ⟨b, h⟩
  cases h with
  | nil | fixArray => exact .pure _
  | array => exact (takeUnsigned _).bind fun _ => .pure _
  | _ => exact .fail _

/-- So is that of a map. -/
theorem mapLength (kind : Kind) : (Read.mapLength kind).Composed n := by
  refine takeHeader.bind ?_
  rintro ⟨b, h⟩
  cases h with
  | nil | fixMap => exact .pure _
  | map => exact (takeUnsigned _).bind fun _ => .pure _
  | _ => exact .fail _

/-- A key is refused by a look at its header, which takes nothing. -/
theorem checkKey : Read.checkKey.Composed n := by
  refine peekHeader.bind fun bh => ?_
  dsimp only
  split
  · exact .fail _
  · exact .pure _

/-- An extension is a tag and a payload, whose length the header carries or announces. -/
theorem extBody (kind : Kind) (b : UInt8) (h : Header) : (Read.extBody kind b h).Composed n := by
  have tagged : ∀ k : ℕ, Composed (do
      let t ← Read.takeByte
      let p ← Read.takeMany k
      return (t.toInt8, p) : Read (Int8 × List UInt8)) n := fun k =>
    takeByte.bind fun _ => (takeMany k).bind fun _ => .pure _
  unfold Read.extBody
  cases h with
  | fixExt p => exact (Composed.pure _).bind tagged
  | ext w => exact (takeUnsigned w).bind tagged
  | _ => exact (Composed.fail _).bind tagged

theorem ext (kind : Kind) : (Read.ext kind).Composed n := by
  refine takeHeader.bind ?_
  rintro ⟨b, h⟩
  cases h with
  | nil => exact .pure _
  | _ => exact (extBody kind b _).bind fun _ => .pure _

/-! ## 2. Dynamic values

Here the levels come in.  What is read one level down is composed with one level less, and that is
the only place where a level is counted. -/

/-- Going down takes a level of those that are left. -/
theorem descend {β : Type} {deeper : Option α} {next : α → Read β}
    (each : Below deeper n fun m r => (next r).Composed m) :
    (Read.descend deeper next).Composed n := by
  cases deeper with
  | none => exact .fail _
  | some r =>
    obtain ⟨m, rfl, inner⟩ := each r rfl
    exact .nested inner

/-- Any number of reads after one another go down no further than one of them. -/
theorem repeated (hr : r.Composed n) (k : ℕ) (done : List α) :
    (Read.repeated r k done).Composed n := by
  induction k generalizing done with
  | zero => exact .pure _
  | succ k ih =>
    have step : (r >>= fun a => Read.repeated r k (a :: done)).Composed n := hr.bind fun a => ih _
    exact step

/-- An entry is a look at the key, the key and the value. -/
theorem readEntry {deeper : Read Value} (each : deeper.Composed n) :
    (Value.readEntry deeper).Composed n :=
  checkKey.bind fun _ => each.bind fun _ => each.bind fun _ => .pure _

/-- A dynamic value, if those one level down are composed so. -/
theorem valueStep (registry : Registry) {deeper : Option (Read Value)}
    (below : Below deeper n fun m r => r.Composed m) :
    (Value.readStep registry deeper).Composed n := by
  have numeric : ∀ (t : NumType) (kind : Kind) (f : Narrowed → Value), Composed (do
      let n ← Read.number .dynamic
      let x ← Read.narrow t kind n
      return f x : Read Value) n := fun t kind f =>
    (number .dynamic).bind fun n => (narrow t kind n).bind fun x => .pure (f x)
  -- The header alone decides; only arrays and maps go down.
  refine peekHeader.bind ?_
  rintro ⟨b, h⟩
  cases h with
  | nil | bool => exact takeHeader.bind fun _ => .pure _
  | posFix | uint => exact numeric _ _ fun x => .uint (UInt64.ofNat x.asInt.toNat)
  | negFix | int => exact numeric _ _ fun x => .int (Int64.ofInt x.asInt)
  | single => exact numeric _ _ fun x => .single x.asSingle
  | double => exact numeric _ _ fun x => .double x.asDouble
  | fixText | text => exact text.bind fun _ => .pure _
  | bin => exact (raw .bin).bind fun _ => .pure _
  | fixArray | array =>
    refine (arrayLength .dynamic).bind fun n => Composed.bind ?_ fun items => .pure _
    refine descend fun r hr => ?_
    obtain ⟨m, levels, inner⟩ := below r hr
    exact ⟨m, levels, inner.repeated _ _⟩
  | fixMap | map =>
    refine (mapLength .dynamic).bind fun n => Composed.bind ?_ fun entries => .pure _
    refine descend fun r hr => ?_
    obtain ⟨m, levels, inner⟩ := below r hr
    exact ⟨m, levels, (readEntry inner).repeated _ _⟩
  | fixExt | ext =>
    refine takeHeader.bind fun _ => (extBody .dynamic b _).bind ?_
    rintro ⟨tag, payload⟩
    dsimp only
    split
    · exact ofExcept _
    · exact .pure _
  | unused => exact .fail _

/-- **Reading a dynamic value with `n` levels left goes down at most `n` levels.** -/
theorem value (registry : Registry) (n : ℕ) : (Value.read registry n).Composed n := by
  induction n with
  | zero => exact valueStep registry .none
  | succ n ih => exact valueStep registry (.some ih)

end Composed

end Read

/-! ## 3. Runs into a destination

A run may leave its destination changed when it fails, so it is not a read.  It is composed of reads
all the same: it ends, or it reads and goes on with what was read, or it runs and goes on with what
that left. -/

namespace Decoded

open Read (Below)

/-- Runs that are composed of such reads, going down at most so many levels. -/
inductive Composed : (Cursor → Decoded) → ℕ → Prop
  | ended {n : ℕ} (outcome : Except Fault Unit) (d : Datum) : Composed (ended outcome d) n
  | afterRead {α : Type} {n : ℕ} {r : Read α} {next : α → Cursor → Decoded} (left : Datum)
      (read : r.Composed n) (then' : ∀ a, Composed (next a) n) : Composed (afterRead r left next) n
  | afterRun {n : ℕ} {first : Cursor → Decoded} {next : Datum → Cursor → Decoded}
      (left : Datum → Datum) (run : Composed first n) (then' : ∀ x, Composed (next x) n) :
      Composed (afterRun first left next) n
  /-- Looking up a layout consumes nothing. -/
  | consult {n : ℕ} {run : Cursor → Decoded} (id : RecordId) (run' : Composed run n) :
      Composed (fun c => run (c.consult id)) n
  /-- Nor does an overflow. -/
  | overflow {n : ℕ} {run : Cursor → Decoded} (os : List Overflow) (run' : Composed run n) :
      Composed (fun c => run (c.overflow os)) n
  | nested {n : ℕ} {run : Cursor → Decoded} (inner : Composed run n) : Composed (nested run) (n + 1)

/-- Going down takes a level of those that are left. -/
theorem Composed.descend {β : Type} {n : ℕ} {deeper : Option β} {next : β → Cursor → Decoded}
    (left : Datum) (each : Below deeper n fun m r => Composed (next r) m) :
    Composed (descend deeper left next) n := by
  cases deeper with
  | none => exact .ended _ _
  | some r =>
    obtain ⟨m, rfl, inner⟩ := each r rfl
    exact .nested inner

end Decoded

namespace InPlace

open Decoded
open Read (Below)

variable {cx : Context} {zero d : Datum} {n : ℕ}

/-- What is assigned in the end is one read. -/
theorem composed_replace {r : Read Datum} (hr : r.Composed n) : Composed (replace r d) n := by
  rw [replace_eq]
  exact .afterRead _ hr fun x => .ended _ x

/-- Elements come one after another, none of them deeper than any other. -/
theorem composed_elements {elem : InPlace} (each : Composed (elem zero) n) (k : ℕ)
    (done : List Datum) : Composed (elements elem zero k done) n := by
  induction k generalizing done with
  | zero => exact .ended _ _
  | succ k ih =>
    rw [elements_succ]
    exact .afterRun _ each fun x => ih _

/-- A list, if one element from a zero one level down is composed so. -/
theorem composed_list {deeper : Option InPlace}
    (each : Below deeper n fun m r => Composed (r zero) m) : Composed (list deeper zero d) n := by
  rw [list_eq]
  refine .afterRead _ (.arrayLength .array) fun length => ?_
  cases length with
  | none => exact .ended _ _
  | some k =>
    refine .descend _ fun r hr => ?_
    obtain ⟨m, levels, inner⟩ := each r hr
    exact ⟨m, levels, composed_elements inner k []⟩

/-! In what follows, whatever is one level down is composed so for every type and destination. -/

variable {deeper : Option (Ty → InPlace)}
  (below : Below deeper n fun m r => ∀ t d, Composed (r t d) m)
include below

/-- A list of bytes, or one of anything else. -/
theorem composed_sequence (t : Ty) (d : Datum) : Composed (sequence deeper t zero d) n := by
  have elem : Below (deeper.map fun r => r t) n fun m r => Composed (r zero) m := by
    intro r hr
    obtain ⟨r, known, rfl⟩ := Option.map_eq_some_iff.1 hr
    obtain ⟨m, levels, inner⟩ := below r known
    exact ⟨m, levels, inner t zero⟩
  rw [sequence_eq]
  split
  · -- Bytes may be taken at once, which goes down no level, or one by one like any elements.
    rw [byteList_eq]
    refine .afterRead _ .peekHeader fun bh => ?_
    split
    · exact .afterRead _ (.raw .bin) fun bytes => .ended _ _
    · exact composed_list elem
  · exact composed_list elem

/-- A fixed array is read as a list and then compared with its length. -/
theorem composed_array (k : ℕ) (t : Ty) : Composed (array deeper k t zero d) n := by
  rw [array_eq]
  refine .afterRead _ .tryNil fun nil => ?_
  split
  · exact .ended _ _
  · refine .afterRun _ (composed_sequence below t _) fun read => ?_
    split <;> exact .ended _ _

omit below in
/-- The parts of a tuple come one after another, each of its own type. -/
theorem composed_parts {r : Ty → InPlace} (each : ∀ t d, Composed (r t d) n) (fresh : Ty → Datum)
    (ts : List Ty) (ds : List Datum) : Composed (parts fresh r ts ds) n := by
  induction ts generalizing ds with
  | nil => exact .ended _ _
  | cons t ts ih =>
    rw [parts_cons]
    exact .afterRun _ (each t _) fun x => .afterRun _ (ih _) fun rest => .ended _ _

theorem composed_tuple (fresh : Ty → Datum) (ts : List Ty) :
    Composed (tuple deeper fresh ts d) n := by
  rw [tuple_eq]
  refine .afterRead _ (.arrayLength .array) fun length => ?_
  cases length with
  | none => exact .ended _ _
  | some k =>
    dsimp only
    -- Another number of parts ends it before it goes down.
    split
    · refine .descend _ fun r hr => ?_
      obtain ⟨m, levels, inner⟩ := below r hr
      exact ⟨m, levels, composed_parts inner fresh ts _⟩
    · exact .ended _ _

omit below in
/-- Entries come one after another, a look at the key first. -/
theorem composed_bindings {order : MapOrder} {key value : InPlace} {keyZero valueZero : Datum}
    (keys : Composed (key keyZero) n) (values : Composed (value valueZero) n) (k : ℕ)
    (done : List (Datum × Datum)) :
    Composed (bindings order key value keyZero valueZero k done) n := by
  induction k generalizing done with
  | zero => exact .ended _ _
  | succ k ih =>
    rw [bindings_succ]
    exact .afterRead _ .checkKey fun _ => .afterRun _ keys fun k => .afterRun _ values fun v => ih _

theorem composed_map (order : MapOrder) (kt vt : Ty) (keyZero valueZero : Datum) :
    Composed (map deeper order kt vt keyZero valueZero d) n := by
  rw [map_eq]
  refine .afterRead _ (.mapLength .map) fun length => ?_
  cases length with
  | none => exact .ended _ _
  | some k =>
    refine .descend _ fun r hr => ?_
    obtain ⟨m, levels, inner⟩ := below r hr
    exact ⟨m, levels, composed_bindings (inner kt _) (inner vt _) k []⟩

omit below

/-- A binding sees the payload alone, so an extension goes down no level. -/
theorem composed_extension (host : Host) (d : Datum) : Composed (extension cx host d) n := by
  rw [extension_eq]
  refine .afterRead _ (.ext .ext) fun e => ?_
  split
  · exact .ended _ _
  · split <;> exact .ended _ _

/-- A clock time reads a timestamp, and what overflows on the way takes no bytes. -/
theorem composed_clockTime : Composed (clockTime cx d) n := by
  rw [clockTime_eq]
  refine .afterRun _ (.overflow _ (composed_extension _ _)) fun x => ?_
  split <;> exact .ended _ _

/-! ## 4. Records

A layout is looked up once, which takes no bytes.  After that a record is like a tuple or like a map
of which only some entries count. -/

section Records

variable {id : RecordId} {r : Ty → InPlace} (each : ∀ t d, Composed (r t d) n)
include each

/-- A value for a slot is read into the field, or the field cannot be reached and nothing is
read. -/
theorem composed_intoSlot (s : Slot) (d : Datum) : Composed (intoSlot cx r id s d) n := by
  unfold intoSlot
  split
  · exact .ended _ _
  · exact .afterRun _ (each _ _) fun x => .ended _ _

/-- A slot, or a value that belongs to none. -/
theorem composed_slotOrSkip (found : Option Slot) (d : Datum) :
    Composed (slotOrSkip cx r id d found) n := by
  cases found with
  | none =>
    rw [slotOrSkip, skipping_eq]
    exact .afterRead _ .skip fun _ => .ended _ _
  | some s =>
    rw [slotOrSkip, slot_eq]
    -- Where an embedded record is absent, a nil is tried first.
    split
    · refine .afterRead _ .tryNil fun nil => ?_
      split
      · exact .ended _ _
      · exact composed_intoSlot each s d
    · exact composed_intoSlot each s d

/-- One value for each slot, and a slot for each value as long as there are any. -/
theorem composed_slots (k : ℕ) (ss : List Slot) (d : Datum) :
    Composed (slots cx r id k ss d) n := by
  induction k generalizing ss d with
  | zero => exact .ended _ _
  | succ k ih =>
    rw [slots_succ]
    exact .afterRun _ (composed_slotOrSkip each _ d) fun d => ih _ d

omit each in
/-- Finding a slot by its key reads that key or skips it. -/
theorem composed_slotNamed (layout : Layout) : (slotNamed layout).Composed n := by
  refine Read.Composed.checkKey.bind fun _ => Read.Composed.peekHeader.bind fun bh => ?_
  dsimp only
  split
  · exact Read.Composed.text.bind fun _ => .pure _
  · exact Read.Composed.skip.bind fun _ => .pure _

/-- Keys and values by turns. -/
theorem composed_namedSlots (layout : Layout) (k : ℕ) (d : Datum) :
    Composed (namedSlots cx r id layout k d) n := by
  induction k generalizing d with
  | zero => exact .ended _ _
  | succ k ih =>
    rw [namedSlots_succ]
    exact .afterRead _ (composed_slotNamed layout) fun found =>
      .afterRun _ (composed_slotOrSkip each found d) ih

/-- The fields of a record, in either mode. -/
theorem composed_fields (d : Datum) : Composed (fields cx r id d) n := by
  cases mode : cx.mode with
  | positional =>
    rw [fields_positional mode]
    refine .afterRead _ (.arrayLength .record) fun length => ?_
    cases length with
    | none => exact .ended _ _
    | some k => exact composed_slots each k _ d
  | named =>
    rw [fields_named mode]
    refine .afterRead _ (.mapLength .record) fun length => ?_
    cases length with
    | none => exact .ended _ _
    | some k => exact composed_namedSlots each _ k d

end Records

include below in
/-- A record that is claimed is an extension, any other goes one level down to its fields. -/
theorem composed_record (id : RecordId) (d : Datum) : Composed (record cx deeper id d) n := by
  cases bound : cx.hasBinding (.record id) || (cx.catalog.decl id).form == .external with
  | true =>
    rw [record_bound bound]
    exact composed_extension _ d
  | false =>
    rw [record_eq bound]
    refine .consult id (.descend _ fun r hr => ?_)
    obtain ⟨m, levels, inner⟩ := below r hr
    exact ⟨m, levels, composed_fields inner d⟩

end InPlace

/-! ## 5. All types -/

namespace Datum

open Decoded InPlace
open Read (Below)

variable {cx : Context} {n : ℕ}

/-- A type is read so, if all types are one level down.  The induction is on the type: options and
boxes hold a smaller one on the same level, and everything else is one level down. -/
theorem composed_read_of (below : Below (oneDown cx n) n fun m r => ∀ t d, Composed (r t d) m) :
    ∀ (t : Ty) (d : Datum), Composed (read cx n t d) n
  | .bool, d => by
    rw [read_eq, readStep]
    exact composed_replace (Read.Composed.bool.bind fun _ => .pure _)
  | .number t, d => by
    rw [read_eq, readStep]
    exact composed_replace ((Read.Composed.number _).bind fun m =>
      (Read.Composed.narrow t _ m).bind fun _ => .pure _)
  | .text, d => by
    rw [read_eq, readStep]
    exact composed_replace (Read.Composed.text.bind fun _ => .pure _)
  | .bytes, d => by
    rw [read_eq, readStep]
    exact composed_replace ((Read.Composed.raw .bin).bind fun _ => .pure _)
  | .dynamic, d => by
    rw [read_eq, readStep]
    exact composed_replace ((Read.Composed.value cx.registry n).bind fun _ => .pure _)
  | .timestamp, d => by
    rw [read_eq, readStep]
    exact composed_extension _ d
  | .clockTime, d => by
    rw [read_eq, readStep]
    exact composed_clockTime
  | .list t, d => by
    rw [read_eq, readStep]
    exact composed_sequence below t d
  | .array length t, d => by
    rw [read_eq, readStep]
    exact composed_array below length t
  | .tuple ts, d => by
    rw [read_eq, readStep]
    exact composed_tuple below _ ts
  | .option t, d => by
    rw [read_option]
    refine .afterRead _ .tryNil fun nil => ?_
    split
    · exact .ended _ _
    · exact .afterRun _ (composed_read_of below t _) fun x => .ended _ _
  | .box t, d => by
    rw [read_box]
    exact composed_read_of below t d
  | .map order kt vt, d => by
    rw [read_eq, readStep]
    exact composed_map below order kt vt _ _
  | .record id, d => by
    rw [read_eq, readStep]
    exact composed_record below id d

/-- **Reading any type into any destination is composed of single steps**, and with `n` levels left
it goes down at most `n` levels. -/
theorem composed_read (cx : Context) (n : ℕ) (t : Ty) (d : Datum) :
    Composed (read cx n t d) n := by
  induction n generalizing t d with
  | zero =>
    have bottom : Below (oneDown cx 0) 0 fun m r => ∀ t d, Composed (r t d) m := .none
    exact composed_read_of bottom t d
  | succ n ih =>
    have below : Below (oneDown cx (n + 1)) (n + 1) fun m r => ∀ t d, Composed (r t d) m := .some ih
    exact composed_read_of below t d

end Datum

end MessagePack
