import MessagePack.Decode.Skip
import MessagePack.Decode.Value
import MessagePack.Record.Access
/-!
# Reading data in place

The type of a destination leads the reading.  Reading works in place: the result holds the
destination as it was left, after a fault too.  Scalars change only on success; lists and maps are
emptied first and keep what was read before a fault; records and tuples keep every part that the
input does not reach.

`deeper` reads one level down and is missing at the last level, as for dynamic values.
-/

namespace MessagePack

/-- How reading into a destination went and what it left. -/
structure Decoded where
  outcome : Except Fault Unit
  dest : Datum
  cursor : Cursor

/-- Reading into a destination. -/
abbrev InPlace : Type := Datum → Cursor → Decoded

namespace Decoded

/-- The same with something done to the destination. -/
def mapDest (r : Decoded) (f : Datum → Datum) : Decoded := { r with dest := f r.dest }

/-- A run one level further down; behind it the cursor is back up. -/
def nested (run : Cursor → Decoded) (c : Cursor) : Decoded :=
  let r := run (c.retrace .down)
  { r with cursor := r.cursor.retrace .up }

end Decoded

namespace InPlace

/-- Replaces the destination by what is read, if that succeeds. -/
def replace (r : Read Datum) : InPlace := fun d c =>
  match r c with
  | (.ok x, c) => ⟨.ok (), x, c⟩
  | (.error f, c) => ⟨.error f, d, c⟩

/-- Consumes a value and leaves the destination alone. -/
def skipping : InPlace := fun d c =>
  let (outcome, c) := Read.skip c
  ⟨outcome, d, c⟩

/-! ## 1. Lists, tuples and maps -/

/-- Appends `n` elements to those already read, which stand in reverse. -/
def elements (elem : InPlace) (fresh : Datum) : Nat → List Datum → Cursor → Decoded
  | 0, done, c => ⟨.ok (), .seq done.reverse, c⟩
  | n + 1, done, c =>
    match elem fresh c with
    | ⟨.ok _, x, c⟩ => elements elem fresh n (x :: done) c
    | ⟨.error f, _, c⟩ => ⟨.error f, .seq done.reverse, c⟩

/-- Reads a list from an array; nil empties it. -/
def list (deeper : Option InPlace) (fresh : Datum) : InPlace := fun _ c =>
  match Read.arrayLength .array c with
  | (.error f, c) => ⟨.error f, .seq [], c⟩
  | (.ok none, c) => ⟨.ok (), .seq [], c⟩
  | (.ok (some n), c) =>
    match deeper with
    | none => ⟨.error (.tooDeep maxDepth), .seq [], c⟩
    | some elem => Decoded.nested (elements elem fresh n []) c

/-- Reads a list of bytes: from bytes or a text at once, else as any list. -/
def byteList (deeper : Option InPlace) (fresh : Datum) : InPlace := fun d c =>
  match Read.peekHeader c with
  | (.error f, c) => ⟨.error f, d, c⟩
  | (.ok (_, h), c) =>
    match h with
    | .fixText _ | .text _ | .bin _ | .nil =>
      match Read.raw .bin c with
      | (.error f, c) => ⟨.error f, .seq [], c⟩
      | (.ok bytes, c) =>
        ⟨.ok (), .seq ((bytes.getD []).map fun b => .int b.toNat), c⟩
    | _ => list deeper fresh d c

/-- Reads the elements of a list or an array. -/
def sequence (deeper : Option (Ty → InPlace)) (t : Ty) (fresh : Datum) : InPlace :=
  match t with
  | .number (.uint .w8) => byteList (deeper.map fun r => r t) fresh
  | _ => list (deeper.map fun r => r t) fresh

/-- Fills an array of fixed length; it changes only if all elements are there.  Nil fills it with
fresh ones. -/
def array (deeper : Option (Ty → InPlace)) (n : Nat) (t : Ty) (fresh : Datum) : InPlace :=
  fun d c =>
  match Read.tryNil c with
  | (.error f, c) => ⟨.error f, d, c⟩
  | (.ok true, c) => ⟨.ok (), .seq (List.replicate n fresh), c⟩
  | (.ok false, c) =>
    match sequence deeper t fresh (.seq []) c with
    | ⟨.error f, _, c⟩ => ⟨.error f, d, c⟩
    | ⟨.ok _, read, c⟩ =>
      if read.items.length = n then ⟨.ok (), read, c⟩
      else ⟨.error (.misfit (.arrayLength read.items.length n)), d, c⟩

/-- Reads into the parts of a tuple one after another; a part that the destination lacks is a fresh
one. -/
def parts (fresh : Ty → Datum) (deeper : Ty → InPlace) : List Ty → List Datum → Cursor → Decoded
  | [], ds, c => ⟨.ok (), .seq ds, c⟩
  | t :: ts, ds, c =>
    match deeper t (ds.headD (fresh t)) c with
    | ⟨.error f, d, c⟩ => ⟨.error f, .seq (d :: ds.tail), c⟩
    | ⟨.ok _, d, c⟩ =>
      (parts fresh deeper ts ds.tail c).mapDest fun rest => .seq (d :: rest.items)

/-- Reads into a tuple; nil leaves it as it is. -/
def tuple (deeper : Option (Ty → InPlace)) (fresh : Ty → Datum) (ts : List Ty) : InPlace :=
  fun d c =>
  match Read.arrayLength .array c with
  | (.error f, c) => ⟨.error f, d, c⟩
  | (.ok none, c) => ⟨.ok (), d, c⟩
  | (.ok (some n), c) =>
    if n ≠ ts.length then ⟨.error (.misfit (.tupleLength n ts.length)), d, c⟩
    else
      match deeper with
      | none => ⟨.error (.tooDeep maxDepth), d, c⟩
      | some r => Decoded.nested (parts fresh r ts d.items) c

/-- Binds `n` entries in those already read; an entry counts when its value is read. -/
def bindings (order : MapOrder) (key value : InPlace) (freshKey freshValue : Datum) :
    Nat → List (Datum × Datum) → Cursor → Decoded
  | 0, done, c => ⟨.ok (), .map done, c⟩
  | n + 1, done, c =>
    match Read.checkKey c with
    | (.error f, c) => ⟨.error f, .map done, c⟩
    | (.ok _, c) =>
      match key freshKey c with
      | ⟨.error f, _, c⟩ => ⟨.error f, .map done, c⟩
      | ⟨.ok _, k, c⟩ =>
        match value freshValue c with
        | ⟨.error f, _, c⟩ => ⟨.error f, .map done, c⟩
        | ⟨.ok _, v, c⟩ =>
          bindings order key value freshKey freshValue n (order.insert k v done) c

/-- Reads a map; nil empties it. -/
def map (deeper : Option (Ty → InPlace)) (order : MapOrder) (kt vt : Ty)
    (freshKey freshValue : Datum) : InPlace := fun _ c =>
  match Read.mapLength .map c with
  | (.error f, c) => ⟨.error f, .map [], c⟩
  | (.ok none, c) => ⟨.ok (), .map [], c⟩
  | (.ok (some n), c) =>
    match deeper with
    | none => ⟨.error (.tooDeep maxDepth), .map [], c⟩
    | some r => Decoded.nested (bindings order (r kt) (r vt) freshKey freshValue n []) c

/-! ## 2. Extensions -/

/-- Reads an extension through the binding that claims its tag; nil leaves the destination as it
is. -/
def extension (cx : Context) (host : Host) : InPlace := fun d c =>
  match Read.ext .ext c with
  | (.error f, c) => ⟨.error f, d, c⟩
  | (.ok none, c) => ⟨.ok (), d, c⟩
  | (.ok (some (tag, payload)), c) =>
    match cx.registry.forTag? tag with
    | none => ⟨.error (.unregistered tag), d, c⟩
    | some b =>
      if b.host = host then
        match b.decode payload with
        | .ok x => ⟨.ok (), x, c⟩
        | .error f => ⟨.error f, d, c⟩
      else ⟨.error (.misfit (.otherHost tag (b.host.qualifiedName cx.catalog))), d, c⟩

/-- Reads a timestamp into a clock time, if the clock reaches that far.  The time that was there is
turned into a timestamp first. -/
def clockTime (cx : Context) : InPlace := fun d c =>
  let found := d.asClockTime.convert
  match extension cx .timestamp (.timestamp found.value) (c.overflow found.overflows) with
  | ⟨.error f, _, c⟩ => ⟨.error f, d, c⟩
  | ⟨.ok _, x, c⟩ =>
    match x.asTimestamp.toClockTime? with
    | some t => ⟨.ok (), .clockTime t, c⟩
    | none => ⟨.error (.outOfRange (.instant x.asTimestamp) .ext), d, c⟩

/-! ## 3. Records -/

/-- Reads into the field of a slot.  A nil aimed at a field of an absent embedded record is
consumed without allocating that record. -/
def slot (cx : Context) (deeper : Ty → InPlace) (id : RecordId) (s : Slot) : InPlace := fun d c =>
  let into (c : Cursor) : Decoded :=
    match cx.catalog.reach s.name id s.path d with
    | (.error f, d) => ⟨.error f, d, c⟩
    | (.ok (t, x), d) => (deeper t x c).mapDest fun x => cx.catalog.put id s.path d x
  if 1 < s.path.length ∧ (cx.catalog.lookup id s.path d).isNone then
    match Read.tryNil c with
    | (.error f, c) => ⟨.error f, d, c⟩
    | (.ok true, c) => ⟨.ok (), d, c⟩
    | (.ok false, c) => into c
  else into c

/-- Reads `n` positional slots; those beyond the layout are skipped. -/
def slots (cx : Context) (deeper : Ty → InPlace) (id : RecordId) :
    Nat → List Slot → Datum → Cursor → Decoded
  | 0, _, d, c => ⟨.ok (), d, c⟩
  | n + 1, ss, d, c =>
    let r :=
      match ss with
      | s :: _ => slot cx deeper id s d c
      | [] => skipping d c
    match r with
    | ⟨.ok _, d, c⟩ => slots cx deeper id n ss.tail d c
    | ⟨.error f, d, c⟩ => ⟨.error f, d, c⟩

/-- Reads a key and finds the slot it names.  A key that is no text names none. -/
def slotNamed (layout : Layout) : Read (Option Slot) := do
  Read.checkKey
  let (_, h) ← Read.peekHeader
  if h.isText then
    let key ← Read.text
    return (layout.position key).bind fun i => layout.slots[i]?
  else
    Read.skip
    return none

/-- Reads `n` entries; values of keys that name no slot are skipped. -/
def namedSlots (cx : Context) (deeper : Ty → InPlace) (id : RecordId) (layout : Layout) :
    Nat → Datum → Cursor → Decoded
  | 0, d, c => ⟨.ok (), d, c⟩
  | n + 1, d, c =>
    match slotNamed layout c with
    | (.error f, c) => ⟨.error f, d, c⟩
    | (.ok found, c) =>
      let r :=
        match found with
        | some s => slot cx deeper id s d c
        | none => skipping d c
      match r with
      | ⟨.ok _, d, c⟩ => namedSlots cx deeper id layout n d c
      | ⟨.error f, d, c⟩ => ⟨.error f, d, c⟩

/-- Reads a record by its layout; nil leaves it as it is. -/
def fields (cx : Context) (deeper : Ty → InPlace) (id : RecordId) : InPlace := fun d c =>
  let layout := cx.layout id
  match cx.mode with
  | .positional =>
    match Read.arrayLength .record c with
    | (.error f, c) => ⟨.error f, d, c⟩
    | (.ok none, c) => ⟨.ok (), d, c⟩
    | (.ok (some n), c) => slots cx deeper id n layout.slots d c
  | .named =>
    match Read.mapLength .record c with
    | (.error f, c) => ⟨.error f, d, c⟩
    | (.ok none, c) => ⟨.ok (), d, c⟩
    | (.ok (some n), c) => namedSlots cx deeper id layout n d c

/-- Reads a record: through a binding if one claims it, else by its layout one level down. -/
def record (cx : Context) (deeper : Option (Ty → InPlace)) (id : RecordId) : InPlace := fun d c =>
  if cx.hasBinding (.record id) || (cx.catalog.decl id).form == .external then
    extension cx (.record id) d c
  else
    match deeper with
    | none => ⟨.error (.tooDeep maxDepth), d, c.consult id⟩
    | some r => Decoded.nested (fields cx r id d) (c.consult id)

end InPlace

/-! ## 4. All types -/

namespace Datum

/-- Reads into a destination of a type, with a reader for what lies one level down. -/
def readStep (cx : Context) (levels : Nat) (deeper : Option (Ty → InPlace)) : Ty → InPlace
  | .bool => .replace do
    let b ← Read.bool
    return .bool b
  | .number t => .replace do
    let n ← Read.number t.kind
    let x ← Read.narrow t t.kind n
    return ofNarrowed x
  | .text => .replace do
    let s ← Read.text
    return .text s
  | .bytes => .replace do
    let bytes ← Read.raw .bin
    return .bytes (bytes.getD [])
  | .dynamic => .replace do
    let v ← Value.read cx.registry levels
    return .dynamic v
  | .timestamp => .extension cx .timestamp
  | .clockTime => .clockTime cx
  | .list t => .sequence deeper t (cx.catalog.initial t)
  | .array n t => .array deeper n t (cx.catalog.initial t)
  | .tuple ts => .tuple deeper cx.catalog.initial ts
  | .option t => fun d c =>
    match Read.tryNil c with
    | (.error f, c) => ⟨.error f, d, c⟩
    | (.ok true, c) => ⟨.ok (), .absent, c⟩
    | (.ok false, c) =>
      (readStep cx levels deeper t (d.held?.getD (cx.catalog.initial t)) c).mapDest .present
  | .box t => readStep cx levels deeper t
  | .map order kt vt => .map deeper order kt vt (cx.catalog.initial kt) (cx.catalog.initial vt)
  | .record id => .record cx deeper id

/-- Reads into a destination of a type with `levels` levels left. -/
def read (cx : Context) : Nat → Ty → InPlace
  | 0 => readStep cx 0 none
  | levels + 1 => readStep cx (levels + 1) (some (read cx levels))

end Datum

end MessagePack
