import MessagePack.Decode.Calls
import MessagePack.Encode.Datum
import MessagePack.Encode.Sink
/-!
# Codecs

A codec serves one catalog.  It holds a registry of bindings and the layouts that were looked up so
far, by record and mode.  Every operation takes the codec and gives it back: an operation sees the
bindings as they are when it starts, and the layouts that it resolves anew are kept.  Two codecs
share nothing.
-/

namespace MessagePack

/-- Layouts by record and mode. -/
abbrev LayoutCache : Type := List ((RecordId × Mode) × Layout)

/-- A registry of bindings and a cache of layouts for one catalog. -/
structure Codec where
  catalog : Catalog
  registry : Registry
  layouts : LayoutCache

namespace Codec

/-- A codec that knows only timestamps. -/
def fresh (c : Catalog) : Codec := ⟨c, .initial, []⟩

/-! ## 1. Layouts -/

/-- A layout from the cache, or resolved if it is not there. -/
def layoutOf (c : Codec) (mode : Mode) (id : RecordId) : Layout :=
  (c.layouts.lookup (id, mode)).getD (.resolve c.catalog id mode)

/-- Keeps a layout that was looked up; the first one kept stays. -/
def remember (c : Codec) (mode : Mode) (id : RecordId) : Codec :=
  match c.layouts.lookup (id, mode) with
  | some _ => c
  | none => { c with layouts := ((id, mode), c.layoutOf mode id) :: c.layouts }

/-- Keeps the layouts that an operation looked up. -/
def rememberAll (c : Codec) (mode : Mode) (ids : List RecordId) : Codec :=
  ids.foldl (fun c id => c.remember mode id) c

/-- The layout of a record, kept for later. -/
def layout (c : Codec) (mode : Mode) (id : RecordId) : Layout × Codec :=
  (c.layoutOf mode id, c.remember mode id)

/-- What an operation sees that starts now. -/
def context (c : Codec) (mode : Mode) : Context where
  catalog := c.catalog
  mode := mode
  layout := c.layoutOf mode
  registry := c.registry

/-! ## 2. Bindings -/

/-- Adds a binding; false if its tag or its host is claimed. -/
def register (c : Codec) (b : Binding) : Bool × Codec :=
  let (added, registry) := c.registry.register b
  (added, { c with registry })

/-- Removes a binding; false if it is not there. -/
def unregister (c : Codec) (tag : Int8) (host : Host) : Bool × Codec :=
  let (removed, registry) := c.registry.unregister tag host
  (removed, { c with registry })

/-! ## 3. Writing -/

/-- The passes of writing a datum. -/
def encoding (c : Codec) (t : Ty) (d : Datum) (mode : Mode) : Encoding :=
  (d.script (c.context mode) t).encode

/-- What passes come to: their result, with the layouts that they looked up kept. -/
def conclude (c : Codec) (mode : Mode) (e : Encoding) : Except Fault (List UInt8) × Codec :=
  (e.result, c.rememberAll mode e.notes.consulted)

/-- The bytes of a datum, exactly as many as counted beforehand. -/
def encode (c : Codec) (t : Ty) (d : Datum) (mode : Mode) : Except Fault (List UInt8) × Codec :=
  c.conclude mode (c.encoding t d mode)

/-- The number of bytes of a datum. -/
def encodedLength (c : Codec) (t : Ty) (d : Datum) (mode : Mode) : Except Fault Nat × Codec :=
  let (length, notes) := (d.script (c.context mode) t).measure
  (length, c.rememberAll mode notes.consulted)

/-- Runs one sequence of steps for sizing and one for writing. -/
def encodeSteps (c : Codec) (sizing writing : List Step) (mode : Mode) : Encoding × Codec :=
  let e := Encoding.ofSteps sizing writing
  (e, c.rememberAll mode e.notes.consulted)

/-! ## 4. Reading -/

/-- Faults on unread input. -/
def finish (c : Cursor) : Except Fault Unit :=
  match c.rest with
  | [] => .ok ()
  | rest => .error (.trailing rest.length)

/-- The run of reading an input into a destination. -/
def reading (c : Codec) (t : Ty) (d : Datum) (input : List UInt8) (mode : Mode) : Decoded :=
  d.read (c.context mode) maxDepth t (.start input)

/-- What such a run comes to: the whole input must be consumed, and the layouts that were looked up
are kept.  The destination is given as it was left, after a fault too. -/
def settle (c : Codec) (mode : Mode) (r : Decoded) : Except Fault Unit × Datum × Codec :=
  let outcome :=
    match r.outcome with
    | .ok _ => finish r.cursor
    | .error f => .error f
  (outcome, r.dest, c.rememberAll mode r.cursor.trace.consulted)

/-- Reads into a destination. -/
def decodeInto (c : Codec) (t : Ty) (d : Datum) (input : List UInt8) (mode : Mode) :
    Except Fault Unit × Datum × Codec :=
  c.settle mode (c.reading t d input mode)

/-- Reads a fresh datum; the whole input must be consumed. -/
def decode (c : Codec) (t : Ty) (input : List UInt8) (mode : Mode) : Except Fault Datum × Codec :=
  let (outcome, d, c') := c.decodeInto t (c.catalog.initial t) input mode
  (outcome.map fun _ => d, c')

/-- Reads any input into a dynamic value. -/
def decodeValue (c : Codec) (input : List UInt8) : Except Fault Value × Codec :=
  let (outcome, c') := c.decode .dynamic input default
  (outcome.map Datum.asValue, c')

/-- Makes calls on a cursor at the start of an input; the whole input must be consumed in the
end. -/
def decodeCalls (c : Codec) (calls : List Call) (input : List UInt8) (mode : Mode) :
    List Report × Except Fault Unit × Codec :=
  let (reports, last) := Decoder.callEach (c.context mode) calls (.start input)
  (reports, finish last, c.rememberAll mode last.trace.consulted)

end Codec

end MessagePack
