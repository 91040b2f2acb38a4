import MessagePack.Record.Catalog
import MessagePack.Encode.Script
/-!
# Extension bindings

A binding claims a tag and a host type and carries data of that type into payloads and back.  A
registry holds bindings by tag and by host.  A binding whose tag or host is taken is refused whole,
and the timestamp binding with tag `-1` is always there: it can neither be replaced nor removed.
-/

namespace MessagePack

/-- The types that bindings can claim. -/
inductive Host where
  | timestamp
  | record (id : RecordId)
  /-- A type that never asks for a binding itself. -/
  | other (name : String)
  deriving DecidableEq, Repr

/-- The name of a host in messages. -/
def Host.qualifiedName (c : Catalog) : Host → String
  | .timestamp => "mpack::timestamp::Timestamp"
  | .record id => (c.decl id).qualifiedName
  | .other name => name

/-- How one host type is carried in extensions of one tag. -/
structure Binding where
  tag : Int8
  host : Host
  /-- Writes a whole extension value, header included. -/
  encode : Datum → Script
  /-- Reads a payload. -/
  decode : List UInt8 → Except Fault Datum
  /-- The dynamic form of a datum; without one a value stays a raw extension. -/
  dynamic? : Datum → Option Value

namespace Binding

/-- The dynamic value of a payload. -/
def decodeValue (b : Binding) (payload : List UInt8) : Except Fault Value :=
  (b.decode payload).map fun d => (b.dynamic? d).getD (.ext b.tag payload)

/-- The tag of timestamps. -/
def timestampTag : Int8 := -1

/-- The binding of timestamps. -/
def timestamp : Binding where
  tag := timestampTag
  host := .timestamp
  encode d := Script.ext timestampTag d.asTimestamp.payload
  decode payload :=
    match Timestamp.ofPayload payload with
    | .ok t => .ok (.timestamp t)
    | .error e => .error (.extension timestampTag e.message)
  dynamic? d := some (.timestamp d.asTimestamp)

end Binding

/-- The bindings that a codec consults, by host and by tag. -/
structure Registry where
  byHost : List (Host × Binding)
  byTag : List (Int8 × Binding)

namespace Registry

def forHost? (r : Registry) (h : Host) : Option Binding := r.byHost.lookup h

def forTag? (r : Registry) (t : Int8) : Option Binding := r.byTag.lookup t

/-- Enters a binding under its host and its tag. -/
def insert (r : Registry) (b : Binding) : Registry :=
  ⟨(b.host, b) :: r.byHost, (b.tag, b) :: r.byTag⟩

/-- Only the timestamp binding. -/
def initial : Registry := (⟨[], []⟩ : Registry).insert .timestamp

instance : Inhabited Registry := ⟨initial⟩

/-- Whether a tag or a host belongs to the timestamp binding. -/
def isReserved (tag : Int8) (host : Host) : Bool :=
  tag == Binding.timestampTag || host == .timestamp

/-- Adds a binding; refused, changing nothing, if its tag or its host is claimed. -/
def register (r : Registry) (b : Binding) : Bool × Registry :=
  if isReserved b.tag b.host then (false, r)
  else if (r.forTag? b.tag).isNone && (r.forHost? b.host).isNone then (true, r.insert b)
  else (false, r)

/-- Removes the binding of this tag and this host; refused, changing nothing, if there is none or
it is the timestamp's. -/
def unregister (r : Registry) (tag : Int8) (host : Host) : Bool × Registry :=
  if isReserved tag host then (false, r)
  else
    match r.forTag? tag with
    | some b =>
      if b.host = host then
        (true, ⟨r.byHost.filter (·.1 != host), r.byTag.filter (·.1 != tag)⟩)
      else (false, r)
    | none => (false, r)

/-- Whether a binding claims a tag. -/
def claims (r : Registry) (tag : Int8) : Bool := (r.forTag? tag).isSome

end Registry

end MessagePack
