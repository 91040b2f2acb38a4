import MessagePack.Extension.Registry
import MessagePack.Gallery.Records
/-!
# Sample bindings

Bindings for the gallery's hosts: two numbers in four bytes, a temperature that refuses to be
written below absolute zero, bytes of any length, and an otherwise ordinary record that a binding
takes over.  Each has a dynamic form that can be left out.
-/

namespace MessagePack.Gallery

/-- The fault of a payload of the wrong length. -/
def expected (tag : Int8) (n : Nat) : Fault := .extension tag s!"expected {n} bytes"

/-- A dynamic form, if it is wanted. -/
def whenDynamic (dynamic : Bool) (form : Datum → Value) (d : Datum) : Option Value :=
  if dynamic then some (form d) else none

/-- A whole number field of a record. -/
def intField (d : Datum) (index : Nat) : Int := ((d.fields[index]?).map Datum.asInt).getD 0

/-- A version as two numbers of two bytes. -/
def version (host : RecordId) (tag : Int8) (dynamic : Bool) : Binding where
  tag := tag
  host := .record host
  encode d :=
    .ext tag (bigEndian 2 (intField d 0).toNat ++ bigEndian 2 (intField d 1).toNat)
  decode payload :=
    if payload.length = 4 then
      .ok (.record [.int (ofBigEndian (payload.take 2)), .int (ofBigEndian (payload.drop 2))])
    else .error (expected tag 4)
  dynamic? := whenDynamic dynamic fun d => .text s!"{intField d 0}.{intField d 1}"

/-- A temperature as a signed number of two bytes. -/
def celsius (host : RecordId) (tag : Int8) (dynamic : Bool) : Binding where
  tag := tag
  host := .record host
  encode d :=
    if intField d 0 < -273 then
      .fail (.extension tag s!"{intField d 0} is below absolute zero")
    else .ext tag (bigEndian 2 (intField d 0 % 0x10000).toNat)
  decode payload :=
    if payload.length = 2 then
      .ok (.record [.int ((ofBigEndian payload : Int).bmod 0x10000)])
    else .error (expected tag 2)
  dynamic? := whenDynamic dynamic fun d => .int (Int64.ofInt (intField d 0))

/-- Bytes as they are. -/
def blob (host : RecordId) (tag : Int8) (dynamic : Bool) : Binding where
  tag := tag
  host := .record host
  encode d := .ext tag (content d)
  decode payload := .ok (.record [.seq (payload.map fun b => .int b.toNat)])
  dynamic? := whenDynamic dynamic fun d => .bin (content d)
where
  content (d : Datum) : List UInt8 :=
    ((d.fields[0]?).map Datum.items).getD [] |>.map fun x => UInt8.ofNat x.asInt.toNat

/-- A number of four bytes. -/
def claimed (host : RecordId) (tag : Int8) (dynamic : Bool) : Binding where
  tag := tag
  host := .record host
  encode d := .ext tag (bigEndian 4 (intField d 0).toNat)
  decode payload :=
    if payload.length = 4 then .ok (.record [.int (ofBigEndian payload)])
    else .error (expected tag 4)
  dynamic? := whenDynamic dynamic fun d => .uint (UInt64.ofNat (intField d 0).toNat)

/-- The binding of a host of the gallery, by name. -/
def binding? (name : String) (tag : Int8) (dynamic : Bool) : Option Binding := do
  let host ← find? name
  match name with
  | "Version" => some (version host tag dynamic)
  | "Celsius" => some (celsius host tag dynamic)
  | "Blob" => some (blob host tag dynamic)
  | "Opaque" => some (claimed host tag dynamic)
  | _ => none

end MessagePack.Gallery
