import MessagePack.Kind
import MessagePack.Number
/-!
# Types

A type says what a destination can hold and which forms of a value it takes.  Records are named by
their place in a catalog, so types can refer to each other in cycles.
-/

namespace MessagePack

/-- The place of a record declaration in its catalog. -/
abbrev RecordId := Nat

/-- In which order a map holds its entries. -/
inductive MapOrder where
  /-- By key. -/
  | sorted
  /-- As they came. -/
  | arrival
  deriving DecidableEq, Repr

/-- The types of data. -/
inductive Ty where
  | bool
  | number (t : NumType)
  | text
  | bytes
  | dynamic
  | timestamp
  | clockTime
  | list (elem : Ty)
  /-- A list of fixed length. -/
  | array (length : Nat) (elem : Ty)
  | tuple (items : List Ty)
  | option (inner : Ty)
  /-- A datum held behind a pointer; it is read and written as what it points to. -/
  | box (inner : Ty)
  | map (order : MapOrder) (key value : Ty)
  | record (id : RecordId)
  deriving Repr

namespace NumType

/-- The kind of a number type. -/
def kind : NumType → Kind
  | .uint _ => .uint
  | .int _ => .int
  | .single | .double => .float

end NumType

namespace Ty

/-- The type of bytes: of the whole number types the only one whose sequences are written as bytes
and not as an array. -/
abbrev byte : Ty := .number (.uint .w8)

/-- The record whose fields an embedding field of this type contributes. -/
def embedded? : Ty → Option RecordId
  | .record id => some id
  | .option t => t.embedded?
  | .box t => t.embedded?
  | _ => none

/-- The kind a sequence of elements is written as. -/
def sequenceKind : Ty → Kind
  | .number (.uint .w8) => .bin
  | _ => .array

mutual

/-- The records that a datum of this type holds directly, not behind an option, a list or a map. -/
def heldRecords : Ty → List RecordId
  | .record id => [id]
  | .array _ t => t.heldRecords
  | .box t => t.heldRecords
  | .tuple ts => heldByAny ts
  | _ => []

/-- The records that some of the types hold directly. -/
def heldByAny : List Ty → List RecordId
  | [] => []
  | t :: ts => t.heldRecords ++ heldByAny ts

end

end Ty

end MessagePack
