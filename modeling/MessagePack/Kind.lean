/-!
# Kinds and modes

A kind names what a value is, to describe destinations in faults and to keep arrays and maps from
being mapping keys.  A mode says how records lie on the wire.
-/

namespace MessagePack

/-- The kinds of values. -/
inductive Kind where
  | nil
  | bool
  | int
  | uint
  | float
  | text
  | bin
  | array
  | map
  | record
  | ext
  | dynamic
  deriving DecidableEq, Repr

namespace Kind

/-- Kinds that are written as an array or a map. -/
def isContainer : Kind → Bool
  | .array | .map | .record => true
  | _ => false

/-- The kind in words. -/
def describe : Kind → String
  | .nil => "nil"
  | .bool => "bool"
  | .int => "signed integer"
  | .uint => "unsigned integer"
  | .float => "float"
  | .text => "string"
  | .bin => "binary"
  | .array => "array"
  | .map => "map"
  | .record => "record"
  | .ext => "extension"
  | .dynamic => "dynamic value"

end Kind

/-- How records lie on the wire. -/
inductive Mode where
  /-- An array with one slot for each resolved field. -/
  | positional
  /-- A map from wire names to values. -/
  | named
  deriving DecidableEq, Repr

/-- Records are maps unless asked otherwise. -/
instance : Inhabited Mode := ⟨.named⟩

end MessagePack
