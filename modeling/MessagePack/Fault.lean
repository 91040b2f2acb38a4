import MessagePack.Kind
import MessagePack.Number
import MessagePack.Time.Timestamp
import MessagePack.Wire.Length
/-!
# Faults

Everything that can go wrong while a value is written or read.  A fault is a cause with what is
needed to describe it; `Fault.message` holds all the wording.
-/

namespace MessagePack

/-- Why a value has no form on the wire. -/
inductive Unwritable where
  /-- Longer than any header can say. -/
  | tooLong (family : Family) (length : Nat)
  | containerKey (kind : Kind)
  | unboundHost (host : String)
  deriving DecidableEq, Repr

/-- Why a destination cannot take what was read. -/
inductive Misfit where
  | hiddenField (field : String)
  | emptyPath (field : String)
  | noEmbedded (index : Nat) (field : String)
  | readOnlyField (field : String)
  | arrayLength (found wanted : Nat)
  | tupleLength (found wanted : Nat)
  | otherHost (tag : Int8) (host : String)
  deriving DecidableEq, Repr

/-- What was out of range. -/
inductive Quantity where
  | number (n : Number)
  | instant (t : Timestamp)
  deriving DecidableEq, Repr

/-- What went wrong. -/
inductive Fault where
  /-- A header that is unassigned or of no use to the destination. -/
  | format (byte : UInt8) (kind : Kind)
  /-- Fewer bytes remain than a header promised. -/
  | truncated (needed remaining : Nat)
  | unwritable (cause : Unwritable)
  /-- A mapping key is an array or a map. -/
  | structuralKey (byte : UInt8)
  /-- A binding refused a value or a payload. -/
  | extension (tag : Int8) (reason : String)
  | unregistered (tag : Int8)
  | misfit (cause : Misfit)
  | outOfRange (value : Quantity) (kind : Kind)
  | invalidUtf8 (offset : Nat)
  | tooDeep (limit : Nat)
  /-- A value was read and input remains. -/
  | trailing (remaining : Nat)
  /-- The writing pass and the sizing pass disagree. -/
  | sizeMismatch (predicted written : Nat)
  deriving DecidableEq, Repr

namespace Unwritable

def message : Unwritable → String
  | .tooLong .text n => s!"string of {n} bytes"
  | .tooLong .bin n => s!"byte sequence of {n} bytes"
  | .tooLong .array n => s!"array of {n} elements"
  | .tooLong .map n => s!"map of {n} entries"
  | .tooLong .ext n => s!"extension payload of {n} bytes"
  | .containerKey k => "mapping key of kind " ++ k.describe
  | .unboundHost h => "no extension is registered for " ++ h

end Unwritable

namespace Misfit

def message : Misfit → String
  | .hiddenField f => "field `" ++ f ++ "` is not accessible"
  | .emptyPath f => "field `" ++ f ++ "` has an empty path"
  | .noEmbedded i f => s!"no embedded record at index {i} for `" ++ f ++ "`"
  | .readOnlyField f => "field `" ++ f ++ "` is not writable"
  | .arrayLength found wanted => s!"{found} elements cannot fill an array of {wanted}"
  | .tupleLength found wanted => s!"{found} elements cannot fill a tuple of {wanted}"
  | .otherHost tag h => s!"extension type {tag.toInt} decodes to " ++ h

end Misfit

namespace Quantity

def text : Quantity → String
  | .number n => n.text
  | .instant t => t.text

end Quantity

/-- The families that a caller can tell faults apart by. -/
inductive FaultFamily where
  | format
  | truncated
  | unsupported
  | structuralKey
  | extension
  | receiverShape
  deriving DecidableEq, Repr

namespace Fault

/-- Two hexadecimal digits. -/
def hexByte (b : UInt8) : String :=
  let digits := Nat.toDigits 16 b.toNat
  String.ofList (List.replicate (2 - digits.length) '0' ++ digits)

/-- The fault in words. -/
def message : Fault → String
  | .format b k => "unexpected format byte 0x" ++ hexByte b ++ " while decoding " ++ k.describe
  | .truncated needed remaining =>
    s!"input truncated: needed {needed} more bytes, {remaining} remaining"
  | .unwritable cause => "value cannot be encoded: " ++ cause.message
  | .structuralKey b => "mapping key with format byte 0x" ++ hexByte b ++ " is an array or map"
  | .extension tag reason => s!"extension type {tag.toInt} failed: " ++ reason
  | .unregistered tag => s!"no extension is registered for type tag {tag.toInt}"
  | .misfit cause => "destination cannot receive the value: " ++ cause.message
  | .outOfRange v k => "value " ++ v.text ++ " is out of range for " ++ k.describe
  | .invalidUtf8 offset => s!"string at offset {offset} is not valid utf-8"
  | .tooDeep limit => s!"input nests containers more than {limit} levels deep"
  | .trailing remaining => s!"{remaining} bytes left over after the decoded value"
  | .sizeMismatch predicted written => s!"encoder wrote {written} bytes but predicted {predicted}"

/-- The family of a fault.  A disagreement of the two passes has none. -/
def family? : Fault → Option FaultFamily
  | .format .. | .trailing .. | .invalidUtf8 .. | .outOfRange .. | .unregistered .. | .tooDeep .. =>
    some .format
  | .truncated .. => some .truncated
  | .unwritable .. => some .unsupported
  | .structuralKey .. => some .structuralKey
  | .extension .. => some .extension
  | .misfit .. => some .receiverShape
  | .sizeMismatch .. => none

end Fault

end MessagePack
