import MessagePack.Ieee.Decimal
import MessagePack.Wire.Header
/-!
# Numbers

A number on the wire is signed, unsigned or a float, as its header says.  The destination only
decides whether the number fits: whole numbers are kept exactly or refused, floats lose their
fraction toward zero on the way to a whole number, and every number has a nearest float.
-/

namespace MessagePack

/-- A number as its header spells it. -/
inductive Number where
  | int (i : Int64)
  | uint (u : UInt64)
  | float (x : Double)
  deriving DecidableEq, Repr

/-- The number types of destinations. -/
inductive NumType where
  | uint (w : Width)
  | int (w : Width)
  | single
  | double
  deriving DecidableEq, Repr

/-- A number of one of the number types. -/
inductive Narrowed where
  | whole (i : Int)
  | single (x : Single)
  | double (x : Double)
  deriving DecidableEq, Repr

namespace Narrowed

def asInt : Narrowed → Int
  | .whole i => i
  | _ => 0

def asSingle : Narrowed → Single
  | .single x => x
  | _ => default

def asDouble : Narrowed → Double
  | .double x => x
  | _ => default

end Narrowed

namespace NumType

/-- Whether a whole number is one of an integer type's. -/
def holds : NumType → Int → Bool
  | .uint w, i => 0 ≤ i && i < w.span
  | .int w, i => -(w.span : Int) ≤ 2 * i && 2 * i < w.span
  | _, _ => false

end NumType

namespace Number

/-- The whole number in a number, after dropping a float's fraction. -/
def truncate? : Number → Option Int
  | .int i => some i.toInt
  | .uint u => some u.toNat
  | .float x => x.classify.truncate?

/-- The float nearest to a number. -/
def toDouble : Number → Double
  | .int i => .ofInt i.toInt
  | .uint u => .ofInt u.toNat
  | .float x => x

/-- The short float nearest to a number. -/
def toSingle : Number → Single
  | .int i => .ofInt i.toInt
  | .uint u => .ofInt u.toNat
  | .float x => x.narrow

/-- The number in a destination's type, if it fits. -/
def narrow? (n : Number) : NumType → Option Narrowed
  | .single => some (.single n.toSingle)
  | .double => some (.double n.toDouble)
  | t => (n.truncate?.filter t.holds).map .whole

/-- The text of a number. -/
def text : Number → String
  | .int i => toString i.toInt
  | .uint u => toString u.toNat
  | .float x => x.text

end Number

end MessagePack
