import MessagePack.Ieee.Format
import MessagePack.Kind
import MessagePack.Text.Utf8
import MessagePack.Time.Timestamp
/-!
# Dynamic values

Any wire value, for input whose shape is not known beforehand.  A whole number keeps the signedness
of its header and a map keeps its entries in wire order, repeated keys included.

Values may be compared in two ways: `Value.same` compares floats as numbers, and identity, which can
be decided, compares them by their bits.
-/

namespace MessagePack

/-- Any wire value. -/
inductive Value where
  | nil
  | bool (b : Bool)
  | int (i : Int64)
  | uint (u : UInt64)
  | single (x : Single)
  | double (x : Double)
  | text (s : String)
  | bin (bytes : List UInt8)
  | array (items : List Value)
  | map (entries : List (Value × Value))
  /-- An extension that no binding turned into something richer. -/
  | ext (tag : Int8) (payload : List UInt8)
  | timestamp (t : Timestamp)
  deriving Repr

namespace Value

instance : Inhabited Value := ⟨.nil⟩

def isNil : Value → Bool
  | .nil => true
  | _ => false

/-- The kind a value is written as. -/
def kind : Value → Kind
  | .nil => .nil
  | .bool _ => .bool
  | .int _ => .int
  | .uint _ => .uint
  | .single _ | .double _ => .float
  | .text _ => .text
  | .bin _ => .bin
  | .array _ => .array
  | .map _ => .map
  | .ext .. | .timestamp _ => .ext

/-! ## 1. Looking into a value -/

def bool? : Value → Option Bool
  | .bool b => some b
  | _ => none

/-- A whole number of either sign spelling, if it fits 64 signed bits. -/
def int64? : Value → Option Int64
  | .int i => some i
  | .uint u => if u.toNat < 0x8000000000000000 then some (Int64.ofNat u.toNat) else none
  | _ => none

/-- A whole number of either sign spelling, if it is not negative. -/
def uint64? : Value → Option UInt64
  | .uint u => some u
  | .int i => if 0 ≤ i.toInt then some (UInt64.ofNat i.toInt.toNat) else none
  | _ => none

def double? : Value → Option Double
  | .single x => some x.widen
  | .double x => some x
  | _ => none

def text? : Value → Option String
  | .text s => some s
  | _ => none

/-- Bytes, or the bytes of a text. -/
def bytes? : Value → Option (List UInt8)
  | .bin b => some b
  | .text s => some (utf8Bytes s)
  | _ => none

def items? : Value → Option (List Value)
  | .array items => some items
  | _ => none

def entries? : Value → Option (List (Value × Value))
  | .map entries => some entries
  | _ => none

/-- The value of a map's first entry whose key is this text. -/
def get? (v : Value) (key : String) : Option Value := do
  let entries ← v.entries?
  let entry ← entries.find? fun e => e.1.text? == some key
  return entry.2

/-! ## 2. Equality

Two values are equal when they are built alike from equal parts; floats are compared as numbers. -/

mutual

/-- Equality of values. -/
def same : Value → Value → Bool
  | .nil, .nil => true
  | .bool a, .bool b => a == b
  | .int a, .int b => a == b
  | .uint a, .uint b => a == b
  | .single a, .single b => a.numEq b
  | .double a, .double b => a.numEq b
  | .text a, .text b => a == b
  | .bin a, .bin b => a == b
  | .array a, .array b => sameItems a b
  | .map a, .map b => sameEntries a b
  | .ext s a, .ext t b => s == t && a == b
  | .timestamp a, .timestamp b => a == b
  | _, _ => false

/-- Equality of arrays, item by item. -/
def sameItems : List Value → List Value → Bool
  | [], [] => true
  | a :: as, b :: bs => same a b && sameItems as bs
  | _, _ => false

/-- Equality of maps, entry by entry in wire order. -/
def sameEntries : List (Value × Value) → List (Value × Value) → Bool
  | [], [] => true
  | (k, v) :: as, (l, w) :: bs => same k l && same v w && sameEntries as bs
  | _, _ => false

end

/-! ## 3. Identity -/

mutual

/-- Whether two values are the same, floats by their bits. -/
def decEq (a b : Value) : Decidable (a = b) :=
  if alike : a.ctorIdx = b.ctorIdx then
    match a, b, alike with
    | .nil, .nil, _ => .isTrue rfl
    | .bool x, .bool y, _ => decidable_of_iff (x = y) (by simp)
    | .int x, .int y, _ => decidable_of_iff (x = y) (by simp)
    | .uint x, .uint y, _ => decidable_of_iff (x = y) (by simp)
    | .single x, .single y, _ => decidable_of_iff (x = y) (by simp)
    | .double x, .double y, _ => decidable_of_iff (x = y) (by simp)
    | .text x, .text y, _ => decidable_of_iff (x = y) (by simp)
    | .bin x, .bin y, _ => decidable_of_iff (x = y) (by simp)
    | .array xs, .array ys, _ =>
      have := decEqItems xs ys
      decidable_of_iff (xs = ys) (by simp)
    | .map xs, .map ys, _ =>
      have := decEqEntries xs ys
      decidable_of_iff (xs = ys) (by simp)
    | .ext s x, .ext t y, _ => decidable_of_iff (s = t ∧ x = y) (by simp)
    | .timestamp x, .timestamp y, _ => decidable_of_iff (x = y) (by simp)
  else .isFalse fun same => alike (congrArg Value.ctorIdx same)

/-- Whether two arrays have the same items. -/
def decEqItems : (as bs : List Value) → Decidable (as = bs)
  | [], [] => .isTrue rfl
  | [], _ :: _ | _ :: _, [] => .isFalse nofun
  | a :: as, b :: bs =>
    have := decEq a b
    have := decEqItems as bs
    decidable_of_iff (a = b ∧ as = bs) (by simp)

/-- Whether two maps have the same entries in the same order. -/
def decEqEntries : (as bs : List (Value × Value)) → Decidable (as = bs)
  | [], [] => .isTrue rfl
  | [], _ :: _ | _ :: _, [] => .isFalse nofun
  | (k, v) :: as, (l, w) :: bs =>
    have := decEq k l
    have := decEq v w
    have := decEqEntries as bs
    decidable_of_iff ((k = l ∧ v = w) ∧ as = bs) (by simp)

end

instance : DecidableEq Value := decEq

end Value

end MessagePack
