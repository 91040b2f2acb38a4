/-!
# Arithmetic in words

A word of the machine holds numbers of one range only.  A result beyond it is taken modulo the size
of the word; that an operation went beyond is kept beside the result, since whoever runs with checks
on ends at the first operation that did.
-/

namespace MessagePack

/-- An operation on words whose result did not fit. -/
inductive Overflow where
  | negate
  | subtract
  deriving DecidableEq, Repr

/-- The overflow in words. -/
def Overflow.message : Overflow → String
  | .negate => "attempt to negate with overflow"
  | .subtract => "attempt to subtract with overflow"

/-- A result modulo the size of its word, and what overflowed on the way to it. -/
structure Worded (α : Type) where
  value : α
  overflows : List Overflow
  deriving DecidableEq, Repr

namespace Worded

instance : Monad Worded where
  pure a := ⟨a, []⟩
  bind w next := ⟨(next w.value).value, w.overflows ++ (next w.value).overflows⟩

/-- A result with the operation it is of, if that went beyond the word. -/
def checked {α : Type} (value : α) (fits : Bool) (operation : Overflow) : Worded α :=
  ⟨value, if fits then [] else [operation]⟩

/-- The negative of a number of 64 bits. -/
def negate (a : Int64) : Worded Int64 := checked (-a) ((-a).toInt == -a.toInt) .negate

/-- A difference of numbers of 64 bits. -/
def subtract (a b : Int64) : Worded Int64 :=
  checked (a - b) ((a - b).toInt == a.toInt - b.toInt) .subtract

end Worded

end MessagePack
