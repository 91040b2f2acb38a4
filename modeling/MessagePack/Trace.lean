import MessagePack.Ty
import MessagePack.Word
/-!
# What a run keeps track of

Besides the bytes that it reads or puts, a run notes which layouts were looked up and which
operations on words overflowed.  A run that reads also counts how many levels down it is.  No result
depends on any of this.
-/

namespace MessagePack

/-- What a run has noted. -/
structure Notes where
  /-- The record types whose layouts were looked up. -/
  consulted : List RecordId := []
  /-- The overflows in the order they came. -/
  overflows : List Overflow := []
  deriving DecidableEq, Repr

namespace Notes

/-- One more layout looked up. -/
def consult (id : RecordId) (n : Notes) : Notes := { n with consulted := n.consulted.insert id }

/-- Further overflows. -/
def overflow (os : List Overflow) (n : Notes) : Notes := { n with overflows := n.overflows ++ os }

end Notes

/-- What a run that reads has noted, and its depth. -/
structure Trace extends Notes where
  /-- How many arrays, maps and records the run is inside of. -/
  depth : Nat := 0
  deriving DecidableEq, Repr

namespace Trace

/-- One more layout looked up. -/
def consult (id : RecordId) (t : Trace) : Trace := { t with toNotes := t.toNotes.consult id }

/-- Further overflows. -/
def overflow (os : List Overflow) (t : Trace) : Trace := { t with toNotes := t.toNotes.overflow os }

/-- One level further down. -/
def down (t : Trace) : Trace := { t with depth := t.depth + 1 }

/-- One level back up. -/
def up (t : Trace) : Trace := { t with depth := t.depth - 1 }

end Trace

end MessagePack
