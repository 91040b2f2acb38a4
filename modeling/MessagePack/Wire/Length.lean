import MessagePack.Wire.BigEndian
import MessagePack.Wire.Header
/-!
# Length headers

Texts, bytes, arrays, maps and extensions announce how long they are.  Each family has short
headers that carry a small length themselves (bytes have none) and wide ones that a big-endian
length follows.  `Family.header?` picks the shortest that can carry a length; from `2 ^ 32` on
there is none.
-/

namespace MessagePack

/-- The families of headers that announce a length. -/
inductive Family where
  | text
  | bin
  | array
  | map
  | ext
  deriving DecidableEq, Repr

namespace Family

/-- The header that carries the length itself, if the family has one for it. -/
def fix? : Family → Nat → Option Header
  | .text, n => if h : n < 32 then some (.fixText ⟨n, h⟩) else none
  | .bin, _ => none
  | .array, n => if h : n < 16 then some (.fixArray ⟨n, h⟩) else none
  | .map, n => if h : n < 16 then some (.fixMap ⟨n, h⟩) else none
  | .ext, n => Header.fixExt? n

/-- The header that a length of width `w` follows. -/
def wide : Family → Width → Header
  | .text => .text
  | .bin => .bin
  | .array => .array
  | .map => .map
  | .ext => .ext

/-- The widths that the format assigns to the family, narrowest first. -/
def widths : Family → List Width
  | .text | .bin | .ext => [.w8, .w16, .w32]
  | .array | .map => [.w16, .w32]

/-- The shortest header for a length, with the length bytes that follow it. -/
def header? (f : Family) (n : Nat) : Option (Header × List UInt8) :=
  match f.fix? n with
  | some h => some (h, [])
  | none =>
    (f.widths.find? fun w => n < w.span).map fun w => (f.wide w, bigEndian w.bytes n)

end Family

end MessagePack
