/-!
# Headers

Every wire value starts with a header byte.  A header says what kind of value follows and either
carries a small number or length itself or announces the width of one.  All 256 bytes are headers:
`Header.ofByte` and `Header.toByte` go back and forth, and one byte, `unused`, is never assigned.

Main statement: `Header.toByte_ofByte`, no two bytes share a header.
-/

namespace MessagePack

/-- How wide a number or a length is that follows a header. -/
inductive Width where
  | w8
  | w16
  | w32
  | w64
  deriving DecidableEq, Repr

/-- The number of bytes of a width. -/
def Width.bytes : Width → Nat
  | .w8 => 1
  | .w16 => 2
  | .w32 => 4
  | .w64 => 8

/-- How many numbers from zero up have a width. -/
def Width.span : Width → Nat
  | .w8 => 0x100
  | .w16 => 0x10000
  | .w32 => 0x100000000
  | .w64 => 0x10000000000000000

/-- What a header byte says.  Headers that announce a length use only those widths that the format
assigns: eight to thirty-two bits for texts, bytes and extensions, sixteen or thirty-two for arrays
and maps. -/
inductive Header where
  | nil
  /-- The one byte that the format never assigns. -/
  | unused
  | bool (b : Bool)
  /-- A number from 0 to 127. -/
  | posFix (value : Fin 128)
  /-- A number from -32 to -1, counted from -32. -/
  | negFix (above : Fin 32)
  | uint (w : Width)
  | int (w : Width)
  | single
  | double
  | fixText (length : Fin 32)
  | text (w : Width)
  | bin (w : Width)
  | fixArray (length : Fin 16)
  | array (w : Width)
  | fixMap (length : Fin 16)
  | map (w : Width)
  /-- An extension whose payload has `2 ^ power` bytes. -/
  | fixExt (power : Fin 5)
  | ext (w : Width)
  deriving DecidableEq, Repr

namespace Header

/-- The headers from 0xc0 to 0xdf, which carry nothing themselves. -/
def assigned : Nat → Header
  | 0xc0 => .nil
  | 0xc2 => .bool false
  | 0xc3 => .bool true
  | 0xc4 => .bin .w8
  | 0xc5 => .bin .w16
  | 0xc6 => .bin .w32
  | 0xc7 => .ext .w8
  | 0xc8 => .ext .w16
  | 0xc9 => .ext .w32
  | 0xca => .single
  | 0xcb => .double
  | 0xcc => .uint .w8
  | 0xcd => .uint .w16
  | 0xce => .uint .w32
  | 0xcf => .uint .w64
  | 0xd0 => .int .w8
  | 0xd1 => .int .w16
  | 0xd2 => .int .w32
  | 0xd3 => .int .w64
  | 0xd4 => .fixExt 0
  | 0xd5 => .fixExt 1
  | 0xd6 => .fixExt 2
  | 0xd7 => .fixExt 3
  | 0xd8 => .fixExt 4
  | 0xd9 => .text .w8
  | 0xda => .text .w16
  | 0xdb => .text .w32
  | 0xdc => .array .w16
  | 0xdd => .array .w32
  | 0xde => .map .w16
  | 0xdf => .map .w32
  | _ => .unused

/-- The header that a byte stands for. -/
def ofByte (b : UInt8) : Header :=
  let n := b.toNat
  if h : n < 0x80 then .posFix ⟨n, h⟩
  else if n < 0x90 then .fixMap (Fin.ofNat 16 n)
  else if n < 0xa0 then .fixArray (Fin.ofNat 16 n)
  else if n < 0xc0 then .fixText (Fin.ofNat 32 n)
  else if n < 0xe0 then assigned n
  else .negFix (Fin.ofNat 32 n)

/-- The byte that stands for a header.  A width that a family lacks counts as its widest. -/
def toByte : Header → UInt8
  | .nil => 0xc0
  | .unused => 0xc1
  | .bool false => 0xc2
  | .bool true => 0xc3
  | .posFix v => UInt8.ofNat v
  | .negFix k => UInt8.ofNat (0xe0 + k)
  | .uint .w8 => 0xcc
  | .uint .w16 => 0xcd
  | .uint .w32 => 0xce
  | .uint .w64 => 0xcf
  | .int .w8 => 0xd0
  | .int .w16 => 0xd1
  | .int .w32 => 0xd2
  | .int .w64 => 0xd3
  | .single => 0xca
  | .double => 0xcb
  | .fixText n => UInt8.ofNat (0xa0 + n)
  | .text .w8 => 0xd9
  | .text .w16 => 0xda
  | .text _ => 0xdb
  | .bin .w8 => 0xc4
  | .bin .w16 => 0xc5
  | .bin _ => 0xc6
  | .fixArray n => UInt8.ofNat (0x90 + n)
  | .array .w16 => 0xdc
  | .array _ => 0xdd
  | .fixMap n => UInt8.ofNat (0x80 + n)
  | .map .w16 => 0xde
  | .map _ => 0xdf
  | .fixExt p => UInt8.ofNat (0xd4 + p)
  | .ext .w8 => 0xc7
  | .ext .w16 => 0xc8
  | .ext _ => 0xc9

/-- No two bytes share a header. -/
theorem toByte_ofByte (b : UInt8) : (ofByte b).toByte = b := by
  have all : ∀ i : Fin 256, (ofByte (UInt8.ofNat i)).toByte = UInt8.ofNat i := by decide +kernel
  simpa using all ⟨b.toNat, b.toNat_lt⟩

/-- The number that a `negFix` header carries. -/
def negValue (above : Fin 32) : Int := (above : Int) - 32

/-- The header that carries a number from -32 to -1. -/
def ofNegative (i : Int) : Header := .negFix (Fin.ofNat 32 (i + 32).toNat)

/-- The payload length that a `fixExt` header announces. -/
def extLength (power : Fin 5) : Nat := 1 <<< (power : Nat)

/-- Arrays and maps, which cannot be mapping keys. -/
def isContainer : Header → Bool
  | .fixArray _ | .array _ | .fixMap _ | .map _ => true
  | _ => false

/-- Headers of whole numbers. -/
def isInteger : Header → Bool
  | .posFix _ | .negFix _ | .uint _ | .int _ => true
  | _ => false

/-- Headers of texts. -/
def isText : Header → Bool
  | .fixText _ | .text _ => true
  | _ => false

/-- Headers of extensions. -/
def isExt : Header → Bool
  | .fixExt _ | .ext _ => true
  | _ => false

/-- The header of an extension whose payload has one of the five fixed lengths. -/
def fixExt? : Nat → Option Header
  | 1 => some (.fixExt 0)
  | 2 => some (.fixExt 1)
  | 4 => some (.fixExt 2)
  | 8 => some (.fixExt 3)
  | 16 => some (.fixExt 4)
  | _ => none

end Header

end MessagePack
