import MessagePack.Fault
import MessagePack.Text.Utf8
import MessagePack.Trace
/-!
# Scripts

Writing a value means putting some bytes after another and perhaps failing on the way.  A script
says which: it does not depend on where the bytes go, so the same script can be counted first and
written afterwards.  `Script.effect` is its meaning, what an undisturbed run puts and how it ends;
`Script.bytes` is the same for a reader who asks only for whole values.
-/

namespace MessagePack

/-- Elements of one type that all take the same number of bytes, so that they can be counted without
being written. -/
inductive Uniform where
  | bools (bs : List Bool)
  | singles (xs : List Single)
  | doubles (xs : List Double)
  deriving Repr

namespace Uniform

/-- How many elements there are. -/
def count : Uniform → Nat
  | .bools bs => bs.length
  | .singles xs => xs.length
  | .doubles xs => xs.length

/-- How many bytes each of them takes. -/
def width : Uniform → Nat
  | .bools _ => 1
  | .singles _ => 5
  | .doubles _ => 9

/-- What is put, one element after another; the header of a float and its bits are two puts. -/
def puts : Uniform → List (List UInt8)
  | .bools bs => bs.map fun b => [(Header.bool b).toByte]
  | .singles xs => xs.flatMap fun x => [[Header.single.toByte], bigEndian 4 x.bits.toNat]
  | .doubles xs => xs.flatMap fun x => [[Header.double.toByte], bigEndian 8 x.bits.toNat]

end Uniform

/-- What writing a value does, step by step. -/
inductive Script where
  | done
  /-- Puts bytes, all or none. -/
  | put (bytes : List UInt8)
  /-- Looks up the layout of a record type. -/
  | consult (id : RecordId)
  /-- Notes what overflowed while the value was prepared. -/
  | overflow (overflows : List Overflow)
  | fail (fault : Fault)
  /-- Puts elements of one width; a pass that only counts does not go through them. -/
  | uniform (items : Uniform)
  /-- Runs a part and goes on whether or not it fails. -/
  | attempt (body : Script)
  | seq (first next : Script)
  deriving Repr

namespace Script

instance : Append Script := ⟨.seq⟩

/-- One script after another. -/
def all (scripts : List Script) : Script := scripts.foldr (· ++ ·) .done

/-- What an undisturbed run of a script puts, and the fault that ends it if one does. -/
def effect : Script → List UInt8 × Except Fault Unit
  | .done => ([], .ok ())
  | .put bs => (bs, .ok ())
  | .consult _ => ([], .ok ())
  | .overflow _ => ([], .ok ())
  | .fail f => ([], .error f)
  | .uniform items => (items.puts.flatten, .ok ())
  | .attempt body => (body.effect.1, .ok ())
  | .seq a b =>
    match a.effect.2 with
    | .ok _ => (a.effect.1 ++ b.effect.1, b.effect.2)
    | .error f => (a.effect.1, .error f)

/-- The bytes that a script puts, or the fault that ends it. -/
def bytes (s : Script) : Except Fault (List UInt8) := s.effect.2.map fun _ => s.effect.1

/-! ## 1. Single values -/

/-- A header and what follows it, in two puts. -/
def headed (h : Header) (body : List UInt8) : Script := .put [h.toByte] ++ .put body

def nil : Script := .put [Header.nil.toByte]

def bool (b : Bool) : Script := .put [(Header.bool b).toByte]

/-- A number from zero up to 64 bits, in the smallest format that holds it. -/
def uint (n : Nat) : Script :=
  if h : n < 128 then .put [(Header.posFix ⟨n, h⟩).toByte]
  else if n < 0x100 then headed (.uint .w8) (bigEndian 1 n)
  else if n < 0x10000 then headed (.uint .w16) (bigEndian 2 n)
  else if n < 0x100000000 then headed (.uint .w32) (bigEndian 4 n)
  else headed (.uint .w64) (bigEndian 8 n)

/-- A whole number of 64 bits in the smallest format that holds it.  From zero up the unsigned
formats serve. -/
def int (i : Int) : Script :=
  if 0 ≤ i then uint i.toNat
  else if -32 ≤ i then .put [(Header.ofNegative i).toByte]
  else if -0x80 ≤ i then headed (.int .w8) (bigEndian 1 (i % 0x100).toNat)
  else if -0x8000 ≤ i then headed (.int .w16) (bigEndian 2 (i % 0x10000).toNat)
  else if -0x80000000 ≤ i then headed (.int .w32) (bigEndian 4 (i % 0x100000000).toNat)
  else headed (.int .w64) (bigEndian 8 (i % 0x10000000000000000).toNat)

def single (x : Single) : Script := headed .single (bigEndian 4 x.bits.toNat)

def double (x : Double) : Script := headed .double (bigEndian 8 x.bits.toNat)

/-! ## 2. Lengths -/

/-- The header that announces a length; nothing is put when the length is too great. -/
def header (f : Family) (n : Nat) : Script :=
  match f.header? n with
  | some (h, body) => headed h body
  | none => .fail (.unwritable (.tooLong f n))

def text (s : String) : Script :=
  let bs := utf8Bytes s
  header .text bs.length ++ .put bs

def bin (bs : List UInt8) : Script := header .bin bs.length ++ .put bs

/-- The header of an extension, with its tag. -/
def extHeader (tag : Int8) (n : Nat) : Script := header .ext n ++ .put [tag.toUInt8]

/-- A whole extension value. -/
def ext (tag : Int8) (payload : List UInt8) : Script :=
  extHeader tag payload.length ++ .put payload

/-- A mapping key of the given kind; arrays and maps are refused before anything is put. -/
def key (kind : Kind) (s : Script) : Script :=
  if kind.isContainer then .fail (.unwritable (.containerKey kind)) else s

end Script

end MessagePack
