import MessagePack.Fault
import MessagePack.Text.Utf8
import MessagePack.Trace
/-!
# The cursor and single reads

A cursor holds the unread input, how many bytes were read before it and the trace of the run so far.
A `Read` gives a result or a fault, and in either case the cursor where it stopped: what a failing
read has consumed stays consumed.

The reads below take apart one wire value each, without going into arrays and maps.

Main statement: every read advances the cursor over some of the unread bytes and does nothing else
to it (`Read.Advances` and its lemmas).
-/

namespace MessagePack

/-- The unread input, with what a run has seen so far. -/
structure Cursor where
  position : Nat
  rest : List UInt8
  trace : Trace
  deriving DecidableEq, Repr

namespace Cursor

/-- The cursor at the start of an input. -/
def start (input : List UInt8) : Cursor := ⟨0, input, {}⟩

/-- The cursor `k` bytes further on. -/
def advance (c : Cursor) (k : Nat) : Cursor :=
  { c with position := c.position + k, rest := c.rest.drop k }

/-- The cursor with something done to its trace. -/
def retrace (c : Cursor) (f : Trace → Trace) : Cursor := { c with trace := f c.trace }

/-- The cursor with one more layout looked up. -/
def consult (c : Cursor) (id : RecordId) : Cursor := c.retrace (.consult id)

/-- The cursor with further overflows. -/
def overflow (c : Cursor) (os : List Overflow) : Cursor := c.retrace (.overflow os)

@[simp] theorem advance_zero (c : Cursor) : c.advance 0 = c := by simp [advance]

@[simp] theorem advance_advance (c : Cursor) (j k : Nat) :
    (c.advance j).advance k = c.advance (j + k) := by
  simp [advance, List.drop_drop, Nat.add_assoc]

end Cursor

/-! ## 1. Reads -/

/-- A step of reading. -/
def Read (α : Type) : Type := Cursor → Except Fault α × Cursor

namespace Read

variable {α β : Type}

def pure (a : α) : Read α := fun c => (.ok a, c)

def fail (f : Fault) : Read α := fun c => (.error f, c)

/-- One read after another; the second only if the first succeeds. -/
def bind (r : Read α) (next : α → Read β) : Read β := fun c =>
  match r c with
  | (.ok a, c) => next a c
  | (.error f, c) => (.error f, c)

instance : Monad Read where
  pure := Read.pure
  bind := Read.bind

/-- The read one level further down; behind it the cursor is back up. -/
def nested (r : Read α) : Read α := fun c =>
  match r (c.retrace .down) with
  | (outcome, c) => (outcome, c.retrace .up)

/-- The result of a computation that reads nothing. -/
def ofExcept : Except Fault α → Read α
  | .ok a => Read.pure a
  | .error f => Read.fail f

/-- The next byte, left in place. -/
def peekByte : Read UInt8 := fun c =>
  match c.rest with
  | b :: _ => (.ok b, c)
  | [] => (.error (.truncated 1 0), c)

/-- The next byte. -/
def takeByte : Read UInt8 := fun c =>
  match c.rest with
  | b :: _ => (.ok b, c.advance 1)
  | [] => (.error (.truncated 1 0), c)

/-- Exactly `n` bytes; nothing is consumed if fewer remain. -/
def takeMany (n : Nat) : Read (List UInt8) := fun c =>
  let body := c.rest.take n
  if body.length = n then (.ok body, c.advance n)
  else (.error (.truncated n body.length), c)

/-- A big-endian number from zero up. -/
def takeUnsigned (w : Width) : Read Nat := do
  let body ← takeMany w.bytes
  return ofBigEndian body

/-- A big-endian number in two's complement. -/
def takeSigned (w : Width) : Read Int := do
  let n ← takeUnsigned w
  return (n : Int).bmod w.span

/-- The next header with its byte, left in place. -/
def peekHeader : Read (UInt8 × Header) := do
  let b ← peekByte
  return (b, Header.ofByte b)

/-- The next header with its byte. -/
def takeHeader : Read (UInt8 × Header) := do
  let b ← takeByte
  return (b, Header.ofByte b)

/-- Consumes a nil if one is next. -/
def tryNil : Read Bool := do
  let b ← peekByte
  if b = Header.nil.toByte then
    let _ ← takeByte
    return true
  else return false

/-! ## 2. Scalars -/

/-- A truth value; nil is false. -/
def bool : Read Bool := do
  let (b, h) ← takeHeader
  match h with
  | .bool v => return v
  | .nil => return false
  | _ => fail (.format b .bool)

/-- A number under any number header; nil is zero. -/
def number (kind : Kind) : Read Number := do
  let (b, h) ← takeHeader
  match h with
  | .posFix v => return .uint (UInt64.ofNat v)
  | .negFix k => return .int (Int64.ofInt (Header.negValue k))
  | .uint w =>
    let n ← takeUnsigned w
    return .uint (UInt64.ofNat n)
  | .int w =>
    let i ← takeSigned w
    return .int (Int64.ofInt i)
  | .single =>
    let n ← takeUnsigned .w32
    return .float (Single.mk (UInt32.ofNat n)).widen
  | .double =>
    let n ← takeUnsigned .w64
    return .float ⟨UInt64.ofNat n⟩
  | .nil => return .uint 0
  | _ => fail (.format b kind)

/-- A number in a number type, or the fault that it does not fit. -/
def narrow (t : NumType) (kind : Kind) (n : Number) : Read Narrowed :=
  match n.narrow? t with
  | some x => return x
  | none => fail (.outOfRange (.number n) kind)

/-- The payload of a text or of bytes; nothing for nil. -/
def raw (kind : Kind) : Read (Option (List UInt8)) := do
  let (b, h) ← takeHeader
  match h with
  | .nil => return none
  | .fixText n =>
    let body ← takeMany n
    return some body
  | .text w | .bin w =>
    let n ← takeUnsigned w
    let body ← takeMany n
    return some body
  | _ => fail (.format b kind)

/-- A text; nil is the empty one.  The fault names the place of the header. -/
def text : Read String := fun c =>
  match raw .text c with
  | (.ok none, c') => (.ok "", c')
  | (.ok (some bytes), c') =>
    match textOfUtf8? bytes with
    | some s => (.ok s, c')
    | none => (.error (.invalidUtf8 c.position), c')
  | (.error f, c') => (.error f, c')

/-! ## 3. Lengths and extensions -/

/-- The length of an array; nothing for nil. -/
def arrayLength (kind : Kind) : Read (Option Nat) := do
  let (b, h) ← takeHeader
  match h with
  | .nil => return none
  | .fixArray n => return some n.val
  | .array w =>
    let n ← takeUnsigned w
    return some n
  | _ => fail (.format b kind)

/-- The number of a map's entries; nothing for nil. -/
def mapLength (kind : Kind) : Read (Option Nat) := do
  let (b, h) ← takeHeader
  match h with
  | .nil => return none
  | .fixMap n => return some n.val
  | .map w =>
    let n ← takeUnsigned w
    return some n
  | _ => fail (.format b kind)

/-- Refuses an array or a map that is about to be read as a key; consumes nothing. -/
def checkKey : Read Unit := do
  let (b, h) ← peekHeader
  if h.isContainer then fail (.structuralKey b) else return ()

/-- The tag and payload behind a header that was just read. -/
def extBody (kind : Kind) (b : UInt8) (h : Header) : Read (Int8 × List UInt8) := do
  let n ←
    match h with
    | .fixExt p => Read.pure (Header.extLength p)
    | .ext w => takeUnsigned w
    | _ => fail (.format b kind)
  let tag ← takeByte
  let payload ← takeMany n
  return (tag.toInt8, payload)

/-- An extension's tag and payload; nothing for nil. -/
def ext (kind : Kind) : Read (Option (Int8 × List UInt8)) := do
  let (b, h) ← takeHeader
  match h with
  | .nil => return none
  | _ =>
    let e ← extBody kind b h
    return some e

/-! ## 4. Reads only move forward -/

/-- A read that moves the cursor over unread bytes and does nothing else to it. -/
def Advances (r : Read α) : Prop := ∀ c, ∃ k, k ≤ c.rest.length ∧ (r c).2 = c.advance k

theorem advances_pure (a : α) : Advances (pure a : Read α) :=
  fun c => ⟨0, by simp, (Cursor.advance_zero c).symm⟩

theorem advances_return (a : α) : Advances (Pure.pure a : Read α) := advances_pure a

theorem advances_fail (f : Fault) : Advances (fail f : Read α) :=
  fun c => ⟨0, by simp, (Cursor.advance_zero c).symm⟩

theorem run_bind (r : Read α) (next : α → Read β) (c : Cursor) :
    (r >>= next) c =
      match r c with
      | (.ok a, c) => next a c
      | (.error f, c) => (.error f, c) := rfl

theorem Advances.bind {r : Read α} {next : α → Read β} (hr : Advances r)
    (hn : ∀ a, Advances (next a)) : Advances (r >>= next) := by
  intro c
  obtain ⟨j, hj, ej⟩ := hr c
  rw [run_bind]
  split
  · rename_i a c' e
    rw [e] at ej
    simp only at ej
    subst ej
    obtain ⟨k, hk, ek⟩ := hn a (c.advance j)
    refine ⟨j + k, ?_, by rw [ek, Cursor.advance_advance]⟩
    simp only [Cursor.advance, List.length_drop] at hk
    omega
  · rename_i f c' e
    rw [e] at ej
    exact ⟨j, hj, ej⟩

theorem advances_takeMany (n : Nat) : Advances (takeMany n) := by
  intro c
  by_cases h : (c.rest.take n).length = n
  · refine ⟨n, by rw [List.length_take] at h; omega, ?_⟩
    simp only [takeMany, if_pos h]
  · exact ⟨0, by simp, by simp only [takeMany, if_neg h, Cursor.advance_zero]⟩

theorem advances_takeUnsigned (w : Width) : Advances (takeUnsigned w) :=
  (advances_takeMany _).bind fun _ => advances_return _

end Read

end MessagePack
