import MessagePack.Proofs.Decode.Single
/-!
# Reading dynamic values, header by header

The header alone decides how a dynamic value is read.  Here stands, for each kind of header, which
bytes behind it are read as which value; the values in an array or a map are read one level down.

Each statement is about one step, `Value.readStep`, with whatever reader one level down, so that the
inductions on trees and on values, which come later, need not look at the step again.  The step
looks at the header and leaves it in place for the reader of its kind, which takes it again: a proof
goes past the look, and the reader of that kind does the rest.

Main statements: `Value.takes_uint` and its siblings for values without parts, `Value.takes_array`
and `Value.takes_map`.
-/

namespace MessagePack.Value

open Read Parse

variable {registry : Registry} {deeper : Option (Read Value)} {v : Value} {h : Header}
  {body payload : List UInt8}

/-! ## 1. One level down -/

/-- The reader one level down from `n` levels. -/
def oneDown (registry : Registry) : Nat → Option (Read Value)
  | 0 => none
  | n + 1 => some (read registry n)

/-- With any number of levels left a value is read in one step, which knows what is one level
down. -/
theorem read_eq (registry : Registry) (n : Nat) :
    read registry n = readStep registry (oneDown registry n) := by
  cases n <;> rfl

/-! ## 2. Values without parts

A number is read under any kind of number and then narrowed to the widest of the kind that its
header is of.  Nothing is lost there: a header for numbers without a sign gives one of 64 bits
without a sign, and so on. -/

/-- Narrowing takes no bytes. -/
theorem takes_narrow {n : Number} {t : NumType} {kind : Kind} {x : Narrowed}
    (fits : n.narrow? t = some x) : (narrow t kind n).parse.Takes [] x := by
  unfold narrow
  rw [fits]
  exact takes_pure x

/-- A number under its header, narrowed to what the header says anyway. -/
theorem takes_narrowed {n : Number} {t : NumType} {k j : Kind} {x : Narrowed} {g : Narrowed → Value}
    (spells : h.Spells body n) (fits : n.narrow? t = some x) :
    (do let n ← Read.number k; let x ← Read.narrow t j n; return g x : Read Value).parse.Takes
      (h.toByte :: body) (g x) := by
  simp only [parse_bind, parse_pure]
  -- narrowing takes the nothing behind the number
  rw [← List.append_nil (h.toByte :: body)]
  exact (takes_number k spells).bind (takes_narrow fits).map

/-- Nil is its one byte. -/
theorem takes_nil : (readStep registry deeper).parse.Takes [Header.nil.toByte] .nil := by
  unfold readStep
  rw [parse_bind]
  refine takes_peekHeader Header.stands_nil ?_
  simp only [parse_bind]
  exact takes_header Header.stands_nil (takes_pure _)

/-- So is a truth value. -/
theorem takes_truth (b : Bool) :
    (readStep registry deeper).parse.Takes [(Header.bool b).toByte] (.bool b) := by
  unfold readStep
  rw [parse_bind]
  refine takes_peekHeader (Header.stands_bool b) ?_
  simp only [parse_bind]
  exact takes_header (Header.stands_bool b) (takes_pure _)

/-- **A number without a sign is read as one**, under any header for such numbers. -/
theorem takes_uint {u : UInt64} (spells : h.Spells body (.uint u)) :
    (readStep registry deeper).parse.Takes (h.toByte :: body) (.uint u) := by
  have narrowed := takes_narrowed (k := .dynamic) (j := .uint)
    (g := fun x => .uint (UInt64.ofNat x.asInt.toNat)) spells (Number.narrow?_uint u)
  -- the widest type without a sign takes every such number as it is
  have back : UInt64.ofNat (Narrowed.whole u.toNat).asInt.toNat = u := UInt64.ofNat_toNat
  rw [back] at narrowed
  unfold readStep
  rw [parse_bind]
  refine takes_peekHeader spells.stands ?_
  cases spells with
  | posFix => exact narrowed
  | uint => exact narrowed

/-- **A number with a sign is read as one**, under any header for such numbers. -/
theorem takes_int {i : Int64} (spells : h.Spells body (.int i)) :
    (readStep registry deeper).parse.Takes (h.toByte :: body) (.int i) := by
  have narrowed := takes_narrowed (k := .dynamic) (j := .int)
    (g := fun x => .int (Int64.ofInt x.asInt)) spells (Number.narrow?_int i)
  have back : Int64.ofInt (Narrowed.whole i.toInt).asInt = i := Int64.ofInt_toInt i
  rw [back] at narrowed
  unfold readStep
  rw [parse_bind]
  refine takes_peekHeader spells.stands ?_
  cases spells with
  | negFix => exact narrowed
  | int => exact narrowed

/-- A float of 32 bits goes through one of 64, which quiets a signalling one that is no number. -/
theorem takes_single {x : Single} (spells : Header.single.Spells body (.float x.widen)) :
    (readStep registry deeper).parse.Takes (Header.single.toByte :: body)
      (.single x.widen.narrow) := by
  have narrowed := takes_narrowed (t := .single) (k := .dynamic) (j := .float)
    (g := fun x => .single x.asSingle) spells rfl
  unfold readStep
  rw [parse_bind]
  exact takes_peekHeader spells.stands narrowed

/-- A float of 64 bits is kept as it is. -/
theorem takes_double {x : Double} (spells : Header.double.Spells body (.float x)) :
    (readStep registry deeper).parse.Takes (Header.double.toByte :: body) (.double x) := by
  have narrowed := takes_narrowed (t := .double) (k := .dynamic) (j := .float)
    (g := fun x => .double x.asDouble) spells rfl
  unfold readStep
  rw [parse_bind]
  exact takes_peekHeader spells.stands narrowed

/-- A payload that is valid text is read as that text, whatever header announces it. -/
theorem takes_string {s : String} (stands : h.Stands) (text : h.isText = true)
    (holds : h.Holds body payload) (valid : textOfUtf8? payload = some s) :
    (readStep registry deeper).parse.Takes (h.toByte :: body) (.text s) := by
  have read := (takes_text stands holds valid).map (g := Value.text)
  unfold readStep
  rw [parse_bind]
  refine takes_peekHeader stands ?_
  cases h with
  | fixText n => simpa only [parse_bind, parse_pure] using read
  | text w => simpa only [parse_bind, parse_pure] using read
  | _ => cases text

/-- A payload of bytes is read as it is, whatever header announces it. -/
theorem takes_bin (stands : h.Stands) (bin : h.isBin = true) (holds : h.Holds body payload) :
    (readStep registry deeper).parse.Takes (h.toByte :: body) (.bin payload) := by
  have read := (takes_raw .bin stands holds).map (g := fun p => Value.bin (p.getD []))
  unfold readStep
  rw [parse_bind]
  refine takes_peekHeader stands ?_
  cases h with
  | bin w => simpa only [parse_bind, parse_pure, Option.getD_some] using read
  | _ => cases bin

/-- **An extension is read as what its tag's binding makes of the payload**, or as the raw extension
if none gives dynamic values. -/
theorem takes_extension {tag : Int8} (stands : h.Stands) (holds : h.HoldsExt body tag payload)
    (rich : ofExt registry tag payload = .ok v) :
    (readStep registry deeper).parse.Takes (h.toByte :: body) v := by
  -- the binding sees the payload only after all of it was taken
  have finished : (Read.ofExcept (ofExt registry tag payload)).parse.Takes [] v := by
    rw [rich]
    exact takes_pure v
  have body' := (takes_extBody .dynamic holds h.toByte).bind
    (f := fun e : Int8 × List UInt8 => (Read.ofExcept (ofExt registry e.1 e.2)).parse) finished
  rw [List.append_nil] at body'
  unfold readStep
  rw [parse_bind]
  refine takes_peekHeader stands ?_
  -- the two forms of header are two branches of the step, and read alike
  cases holds with
  | fixExt =>
    simp only [parse_bind, forTag?_ofExt]
    exact takes_header stands body'
  | ext =>
    simp only [parse_bind, forTag?_ofExt]
    exact takes_header stands body'

/-! ## 3. Arrays and maps

The header announces how many values there are, and these are read one level down.  What they are
read as is a matter of the reader down there, which is given. -/

variable {r : Read Value} {inside : List UInt8}

/-- **An array is read as its items**, in order. -/
theorem takes_array {items : List Value} {n : Nat} (stands : h.Stands) (array : h.isArray = true)
    (own : h.Owes body n) (inner : (repeated r n []).parse.Takes inside items) :
    (readStep registry (some r)).parse.Takes (h.toByte :: (body ++ inside)) (.array items) := by
  have length := takes_arrayLength .dynamic stands array own
  -- behind the length the items are read one level down, and the level is given back
  have whole := length.bind (f := fun n : Option Nat =>
    (do let items ← descend (some r) fun r => repeated r (n.getD 0) []; return .array items
      : Read Value).parse) (v := inside) (b := .array items) (by
    simp only [parse_bind, parse_pure, descend, parse_nested]
    exact inner.nested.map)
  rw [← parse_bind] at whole
  unfold readStep
  rw [parse_bind]
  refine takes_peekHeader stands ?_
  cases h with
  | fixArray => exact whole
  | array => exact whole
  | _ => cases array

/-- **A map is read as its entries**, in order and none left out, whatever their keys. -/
theorem takes_map {entries : List (Value × Value)} {n : Nat} (stands : h.Stands)
    (map : h.isMap = true) (own : h.Owes body (2 * n))
    (inner : (repeated (readEntry r) n []).parse.Takes inside entries) :
    (readStep registry (some r)).parse.Takes (h.toByte :: (body ++ inside)) (.map entries) := by
  have length := takes_mapLength .dynamic stands map own
  have whole := length.bind (f := fun n : Option Nat =>
    (do let entries ← descend (some r) fun r => repeated (readEntry r) (n.getD 0) []
        return .map entries : Read Value).parse) (v := inside) (b := .map entries) (by
    simp only [parse_bind, parse_pure, descend, parse_nested]
    exact inner.nested.map)
  rw [← parse_bind] at whole
  unfold readStep
  rw [parse_bind]
  refine takes_peekHeader stands ?_
  cases h with
  | fixMap => exact whole
  | map => exact whole
  | _ => cases map

/-- An entry is a key and a value, if the key is no array and no map. -/
theorem takes_entry {k x : Value} {u w : List UInt8} (flat : Flat u) (key : r.parse.Takes u k)
    (value : r.parse.Takes w x) : (readEntry r).parse.Takes (u ++ w) (k, x) := by
  unfold readEntry
  rw [parse_bind]
  -- the look at the key's header leaves it in place
  refine takes_checkKey flat ?_
  simp only [parse_bind, parse_pure]
  exact key.bind (value.map (g := fun x => (k, x)))

end MessagePack.Value
