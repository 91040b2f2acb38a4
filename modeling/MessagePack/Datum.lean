import MessagePack.Time.Clock
import MessagePack.Ty
import MessagePack.Value
/-!
# Data

A datum is what a destination holds.  It does not carry its type: reading and writing are led by a
type, and a datum of another form than the type asks for counts as that type's zero.  The
projections (`asInt`, `items`, `held?` and so on) say so for each form.

`Datum.order` is the order of mapping keys.  `Datum.fits` tells whether a datum is one of a type's;
what a declaration says that a fresh record holds is checked by it.  Data are the same when they are
built alike from the same parts, which can be decided.
-/

namespace MessagePack

/-- What a destination holds. -/
inductive Datum where
  | bool (b : Bool)
  | int (i : Int)
  | single (x : Single)
  | double (x : Double)
  | text (s : String)
  | bytes (b : List UInt8)
  | dynamic (v : Value)
  | timestamp (t : Timestamp)
  | clockTime (t : ClockTime)
  /-- The elements of a list, an array or a tuple. -/
  | seq (items : List Datum)
  /-- An option that holds nothing. -/
  | absent
  /-- An option that holds a datum. -/
  | present (d : Datum)
  | map (entries : List (Datum × Datum))
  /-- All declared fields, in the order of their declaration. -/
  | record (fields : List Datum)
  deriving Repr

namespace Datum

/-! ## 1. Projections -/

def asBool : Datum → Bool
  | .bool b => b
  | _ => false

def asInt : Datum → Int
  | .int i => i
  | _ => 0

def asSingle : Datum → Single
  | .single x => x
  | _ => default

def asDouble : Datum → Double
  | .double x => x
  | _ => default

def asText : Datum → String
  | .text s => s
  | _ => ""

def asBytes : Datum → List UInt8
  | .bytes b => b
  | _ => []

def asValue : Datum → Value
  | .dynamic v => v
  | _ => .nil

def asTimestamp : Datum → Timestamp
  | .timestamp t => t
  | _ => .epoch

def asClockTime : Datum → ClockTime
  | .clockTime t => t
  | _ => .epoch

/-- The elements of a list, an array or a tuple. -/
def items : Datum → List Datum
  | .seq ds => ds
  | _ => []

/-- What an option holds. -/
def held? : Datum → Option Datum
  | .present d => some d
  | _ => none

/-- The entries of a map. -/
def entries : Datum → List (Datum × Datum)
  | .map es => es
  | _ => []

/-- The fields of a record. -/
def fields : Datum → List Datum
  | .record ds => ds
  | _ => []

/-- A record with one field replaced. -/
def setField (d : Datum) (index : Nat) (v : Datum) : Datum := .record (d.fields.set index v)

/-- The datum of a narrowed number. -/
def ofNarrowed : Narrowed → Datum
  | .whole i => .int i
  | .single x => .single x
  | .double x => .double x

theorem sizeOf_items {d x : Datum} (h : x ∈ d.items) : sizeOf x < sizeOf d := by
  cases d <;> simp_all [items]
  have := List.sizeOf_lt_of_mem h
  omega

theorem sizeOf_held {d x : Datum} (h : d.held? = some x) : sizeOf x < sizeOf d := by
  cases d <;> simp_all [held?]

theorem sizeOf_entries {d : Datum} {e : Datum × Datum} (h : e ∈ d.entries) :
    sizeOf e.1 < sizeOf d ∧ sizeOf e.2 < sizeOf d := by
  cases d <;> simp_all [entries]
  have := List.sizeOf_lt_of_mem h
  obtain ⟨k, v⟩ := e
  simp only [Prod.mk.sizeOf_spec] at this
  refine ⟨?_, ?_⟩
  · show sizeOf k < _
    omega
  · show sizeOf v < _
    omega

theorem sizeOf_fields {d x : Datum} (h : x ∈ d.fields) : sizeOf x < sizeOf d := by
  cases d <;> simp_all [fields]
  have := List.sizeOf_lt_of_mem h
  omega

/-! ## 2. The order of mapping keys -/

/-- The order of bytes, the first difference deciding. -/
def orderBytes : List UInt8 → List UInt8 → Ordering
  | [], [] => .eq
  | [], _ :: _ => .lt
  | _ :: _, [] => .gt
  | a :: as, b :: bs => (compare a.toNat b.toNat).then (orderBytes as bs)

mutual

/-- The order of keys of one type: numbers by size, texts and bytes by their first difference,
nothing before something, times from early to late, sequences and records by their first
difference. -/
def order : Datum → Datum → Ordering
  | .bool a, .bool b => compare a.toNat b.toNat
  | .int a, .int b => compare a b
  | .text a, .text b => compare a b
  | .bytes a, .bytes b => orderBytes a b
  | .timestamp a, .timestamp b => a.order b
  | .clockTime a, .clockTime b => compare a.toNanos b.toNanos
  | .absent, .absent => .eq
  | .absent, .present _ => .lt
  | .present _, .absent => .gt
  | .present a, .present b => order a b
  | .seq as, .seq bs => orderEach as bs
  | .record as, .record bs => orderEach as bs
  | .map as, .map bs => orderEntries as bs
  | _, _ => .eq

/-- The order of sequences, a shorter one before its continuations. -/
def orderEach : List Datum → List Datum → Ordering
  | [], [] => .eq
  | [], _ :: _ => .lt
  | _ :: _, [] => .gt
  | a :: as, b :: bs => (order a b).then (orderEach as bs)

/-- The order of maps, entry by entry. -/
def orderEntries : List (Datum × Datum) → List (Datum × Datum) → Ordering
  | [], [] => .eq
  | [], _ :: _ => .lt
  | _ :: _, [] => .gt
  | (k, v) :: as, (l, w) :: bs => ((order k l).then (order v w)).then (orderEntries as bs)

end

/-! ## 3. Entries of maps -/

/-- Binds a key in entries that stand in the order of their keys. -/
def insertSorted (k v : Datum) : List (Datum × Datum) → List (Datum × Datum)
  | [] => [(k, v)]
  | (l, w) :: es =>
    match order k l with
    | .lt => (k, v) :: (l, w) :: es
    | .eq => (l, v) :: es
    | .gt => (l, w) :: insertSorted k v es

/-- Binds a key where it stands, or after all others. -/
def insertArrival (k v : Datum) : List (Datum × Datum) → List (Datum × Datum)
  | [] => [(k, v)]
  | (l, w) :: es => if order k l = .eq then (l, v) :: es else (l, w) :: insertArrival k v es

end Datum

/-- Binds a key in a map's entries. -/
def MapOrder.insert : MapOrder → Datum → Datum → List (Datum × Datum) → List (Datum × Datum)
  | .sorted => Datum.insertSorted
  | .arrival => Datum.insertArrival

/-! ## 4. Data of a type -/

/-- The type without the pointers around it. -/
def Ty.bare : Ty → Ty
  | .box t => t.bare
  | t => t

namespace Datum

variable (fields : RecordId → List Ty)

mutual

/-- Whether a datum is one of a type's, the type being no pointer and records having fields of these
types. -/
def fitsBare : Datum → Ty → Bool
  | .bool _, .bool => true
  | .int i, .number n => n.holds i
  | .single _, .number .single => true
  | .double _, .number .double => true
  | .text _, .text => true
  | .bytes _, .bytes => true
  | .dynamic _, .dynamic => true
  | .timestamp _, .timestamp => true
  | .clockTime _, .clockTime => true
  | .seq ds, .list t => fitsEach ds (List.replicate ds.length t)
  | .seq ds, .array n t => fitsEach ds (List.replicate n t)
  | .seq ds, .tuple ts => fitsEach ds ts
  | .absent, .option _ => true
  | .present d, .option t => fitsBare d t.bare
  | .map es, .map _ kt vt => fitsEntries es kt vt
  | .record ds, .record id => fitsEach ds (fields id)
  | _, _ => false

/-- Whether data are of these types, one after another and none left over. -/
def fitsEach : List Datum → List Ty → Bool
  | [], [] => true
  | d :: ds, t :: ts => fitsBare d t.bare && fitsEach ds ts
  | _, _ => false

/-- Whether entries have keys and values of these types. -/
def fitsEntries : List (Datum × Datum) → Ty → Ty → Bool
  | [], _, _ => true
  | (k, v) :: es, kt, vt => fitsBare k kt.bare && fitsBare v vt.bare && fitsEntries es kt vt

end

/-- Whether a datum is one of a type's, records having fields of these types. -/
def fits (d : Datum) (t : Ty) : Bool := d.fitsBare fields t.bare

/-! ## 5. Identity -/

mutual

/-- Whether two data are the same, floats by their bits. -/
def decEq (a b : Datum) : Decidable (a = b) :=
  if alike : a.ctorIdx = b.ctorIdx then
    match a, b, alike with
    | .bool x, .bool y, _ => decidable_of_iff (x = y) (by simp)
    | .int x, .int y, _ => decidable_of_iff (x = y) (by simp)
    | .single x, .single y, _ => decidable_of_iff (x = y) (by simp)
    | .double x, .double y, _ => decidable_of_iff (x = y) (by simp)
    | .text x, .text y, _ => decidable_of_iff (x = y) (by simp)
    | .bytes x, .bytes y, _ => decidable_of_iff (x = y) (by simp)
    | .dynamic x, .dynamic y, _ => decidable_of_iff (x = y) (by simp)
    | .timestamp x, .timestamp y, _ => decidable_of_iff (x = y) (by simp)
    | .clockTime x, .clockTime y, _ => decidable_of_iff (x = y) (by simp)
    | .seq xs, .seq ys, _ =>
      have := decEqItems xs ys
      decidable_of_iff (xs = ys) (by simp)
    | .absent, .absent, _ => .isTrue rfl
    | .present x, .present y, _ =>
      have := decEq x y
      decidable_of_iff (x = y) (by simp)
    | .map xs, .map ys, _ =>
      have := decEqEntries xs ys
      decidable_of_iff (xs = ys) (by simp)
    | .record xs, .record ys, _ =>
      have := decEqItems xs ys
      decidable_of_iff (xs = ys) (by simp)
  else .isFalse fun same => alike (congrArg Datum.ctorIdx same)

/-- Whether two lists hold the same data. -/
def decEqItems : (as bs : List Datum) → Decidable (as = bs)
  | [], [] => .isTrue rfl
  | [], _ :: _ | _ :: _, [] => .isFalse nofun
  | a :: as, b :: bs =>
    have := decEq a b
    have := decEqItems as bs
    decidable_of_iff (a = b ∧ as = bs) (by simp)

/-- Whether two maps have the same entries in the same order. -/
def decEqEntries : (as bs : List (Datum × Datum)) → Decidable (as = bs)
  | [], [] => .isTrue rfl
  | [], _ :: _ | _ :: _, [] => .isFalse nofun
  | (k, v) :: as, (l, w) :: bs =>
    have := decEq k l
    have := decEq v w
    have := decEqEntries as bs
    decidable_of_iff ((k = l ∧ v = w) ∧ as = bs) (by simp)

end

instance : DecidableEq Datum := decEq

end Datum

end MessagePack
