import MessagePack.Record.Catalog
/-!
# What is fresh

A fresh destination of a type holds zeros: no bits set, nothing inside, the epoch.  Where it is a
record, or holds records directly, the declarations have a say: a field may declare what a fresh
record holds in it.

Reading starts from what is fresh wherever there is nothing to read into: an element of a list, an
entry of a map, what an option is to hold, an embedded record that is absent.
-/

namespace MessagePack

/-- What is fresh of a number type. -/
def NumType.initial : NumType → Datum
  | .single => .single default
  | .double => .double default
  | _ => .int 0

mutual

/-- What is fresh of a type, given that of records. -/
def Ty.initialWith (records : RecordId → Datum) : Ty → Datum
  | .bool => .bool false
  | .number t => t.initial
  | .text => .text ""
  | .bytes => .bytes []
  | .dynamic => .dynamic .nil
  | .timestamp => .timestamp .epoch
  | .clockTime => .clockTime .epoch
  | .list _ => .seq []
  | .array n t => .seq (List.replicate n (t.initialWith records))
  | .tuple ts => .seq (Ty.initialEach records ts)
  | .option _ => .absent
  | .box t => t.initialWith records
  | .map _ _ _ => .map []
  | .record id => records id

/-- What is fresh of several types. -/
def Ty.initialEach (records : RecordId → Datum) : List Ty → List Datum
  | [] => []
  | t :: ts => t.initialWith records :: Ty.initialEach records ts

end

/-- What a fresh record holds in a field, given what is fresh of records. -/
def FieldDecl.initialWith (f : FieldDecl) (records : RecordId → Datum) : Datum :=
  f.initial?.getD (f.type.initialWith records)

namespace Catalog

/-- The fresh records, where records hold records directly at most `depth` deep. -/
def initials (c : Catalog) : Nat → RecordId → Datum
  | 0, _ => .record []
  | depth + 1, id => .record ((c.decl id).fields.map fun f => f.initialWith (c.initials depth))

/-- What a fresh destination of a type holds.  No chain of directly held records is longer than the
catalog. -/
def initial (c : Catalog) (t : Ty) : Datum := t.initialWith (c.initials c.records.length)

/-- What a fresh record holds in a field. -/
def initialOf (c : Catalog) (f : FieldDecl) : Datum := f.initialWith (c.initials c.records.length)

end Catalog

end MessagePack
