import MessagePack.Datum
import MessagePack.Record.Tag
/-!
# Catalogs of records

A catalog declares the record types that types may refer to.  Each declaration lists its fields
with their visibility, tag, type and whether the field is embedded: an embedded record without a
wire name of its own lends its fields to the record around it.  A field may also declare what a
fresh record holds in it.

A catalog is grounded: a record holds directly only records declared before it, so every record can
be built.  Cycles go through options, lists and maps.  It is typed: what a fresh record holds in a
field is of the field's type.
-/

namespace MessagePack

/-- A declared field. -/
structure FieldDecl where
  name : String
  isPublic : Bool := true
  tag : Option String := none
  embed : Bool := false
  type : Ty
  /-- Whether the record gives access to the field; a record whose access is written by hand may
  fall short of its declaration. -/
  reachable : Bool := true
  /-- What a fresh record holds in the field, if not what is fresh of its type. -/
  initial? : Option Datum := none
  deriving Repr

namespace FieldDecl

/-- The parsed tag. -/
def fieldTag (f : FieldDecl) : FieldTag := (f.tag.map FieldTag.parse).getD .absent

/-- Whether the field takes part in the wire form at all. -/
def isVisible (f : FieldDecl) : Bool := f.isPublic && !f.fieldTag.ignored

/-- The record whose fields this field lends to the record around it: the field is embedded and has
no wire name of its own. -/
def promoted? (f : FieldDecl) : Option RecordId :=
  if f.embed && f.fieldTag.name.isNone then f.type.embedded? else none

/-- The name on the wire. -/
def wireName (f : FieldDecl) : String := f.fieldTag.name.getD f.name

/-- Whether the record hands out the field's own value. -/
def isDirect (f : FieldDecl) : Bool := f.isVisible && f.promoted?.isNone && f.reachable

/-- The record that can be entered through the field. -/
def entered? (f : FieldDecl) : Option RecordId :=
  if f.isVisible && f.embed && f.reachable then f.type.embedded? else none

end FieldDecl

/-- How a record type takes part in reading and writing. -/
inductive RecordForm where
  /-- By its fields; it is zero when all visible fields are. -/
  | plain
  /-- By its fields, but never zero and always of kind record. -/
  | manual
  /-- Only through a binding that claims it. -/
  | external
  deriving DecidableEq, Repr

/-- A declared record type. -/
structure RecordDecl where
  name : String
  /-- The name in messages about bindings. -/
  qualifiedName : String := name
  form : RecordForm := .plain
  fields : List FieldDecl
  deriving Repr

instance : Inhabited RecordDecl := ⟨⟨"", "", .plain, []⟩⟩

/-- Whether every record holds directly only records declared before it. -/
def grounded (records : List RecordDecl) : Bool :=
  records.zipIdx.all fun (r, i) =>
    r.fields.all fun f => f.type.heldRecords.all (· < i)

/-- The types of a record's fields. -/
def fieldTypes (records : List RecordDecl) (id : RecordId) : List Ty :=
  ((records[id]?).getD default).fields.map (·.type)

/-- Whether what a fresh record holds in a field is of the field's type. -/
def typed (records : List RecordDecl) : Bool :=
  records.all fun r => r.fields.all fun f => f.initial?.all (·.fits (fieldTypes records) f.type)

/-- The declared record types. -/
structure Catalog where
  records : List RecordDecl
  isGrounded : grounded records = true := by decide
  isTyped : typed records = true := by decide

namespace Catalog

/-- The catalog of these declarations, if they are grounded and typed. -/
def ofRecords? (records : List RecordDecl) : Option Catalog :=
  if h : grounded records = true ∧ typed records = true then some ⟨records, h.1, h.2⟩ else none

/-- The declaration of a record; a record that is not declared has no fields. -/
def decl (c : Catalog) (id : RecordId) : RecordDecl := (c.records[id]?).getD default

/-- A field by its place in the declaration. -/
def field? (c : Catalog) (id : RecordId) (index : Nat) : Option FieldDecl :=
  (c.decl id).fields[index]?

end Catalog

end MessagePack
