import MessagePack.Record.Catalog
/-!
# Zeros and kinds of data

`Catalog.isZero` tells which data a field may leave out, and `Ty.kind` which kind of value a datum
is written as; `Ty.destinationKind` is the kind that faults of reading name.
-/

namespace MessagePack

namespace NumType

/-- Whether a number is zero; a float's zeros have either sign. -/
def isZero : NumType → Datum → Bool
  | .single, d => d.asSingle.classify.isZero
  | .double, d => d.asDouble.classify.isZero
  | _, d => d.asInt == 0

end NumType

namespace Catalog

/-- Whether a datum is its type's zero.  A tuple never is, nor a fixed array unless it has no
elements, nor a record that does not go by its fields. -/
def isZero (c : Catalog) : Ty → Datum → Bool
  | .bool, d => !d.asBool
  | .number t, d => t.isZero d
  | .text, d => d.asText == ""
  | .bytes, d => d.asBytes.isEmpty
  | .dynamic, d => d.asValue.isNil
  | .timestamp, d => d.asTimestamp == .epoch
  | .clockTime, d => d.asClockTime == .epoch
  | .list _, d => d.items.isEmpty
  | .array n _, _ => n == 0
  | .tuple _, _ => false
  | .option _, d => d.held?.isNone
  | .box t, d => c.isZero t d
  | .map _ _ _, d => d.entries.isEmpty
  | .record id, d =>
    match (c.decl id).form with
    | .plain =>
      ((c.decl id).fields.zip d.fields).attach.all fun ⟨(f, x), _h⟩ =>
        !f.isVisible || c.isZero f.type x
    | _ => false
termination_by t d => (sizeOf d, sizeOf t)
decreasing_by
  · exact Prod.Lex.right _ (by simp only [Ty.box.sizeOf_spec]; omega)
  · exact Prod.Lex.left _ _ (Datum.sizeOf_fields (List.of_mem_zip _h).2)

end Catalog

namespace Ty

/-- The kind a datum is written as, bindings aside. -/
def kind (c : Catalog) : Ty → Datum → Kind
  | .bool, _ => .bool
  | .number t, _ => t.kind
  | .text, _ => .text
  | .bytes, _ => .bin
  | .dynamic, d => d.asValue.kind
  | .timestamp, _ => .ext
  | .clockTime, _ => .ext
  | .list t, _ => t.sequenceKind
  | .array _ t, _ => t.sequenceKind
  | .tuple _, _ => .array
  | .option t, d =>
    match d.held? with
    | some x => t.kind c x
    | none => .nil
  | .box t, d => t.kind c d
  | .map _ _ _, _ => .map
  | .record id, _ =>
    match (c.decl id).form with
    | .external => .ext
    | _ => .record

/-- The kind of a destination, for faults and for whoever asks. -/
def destinationKind (c : Catalog) : Ty → Datum → Kind
  | .dynamic, _ => .dynamic
  | .list _, _ => .array
  | .array _ _, _ => .array
  | .option t, d =>
    match d.held? with
    | some x => t.destinationKind c x
    | none => .nil
  | .box t, d => t.destinationKind c d
  | t, d => t.kind c d

end Ty

end MessagePack
