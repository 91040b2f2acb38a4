import MessagePack.Encode.Value
import MessagePack.Record.Access
import MessagePack.Record.Zero
/-!
# Writing data

A type leads the writing of a datum.  A record that a binding claims goes through it; any other
record is an array of all its slots or a map of those that are present, as the mode says.  Nil
stands for a positional slot whose embedded record is absent.  When no slot can be left out the map
needs no counting.
-/

namespace MessagePack

namespace Context

/-- The kind a datum is written as when it is a mapping key: a record that a binding claims is an
extension. -/
def wireKind (cx : Context) : Ty → Datum → Kind
  | .option t, d =>
    match d.held? with
    | some x => cx.wireKind t x
    | none => .nil
  | .box t, d => cx.wireKind t d
  | .record id, d =>
    match (cx.catalog.decl id).form with
    | .plain => if cx.hasBinding (.record id) then .ext else .record
    | _ => Ty.kind cx.catalog (.record id) d
  | t, d => t.kind cx.catalog d

/-- The field of a slot, unless it is absent or a zero that the slot leaves out. -/
def present? (cx : Context) (id : RecordId) (d : Datum) (s : Slot) : Option (Ty × Datum) :=
  (cx.catalog.lookup id s.path d).filter fun (t, x) => !(s.omitEmpty && cx.catalog.isZero t x)

theorem sizeOf_present {cx : Context} {id : RecordId} {d : Datum} {s : Slot}
    {found : Ty × Datum} (h : cx.present? id d s = some found) : sizeOf found.2 < sizeOf d :=
  Catalog.sizeOf_lookup (Option.filter_eq_some_iff.1 h).1

end Context

namespace Script

def number : NumType → Datum → Script
  | .uint _, d => .uint d.asInt.toNat
  | .int _, d => .int d.asInt
  | .single, d => .single d.asSingle
  | .double, d => .double d.asDouble

/-- A sequence of elements: bytes stand together, and elements that all take the same number of
bytes are counted without being written. -/
def sequence (elem : Ty) (items : List Datum) (scripts : List Script) : Script :=
  match elem with
  | .number (.uint .w8) => .bin (items.map fun d => UInt8.ofNat d.asInt.toNat)
  | .bool => .header .array items.length ++ .uniform (.bools (items.map Datum.asBool))
  | .number .single => .header .array items.length ++ .uniform (.singles (items.map Datum.asSingle))
  | .number .double => .header .array items.length ++ .uniform (.doubles (items.map Datum.asDouble))
  | _ => .header .array items.length ++ .all scripts

end Script

/-- The script of a datum. -/
def Datum.script (cx : Context) : Ty → Datum → Script
  | .bool, d => .bool d.asBool
  | .number t, d => .number t d
  | .text, d => .text d.asText
  | .bytes, d => .bin d.asBytes
  | .dynamic, d => d.asValue.script cx
  | .timestamp, d => cx.encodeExtension .timestamp d
  | .clockTime, d =>
    let found := d.asClockTime.convert
    .overflow found.overflows ++ cx.encodeExtension .timestamp (.timestamp found.value)
  | .list t, d => .sequence t d.items (d.items.attach.map fun ⟨x, _h⟩ => script cx t x)
  | .array _ t, d => .sequence t d.items (d.items.attach.map fun ⟨x, _h⟩ => script cx t x)
  | .tuple ts, d =>
    .header .array ts.length ++
      .all ((ts.zip d.items).attach.map fun ⟨(t, x), _h⟩ => script cx t x)
  | .option t, d =>
    match _h : d.held? with
    | some x => script cx t x
    | none => .nil
  | .box t, d => script cx t d
  | .map _ kt vt, d =>
    .header .map d.entries.length ++
      .all (d.entries.attach.map fun ⟨(k, v), _h⟩ =>
        Script.key (cx.wireKind kt k) (script cx kt k) ++ script cx vt v)
  | .record id, d =>
    if cx.hasBinding (.record id) || (cx.catalog.decl id).form == .external then
      cx.encodeExtension (.record id) d
    else
      let layout := cx.layout id
      .consult id ++
        match cx.mode with
        | .positional =>
          .header .array layout.slots.length ++
            .all (layout.slots.map fun s =>
              match _h : cx.catalog.lookup id s.path d with
              | some (t, x) => script cx t x
              | none => .nil)
        | .named =>
          if layout.neverOmits then
            .header .map layout.slots.length ++
              .all (layout.slots.map fun s =>
                match _h : cx.catalog.lookup id s.path d with
                | some (t, x) => .text s.name ++ script cx t x
                | none => .fail (.misfit (.hiddenField s.name)))
          else
            .header .map (layout.slots.countP fun s => (cx.present? id d s).isSome) ++
              .all (layout.slots.map fun s =>
                match _h : cx.present? id d s with
                | some (t, x) => .text s.name ++ script cx t x
                | none => .done)
termination_by t d => (sizeOf d, sizeOf t)
decreasing_by
  · exact Prod.Lex.left _ _ (Datum.sizeOf_items _h)
  · exact Prod.Lex.left _ _ (Datum.sizeOf_items _h)
  · exact Prod.Lex.left _ _ (Datum.sizeOf_items (List.of_mem_zip _h).2)
  · exact Prod.Lex.left _ _ (Datum.sizeOf_held _h)
  · exact Prod.Lex.right _ (by simp only [Ty.box.sizeOf_spec]; omega)
  · exact Prod.Lex.left _ _ (Datum.sizeOf_entries _h).1
  · exact Prod.Lex.left _ _ (Datum.sizeOf_entries _h).2
  · exact Prod.Lex.left _ _ (Catalog.sizeOf_lookup _h)
  · exact Prod.Lex.left _ _ (Catalog.sizeOf_lookup _h)
  · exact Prod.Lex.left _ _ (Context.sizeOf_present _h)

end MessagePack
