import MessagePack.Datum
/-!
# Data as dynamic values

Scalars, texts, bytes, timestamps and lists of values have a dynamic value of their own, and so
have options of them.  Whole numbers keep the signedness of their type.
-/

namespace MessagePack

/-- The dynamic value of a datum, for the types that have one. -/
def Value.ofDatum? : Ty → Datum → Option Value
  | .bool, d => some (.bool d.asBool)
  | .number (.uint _), d => some (.uint (UInt64.ofNat d.asInt.toNat))
  | .number (.int _), d => some (.int (Int64.ofInt d.asInt))
  | .number .single, d => some (.single d.asSingle)
  | .number .double, d => some (.double d.asDouble)
  | .text, d => some (.text d.asText)
  | .bytes, d => some (.bin d.asBytes)
  | .timestamp, d => some (.timestamp d.asTimestamp)
  | .list .dynamic, d => some (.array (d.items.map Datum.asValue))
  | .option t, d =>
    match d.held? with
    | some x => Value.ofDatum? t x
    | none => some .nil
  | _, _ => none

end MessagePack
