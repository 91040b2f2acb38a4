import MessagePack.Context
/-!
# Writing dynamic values

A value is written in the smallest format of its kind.  A map's keys must not be arrays or maps; a
timestamp goes through the binding of its host.
-/

namespace MessagePack.Value

mutual

/-- The script of a value. -/
def script (cx : Context) : Value → Script
  | .nil => .nil
  | .bool b => .bool b
  | .int i => .int i.toInt
  | .uint u => .uint u.toNat
  | .single x => .single x
  | .double x => .double x
  | .text s => .text s
  | .bin bytes => .bin bytes
  | .array items => .header .array items.length ++ itemsScript cx items
  | .map entries => .header .map entries.length ++ entriesScript cx entries
  | .ext tag payload => .ext tag payload
  | .timestamp t => cx.encodeExtension .timestamp (.timestamp t)

/-- The scripts of an array's items, one after another. -/
def itemsScript (cx : Context) : List Value → Script
  | [] => .done
  | v :: vs => script cx v ++ itemsScript cx vs

/-- The scripts of a map's entries, each key before its value. -/
def entriesScript (cx : Context) : List (Value × Value) → Script
  | [] => .done
  | (k, v) :: es => Script.key k.kind (script cx k) ++ script cx v ++ entriesScript cx es

end

end MessagePack.Value
