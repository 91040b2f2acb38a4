import MessagePack.Extension.Registry
import MessagePack.Record.Layout
/-!
# The context of one operation

Reading and writing one value takes the declared records, the mode, the layouts as the codec knows
them and the bindings as they are when the operation starts.
-/

namespace MessagePack

/-- What one operation sees. -/
structure Context where
  catalog : Catalog
  mode : Mode
  layout : RecordId → Layout
  registry : Registry

namespace Context

/-- Whether a binding claims a host. -/
def hasBinding (cx : Context) (h : Host) : Bool := (cx.registry.forHost? h).isSome

/-- Writes a datum through the binding of its host. -/
def encodeExtension (cx : Context) (h : Host) (d : Datum) : Script :=
  match cx.registry.forHost? h with
  | some b => b.encode d
  | none => .fail (.unwritable (.unboundHost (h.qualifiedName cx.catalog)))

end Context

end MessagePack
