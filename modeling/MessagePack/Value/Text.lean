import MessagePack.Fault
import MessagePack.Text.Quoted
import MessagePack.Value
/-!
# The text of a value

Arrays stand in square brackets and maps in braces, bytes are hexadecimal, a raw extension shows
its tag and the length of its payload, and a timestamp shows its seconds with nine places.
-/

namespace MessagePack.Value

mutual

/-- The text of a value. -/
def render : Value → String
  | .nil => "nil"
  | .bool b => if b then "true" else "false"
  | .int i => toString i.toInt
  | .uint u => toString u.toNat
  | .single x => x.text
  | .double x => x.text
  | .text s => quoted s
  | .bin bytes => "0x" ++ String.join (bytes.map Fault.hexByte)
  | .array items => "[" ++ ", ".intercalate (renderItems items) ++ "]"
  | .map entries => "\x7b" ++ ", ".intercalate (renderEntries entries) ++ "\x7d"
  | .ext tag payload => s!"ext({tag.toInt}, {payload.length} bytes)"
  | .timestamp t => t.text

/-- The texts of an array's items. -/
def renderItems : List Value → List String
  | [] => []
  | v :: vs => render v :: renderItems vs

/-- The texts of a map's entries. -/
def renderEntries : List (Value × Value) → List String
  | [] => []
  | (k, v) :: es => (render k ++ ": " ++ render v) :: renderEntries es

end

end MessagePack.Value
