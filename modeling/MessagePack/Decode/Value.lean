import MessagePack.Context
import MessagePack.Decode.Cursor
/-!
# Reading dynamic values

The header alone decides what is read.  Arrays and maps may nest `maxDepth` levels; `deeper` is the
reader of what lies one level down, and is missing at the last level.
-/

namespace MessagePack

/-- How many levels of arrays, maps and records may nest. -/
def maxDepth : Nat := 256

namespace Read

variable {α : Type}

/-- Goes one level down, if there is one. -/
def descend {β : Type} (deeper : Option α) (next : α → Read β) : Read β :=
  match deeper with
  | some r => nested (next r)
  | none => fail (.tooDeep maxDepth)

/-- Reads `n` things one after another behind those already read, which stand in reverse. -/
def repeated (r : Read α) : Nat → List α → Read (List α)
  | 0, done => fun c => (.ok done.reverse, c)
  | n + 1, done => fun c =>
    match r c with
    | (.ok a, c) => repeated r n (a :: done) c
    | (.error f, c) => (.error f, c)

end Read

namespace Value

/-- One entry of a map, the key checked before it is read. -/
def readEntry (deeper : Read Value) : Read (Value × Value) := do
  Read.checkKey
  let k ← deeper
  let v ← deeper
  return (k, v)

/-- One value, with a reader for what lies one level down. -/
def readStep (registry : Registry) (deeper : Option (Read Value)) : Read Value := do
  let (b, h) ← Read.peekHeader
  match h with
  | .nil =>
    let _ ← Read.takeHeader
    return .nil
  | .bool v =>
    let _ ← Read.takeHeader
    return .bool v
  | .posFix _ | .uint _ =>
    let n ← Read.number .dynamic
    let x ← Read.narrow (.uint .w64) .uint n
    return .uint (UInt64.ofNat x.asInt.toNat)
  | .negFix _ | .int _ =>
    let n ← Read.number .dynamic
    let x ← Read.narrow (.int .w64) .int n
    return .int (Int64.ofInt x.asInt)
  | .single =>
    let n ← Read.number .dynamic
    let x ← Read.narrow .single .float n
    return .single x.asSingle
  | .double =>
    let n ← Read.number .dynamic
    let x ← Read.narrow .double .float n
    return .double x.asDouble
  | .fixText _ | .text _ =>
    let s ← Read.text
    return .text s
  | .bin _ =>
    let bytes ← Read.raw .bin
    return .bin (bytes.getD [])
  | .fixArray _ | .array _ =>
    let n ← Read.arrayLength .dynamic
    let items ← Read.descend deeper fun r => Read.repeated r (n.getD 0) []
    return .array items
  | .fixMap _ | .map _ =>
    let n ← Read.mapLength .dynamic
    let entries ← Read.descend deeper fun r => Read.repeated (readEntry r) (n.getD 0) []
    return .map entries
  | .fixExt _ | .ext _ =>
    let _ ← Read.takeHeader
    let (tag, payload) ← Read.extBody .dynamic b h
    match registry.forTag? tag with
    | some binding => Read.ofExcept (binding.decodeValue payload)
    | none => return .ext tag payload
  | .unused => Read.fail (.format b .dynamic)

/-- How an extension's tag and payload become a value. -/
def ofExt (r : Registry) (tag : Int8) (payload : List UInt8) : Except Fault Value :=
  match r.forTag? tag with
  | some binding => binding.decodeValue payload
  | none => .ok (.ext tag payload)

/-- Reading an extension ends as `ofExt` says. -/
theorem forTag?_ofExt (r : Registry) (tag : Int8) (payload : List UInt8) :
    (match r.forTag? tag with
      | some binding => Read.ofExcept (binding.decodeValue payload)
      | none => (return .ext tag payload : Read Value)) = Read.ofExcept (ofExt r tag payload) := by
  unfold ofExt
  cases r.forTag? tag <;> rfl

/-- One value with `levels` levels left. -/
def read (registry : Registry) : Nat → Read Value
  | 0 => readStep registry none
  | levels + 1 => readStep registry (some (read registry levels))

end Value

end MessagePack
