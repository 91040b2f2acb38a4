import MessagePack.Decode.Datum
/-!
# Sequences of reads

Whoever reads a value by hand strings single reads together, in any order, and may go on after a
fault.  `Call` lists what can be asked of a cursor.  A read into a destination is given the levels
that are left below the cursor's depth, and so are calls further down.
-/

namespace MessagePack

/-- What can be asked of a cursor. -/
inductive Call where
  | mode
  | peekHeader
  | takeHeader
  | tryNil
  | bool
  | number (kind : Kind)
  | narrowed (kind : Kind) (t : NumType)
  | raw (kind : Kind)
  | text
  | arrayLength (kind : Kind)
  | mapLength (kind : Kind)
  | checkKey
  | skip
  | ext (kind : Kind)
  | takeMany (n : Nat)
  /-- Reads into a destination. -/
  | datum (t : Ty) (d : Datum)
  /-- Makes calls so many levels further down. -/
  | nested (levels : Nat) (calls : List Call)

/-- What a call gives. -/
inductive Answer where
  | done
  | mode (m : Mode)
  | header (b : UInt8) (h : Header)
  | bool (b : Bool)
  | number (n : Number)
  | narrowed (x : Narrowed)
  | raw (bytes : Option (List UInt8))
  | text (s : String)
  | length (n : Option Nat)
  | ext (e : Option (Int8 × List UInt8))
  | bytes (bs : List UInt8)
  | datum (t : Ty) (d : Datum)
  /-- For each call its result with the position and the number of unread bytes after it. -/
  | reports (rs : List (Except Fault Answer × Nat × Nat))

/-- A result with the position and the number of unread bytes after it. -/
abbrev Report : Type := Except Fault Answer × Nat × Nat

namespace Decoder

/-- A read, its result given as an answer. -/
def answer {α : Type} (r : Read α) (give : α → Answer) : Read Answer := do
  let a ← r
  return give a

/-- Runs `body` so many levels further down, if there are as many, and comes back up. -/
def down (body : Read Answer) : Nat → Read Answer
  | 0 => body
  | levels + 1 => fun c =>
    if maxDepth ≤ c.trace.depth then (.error (.tooDeep maxDepth), c)
    else Read.nested (down body levels) c

mutual

/-- Makes a call. -/
def call (cx : Context) : Call → Read Answer
  | .mode => return .mode cx.mode
  | .peekHeader => answer Read.peekHeader fun (b, h) => .header b h
  | .takeHeader => answer Read.takeHeader fun (b, h) => .header b h
  | .tryNil => answer Read.tryNil .bool
  | .bool => answer Read.bool .bool
  | .number k => answer (Read.number k) .number
  | .narrowed k t => answer (Read.number k >>= Read.narrow t k) .narrowed
  | .raw k => answer (Read.raw k) .raw
  | .text => answer Read.text .text
  | .arrayLength k => answer (Read.arrayLength k) .length
  | .mapLength k => answer (Read.mapLength k) .length
  | .checkKey => answer Read.checkKey fun _ => .done
  | .skip => answer Read.skip fun _ => .done
  | .ext k => answer (Read.ext k) .ext
  | .takeMany n => answer (Read.takeMany n) .bytes
  | .datum t x => fun c =>
    let r := Datum.read cx (maxDepth - c.trace.depth) t x c
    (r.outcome.map fun _ => .datum t r.dest, r.cursor)
  | .nested levels calls =>
    down (fun c =>
      let (reports, c) := callEach cx calls c
      (.ok (.reports reports), c)) levels

/-- Makes calls one after another, faults notwithstanding. -/
def callEach (cx : Context) : List Call → Cursor → List Report × Cursor
  | [], c => ([], c)
  | asked :: later, c =>
    let (r, c) := call cx asked c
    let report : Report := (r, c.position, c.rest.length)
    let (reports, c) := callEach cx later c
    (report :: reports, c)

end

end Decoder

end MessagePack
