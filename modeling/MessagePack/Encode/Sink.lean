import MessagePack.Encode.Script
/-!
# Sinks

A script runs twice.  The sizing sink counts; the writing sink fills a buffer and refuses every put
that would exceed the count.  A pass runs steps, each a script, and ends at the first fault unless
the step says to go on.  `encode` joins the two passes: it gives exactly as many bytes as were
counted, or a fault.
-/

namespace MessagePack

/-- Where bytes go. -/
inductive Sink where
  | sizing (count : Nat)
  | writing (predicted : Nat) (buffer : Array UInt8)
  deriving Repr

namespace Sink

/-- Bytes counted or written so far. -/
def position : Sink → Nat
  | .sizing count => count
  | .writing _ buffer => buffer.size

/-- Takes bytes, all or none. -/
def put : Sink → List UInt8 → Except Fault Unit × Sink
  | .sizing count, bs => (.ok (), .sizing (count + bs.length))
  | .writing predicted buffer, bs =>
    let total := buffer.size + bs.length
    if predicted < total then
      (.error (.sizeMismatch predicted total), .writing predicted buffer)
    else (.ok (), .writing predicted (buffer ++ bs))

/-- Takes one run of bytes after another, up to the first that is refused. -/
def putEach : Sink → List (List UInt8) → Except Fault Unit × Sink
  | s, [] => (.ok (), s)
  | s, bs :: rest =>
    match s.put bs with
    | (.ok _, s) => s.putEach rest
    | (.error f, s) => (.error f, s)

/-- The bytes of a finished sink, if they are as many as predicted. -/
def finish : Sink → Except Fault (List UInt8)
  | .sizing count => .error (.sizeMismatch count 0)
  | .writing predicted buffer =>
    if buffer.size = predicted then .ok buffer.toList
    else .error (.sizeMismatch predicted buffer.size)

end Sink

/-- A sink with what the run has noted. -/
structure Writer where
  sink : Sink
  notes : Notes
  deriving Repr

namespace Writer

/-- The start of a sizing pass. -/
def sizing : Writer := ⟨.sizing 0, {}⟩

/-- The start of the writing pass behind a finished sizing pass. -/
def writing (sized : Writer) : Writer := ⟨.writing sized.sink.position #[], sized.notes⟩

end Writer

/-- Runs a script; what was done before a fault stays done. -/
def Script.run : Script → Writer → Except Fault Unit × Writer
  | .done, w => (.ok (), w)
  | .put bs, ⟨sink, notes⟩ =>
    let (outcome, sink) := sink.put bs
    (outcome, ⟨sink, notes⟩)
  | .consult id, ⟨sink, notes⟩ => (.ok (), ⟨sink, notes.consult id⟩)
  | .overflow os, ⟨sink, notes⟩ => (.ok (), ⟨sink, notes.overflow os⟩)
  | .fail f, w => (.error f, w)
  | .uniform items, ⟨sink, notes⟩ =>
    match sink with
    | .sizing count => (.ok (), ⟨.sizing (count + items.count * items.width), notes⟩)
    | .writing predicted buffer =>
      let (outcome, sink) := (Sink.writing predicted buffer).putEach items.puts
      (outcome, ⟨sink, notes⟩)
  | .attempt body, w => (.ok (), (body.run w).2)
  | .seq a b, w =>
    match a.run w with
    | (.ok _, w) => b.run w
    | (.error f, w) => (.error f, w)

/-! ## Passes -/

/-- One step of a pass. -/
structure Step where
  script : Script
  /-- Whether the pass goes on after a fault of this step. -/
  keepsGoing : Bool
  deriving Repr

/-- How a step went and where it left the sink. -/
structure Entry where
  outcome : Except Fault Unit
  position : Nat

/-- Everything a pass did. -/
structure Pass where
  log : List Entry
  outcome : Except Fault Unit
  writer : Writer

/-- Runs steps one after another. -/
def Pass.run : List Step → Writer → Pass
  | [], w => ⟨[], .ok (), w⟩
  | s :: rest, w =>
    let (outcome, w) := s.script.run w
    let entry : Entry := ⟨outcome, w.sink.position⟩
    match outcome, s.keepsGoing with
    | .error f, false => ⟨[entry], .error f, w⟩
    | _, _ =>
      let later := Pass.run rest w
      { later with log := entry :: later.log }

/-- A whole encoding: the passes that ran, and the bytes or the fault. -/
structure Encoding where
  sized : Pass
  written : Option Pass
  result : Except Fault (List UInt8)

namespace Encoding

/-- Sizes one sequence of steps and writes another; as a rule they are the same. -/
def ofSteps (sizing writing : List Step) : Encoding :=
  let sized := Pass.run sizing .sizing
  match sized.outcome with
  | .error f => ⟨sized, none, .error f⟩
  | .ok _ =>
    let written := Pass.run writing sized.writer.writing
    match written.outcome with
    | .error f => ⟨sized, some written, .error f⟩
    | .ok _ => ⟨sized, some written, written.writer.sink.finish⟩

/-- What the passes noted. -/
def notes (e : Encoding) : Notes :=
  match e.written with
  | some p => p.writer.notes
  | none => e.sized.writer.notes

end Encoding

namespace Script

/-- Sizes and writes one script. -/
def encode (s : Script) : Encoding := .ofSteps [⟨s, false⟩] [⟨s, false⟩]

/-- Only sizes a script. -/
def measure (s : Script) : Except Fault Nat × Notes :=
  let (outcome, w) := s.run .sizing
  (outcome.map fun _ => w.sink.position, w.notes)

end Script

end MessagePack
