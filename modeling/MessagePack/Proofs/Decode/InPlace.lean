import MessagePack.Codec
import MessagePack.Proofs.Decode.Shape
import MessagePack.Proofs.Decode.Skip
/-!
# How reading in place succeeds

A reader in place is shown as a parse for one destination: the datum it leaves when it succeeds.
Here stands one equation for each reader, in terms of the parses of its steps; everything later
cites these.

Main statements: `InPlace.parse_list` and its siblings, and `Codec.decode_eq_ok` for the whole
operation.
-/

namespace MessagePack

/-- How a run into a destination succeeds. -/
def Decoded.parse (run : Cursor → Decoded) : Parse Datum := fun c =>
  match run c with
  | ⟨.ok _, x, c⟩ => some (x, c)
  | ⟨.error _, _, _⟩ => none

namespace InPlace

open Decoded

variable {α β : Type} {zero d : Datum} {n : Nat}

/-! ## 1. Single steps -/

theorem parse_ended (d : Datum) : parse (ended (.ok ()) d) = pure d := rfl

/-- A run that ends with a fault parses nothing. -/
theorem parse_ended_error (f : Fault) (d : Datum) : parse (ended (.error f) d) = failure := rfl

/-- A run that starts with a read. -/
theorem parse_afterRead (r : Read α) (left : Datum) (next : α → Cursor → Decoded) :
    parse (afterRead r left next) = r.parse >>= fun a => parse (next a) := by
  funext c
  change parse (afterRead r left next) c = (r.parse c).bind _
  unfold parse Read.parse afterRead
  rcases r c with ⟨f | a, c'⟩ <;> rfl

/-- A run that starts with another. -/
theorem parse_afterRun (first : Cursor → Decoded) (left : Datum → Datum)
    (next : Datum → Cursor → Decoded) :
    parse (afterRun first left next) = parse first >>= fun x => parse (next x) := by
  funext c
  change parse (afterRun first left next) c = (parse first c).bind _
  unfold parse afterRun
  rcases first c with ⟨f | _, x, c'⟩ <;> rfl

/-- Goes on one level down, if there is one. -/
def descended (deeper : Option β) (next : β → Parse Datum) : Parse Datum :=
  match deeper with
  | none => failure
  | some r => (next r).nested

/-- One level down, and up again. -/
theorem parse_nested (run : Cursor → Decoded) : parse (nested run) = (parse run).nested := by
  funext c
  simp only [Decoded.parse, Decoded.nested, Parse.nested]
  rcases run (c.retrace .down) with ⟨f | _, x, c'⟩ <;> rfl

theorem parse_descend (deeper : Option β) (left : Datum) (next : β → Cursor → Decoded) :
    parse (descend deeper left next) = descended deeper fun r => parse (next r) := by
  cases deeper with
  | none => rfl
  | some r => exact parse_nested (next r)

/-- A destination that is replaced does not matter. -/
theorem parse_replace (r : Read Datum) (d : Datum) : parse (replace r d) = r.parse := by
  rw [replace_eq, parse_afterRead]
  exact bind_pure r.parse

/-- Nor does one that is passed over. -/
theorem parse_skipping (d : Datum) :
    parse (skipping d) = Read.skip.parse >>= fun _ => pure d := by
  rw [skipping_eq, parse_afterRead]
  rfl

/-! ## 2. Lists, tuples and maps -/

theorem parse_elements_succ (elem : InPlace) (zero : Datum) (n : Nat) (done : List Datum) :
    parse (elements elem zero (n + 1) done) =
      parse (elem zero) >>= fun x => parse (elements elem zero n (x :: done)) := by
  rw [elements_succ, parse_afterRun]

theorem parse_list (deeper : Option InPlace) : parse (list deeper zero d) =
    (Read.arrayLength .array).parse >>= fun length =>
      match length with
      | none => pure (.seq [])
      | some n => descended deeper fun elem => parse (elements elem zero n []) := by
  rw [list_eq, parse_afterRead]
  congr 1
  funext length
  cases length with
  | none => rfl
  | some n => exact parse_descend deeper _ _

theorem parse_array (deeper : Option (Ty → InPlace)) (n : Nat) (t : Ty) :
    parse (array deeper n t zero d) =
      Read.tryNil.parse >>= fun nil =>
        if nil then pure (.seq (List.replicate n zero))
        else parse (sequence deeper t zero (.seq [])) >>= fun read =>
          if read.items.length = n then pure read else failure := by
  rw [array_eq, parse_afterRead]
  congr 1
  funext nil
  rw [apply_ite parse, parse_afterRun]
  congr 2
  funext read
  rw [apply_ite parse, parse_ended, parse_ended_error]

theorem parse_parts_cons (zero : Ty → Datum) (deeper : Ty → InPlace) (t : Ty) (ts : List Ty)
    (ds : List Datum) :
    parse (parts zero deeper (t :: ts) ds) =
      parse (deeper t (ds.headD (zero t))) >>= fun x =>
        parse (parts zero deeper ts ds.tail) >>= fun rest => pure (.seq (x :: rest.items)) := by
  simp only [parts_cons, parse_afterRun, parse_ended]

theorem parse_tuple (deeper : Option (Ty → InPlace)) (zero : Ty → Datum) (ts : List Ty) :
    parse (tuple deeper zero ts d) =
      (Read.arrayLength .array).parse >>= fun length =>
        match length with
        | none => pure d
        | some n =>
          if n = ts.length then descended deeper fun r => parse (parts zero r ts d.items)
          else failure := by
  rw [tuple_eq, parse_afterRead]
  congr 1
  funext length
  cases length with
  | none => rfl
  | some n => simp only [apply_ite parse, parse_descend, parse_ended_error]

variable {order : MapOrder} {key value : InPlace} {keyZero valueZero : Datum}

theorem parse_bindings_succ (order : MapOrder) (key value : InPlace) (keyZero valueZero : Datum)
    (n : Nat) (done : List (Datum × Datum)) :
    parse (bindings order key value keyZero valueZero (n + 1) done) =
      Read.checkKey.parse >>= fun _ => parse (key keyZero) >>= fun k =>
        parse (value valueZero) >>= fun v =>
          parse (bindings order key value keyZero valueZero n (order.insert k v done)) := by
  simp only [bindings_succ, parse_afterRead, parse_afterRun]

theorem parse_map (deeper : Option (Ty → InPlace)) (order : MapOrder) (kt vt : Ty) :
    parse (map deeper order kt vt keyZero valueZero d) =
      (Read.mapLength .map).parse >>= fun length =>
        match length with
        | none => pure (.map [])
        | some n => descended deeper fun r =>
          parse (bindings order (r kt) (r vt) keyZero valueZero n []) := by
  rw [map_eq, parse_afterRead]
  congr 1
  funext length
  cases length with
  | none => rfl
  | some n => exact parse_descend deeper _ _

theorem parse_byteList (deeper : Option InPlace) : parse (byteList deeper zero d) =
    Read.peekHeader.parse >>= fun bh =>
      if holdsBytes bh.2 then
        (Read.raw .bin).parse >>= fun bytes =>
          pure (.seq ((bytes.getD []).map fun b => .int b.toNat))
      else parse (list deeper zero d) := by
  rw [byteList_eq, parse_afterRead]
  congr 1
  funext bh
  simp only [apply_ite parse, parse_afterRead, parse_ended]

theorem parse_sequence (deeper : Option (Ty → InPlace)) (t : Ty) :
    parse (sequence deeper t zero d) =
      if t.sequenceKind = .bin then parse (byteList (deeper.map fun r => r t) zero d)
      else parse (list (deeper.map fun r => r t) zero d) := by
  rw [sequence_eq, apply_ite parse]

/-! ## 3. Extensions -/

/-- What the binding that claims a tag makes of a payload for a host, if it is the host's. -/
def bound? (cx : Context) (host : Host) (tag : Int8) (payload : List UInt8) : Option Datum :=
  (receive cx host tag payload).toOption

/-- A nil leaves the destination; any other extension must be bound to its host. -/
theorem parse_extension (cx : Context) (host : Host) : parse (extension cx host d) =
    (Read.ext .ext).parse >>= fun e =>
      match e with
      | none => pure d
      | some (tag, payload) =>
        match bound? cx host tag payload with
        | none => failure
        | some x => pure x := by
  rw [extension_eq, parse_afterRead]
  congr 1
  funext e
  rcases e with _ | ⟨tag, payload⟩
  · rfl
  · simp only [bound?]
    cases receive cx host tag payload <;> rfl

theorem parse_clockTime (cx : Context) : parse (clockTime cx d) =
    (fun c => parse (extension cx .timestamp (.timestamp d.asClockTime.toTimestamp))
      (c.overflow d.asClockTime.overflows)) >>= fun x =>
        match x.asTimestamp.toClockTime? with
        | none => failure
        | some t => pure (.clockTime t) := by
  rw [clockTime_eq, parse_afterRun]
  congr 1
  funext x
  cases x.asTimestamp.toClockTime? <;> rfl

/-! ## 4. Records -/

variable {cx : Context} {deeper : Ty → InPlace} {id : RecordId}

/-- A value goes into the place that the slot's path leads to, or nowhere if it leads to none. -/
theorem parse_intoSlot (s : Slot) : parse (intoSlot cx deeper id s d) =
    match cx.catalog.reach s.name id s.path d with
    | (.error _, _) => failure
    | (.ok (t, x), d) => parse (deeper t x) >>= fun x => pure (cx.catalog.put id s.path d x) := by
  unfold intoSlot
  rcases cx.catalog.reach s.name id s.path d with ⟨f | ⟨t, x⟩, d'⟩
  · rfl
  · exact parse_afterRun (deeper t x) _ _

theorem parse_slot (s : Slot) : parse (slot cx deeper id s d) =
    if 1 < s.path.length ∧ (cx.catalog.lookup id s.path d).isNone then
      Read.tryNil.parse >>= fun nil => if nil then pure d else parse (intoSlot cx deeper id s d)
    else parse (intoSlot cx deeper id s d) := by
  simp only [slot_eq, apply_ite parse, parse_afterRead, parse_ended]

theorem parse_slots_succ (n : Nat) (ss : List Slot) :
    parse (slots cx deeper id (n + 1) ss d) =
      parse (slotOrSkip cx deeper id d ss.head?) >>= fun d =>
        parse (slots cx deeper id n ss.tail d) := by
  rw [slots_succ, parse_afterRun]

theorem parse_namedSlots_succ (layout : Layout) (n : Nat) :
    parse (namedSlots cx deeper id layout (n + 1) d) =
      (slotNamed layout).parse >>= fun found =>
        parse (slotOrSkip cx deeper id d found) >>= fun d =>
          parse (namedSlots cx deeper id layout n d) := by
  simp only [namedSlots_succ, parse_afterRead, parse_afterRun]

theorem parse_fields_positional (mode : cx.mode = .positional) :
    parse (fields cx deeper id d) =
      (Read.arrayLength .record).parse >>= fun length =>
        match length with
        | none => pure d
        | some n => parse (slots cx deeper id n (cx.layout id).slots d) := by
  rw [fields_positional mode, parse_afterRead]
  congr 1
  funext length
  cases length <;> rfl

theorem parse_fields_named (mode : cx.mode = .named) :
    parse (fields cx deeper id d) =
      (Read.mapLength .record).parse >>= fun length =>
        match length with
        | none => pure d
        | some n => parse (namedSlots cx deeper id (cx.layout id) n d) := by
  rw [fields_named mode, parse_afterRead]
  congr 1
  funext length
  cases length <;> rfl

/-- **A text that is read as a key is looked up among the names of the slots.** -/
theorem takes_slotNamed {layout : Layout} {h : Header} {body : List UInt8} {name : String}
    (stands : h.Stands) (text : h.isText = true) (holds : h.Holds body (utf8Bytes name)) :
    (slotNamed layout).parse.Takes (h.toByte :: body)
      ((layout.position name).bind fun i => layout.slots[i]?) := by
  have flat : Flat (h.toByte :: body) := .of_header stands holds.flat holds.owes
  unfold slotNamed
  rw [Read.parse_bind, ← List.append_nil (h.toByte :: body)]
  refine Read.takes_checkKey flat ?_
  rw [List.append_nil, Read.parse_bind]
  refine Read.takes_peekHeader stands ?_
  simp only [text, if_true, Read.parse_bind]
  exact (Read.takes_text stands holds (textOfUtf8?_utf8Bytes name)).map

/-- A record that is bound is its payload. -/
theorem parse_record_bound {deeper : Option (Ty → InPlace)}
    (bound : (cx.hasBinding (.record id) || (cx.catalog.decl id).form == .external) = true) :
    parse (record cx deeper id d) = parse (extension cx (.record id) d) := by
  rw [record_bound bound]

/-- Any other has its fields one level down. -/
theorem parse_record {deeper : Option (Ty → InPlace)}
    (bound : (cx.hasBinding (.record id) || (cx.catalog.decl id).form == .external) = false) :
    parse (record cx deeper id d) =
      fun c => descended deeper (fun r => parse (fields cx r id d)) (c.consult id) := by
  rw [record_eq bound, ← parse_descend deeper d]
  rfl

end InPlace

/-! ## 5. All types -/

namespace Datum

open InPlace Decoded

variable {cx : Context} {n : Nat} {d : Datum}

/-- A type whose reader assigns is parsed as that reader. -/
theorem parse_read_scalar {t : Ty} {r : Read Datum}
    (e : readStep cx n (oneDown cx n) t = replace r) : parse (read cx n t d) = r.parse := by
  rw [read_eq, e]
  exact parse_replace r d

theorem parse_read_bool : parse (read cx n .bool d) =
    Read.bool.parse >>= fun b => pure (.bool b) := by
  rw [parse_read_scalar (by unfold readStep; rfl), Read.parse_bind]
  rfl

theorem parse_read_number (t : NumType) : parse (read cx n (.number t) d) =
    (Read.number t.kind).parse >>= fun m => (Read.narrow t t.kind m).parse >>= fun x =>
      pure (ofNarrowed x) := by
  rw [parse_read_scalar (by unfold readStep; rfl), Read.parse_bind]
  simp only [Read.parse_bind, Read.parse_pure]

theorem parse_read_text : parse (read cx n .text d) =
    Read.text.parse >>= fun s => pure (.text s) := by
  rw [parse_read_scalar (by unfold readStep; rfl), Read.parse_bind]
  rfl

theorem parse_read_bytes : parse (read cx n .bytes d) =
    (Read.raw .bin).parse >>= fun bytes => pure (.bytes (bytes.getD [])) := by
  rw [parse_read_scalar (by unfold readStep; rfl), Read.parse_bind]
  rfl

theorem parse_read_dynamic : parse (read cx n .dynamic d) =
    (Value.read cx.registry n).parse >>= fun v => pure (.dynamic v) := by
  rw [parse_read_scalar (by unfold readStep; rfl), Read.parse_bind]
  rfl

theorem parse_read_option (t : Ty) : parse (read cx n (.option t) d) =
    Read.tryNil.parse >>= fun nil =>
      if nil then pure .absent
      else parse (read cx n t (d.held?.getD (cx.catalog.initial t))) >>= fun x =>
        pure (.present x) := by
  rw [read_option, parse_afterRead]
  congr 1
  funext nil
  rw [apply_ite parse, parse_afterRun]
  rfl

end Datum

/-! ## 6. Whole operations -/

namespace Codec

variable {c : Codec} {t : Ty} {mode : Mode} {input : List UInt8} {d x : Datum}

/-- A destination is accepted and left as `x` exactly when reading leaves it so and nothing over. -/
theorem decodeInto_ok_iff :
    (c.decodeInto t d input mode).1 = .ok () ∧ (c.decodeInto t d input mode).2.1 = x ↔
      ∃ c', Decoded.parse (Datum.read (c.context mode) maxDepth t d) (.start input) =
        some (x, c') ∧ c'.rest = [] := by
  unfold decodeInto settle reading Decoded.parse finish
  dsimp only
  rcases Datum.read (c.context mode) maxDepth t d (.start input) with
    ⟨f | u, y, position, rest, known⟩
  · simp
  · cases rest <;> simp

/-- What reading takes whole is accepted. -/
theorem decodeInto_of_takes
    (takes : (Decoded.parse (Datum.read (c.context mode) maxDepth t d)).Takes input x) :
    (c.decodeInto t d input mode).1 = .ok () ∧ (c.decodeInto t d input mode).2.1 = x := by
  obtain ⟨known, run⟩ := takes 0 [] {}
  rw [List.append_nil] at run
  exact decodeInto_ok_iff.2 ⟨_, run, rfl⟩

/-- What a sound reader accepted whole it took whole. -/
theorem holds_of_accepted {P : List UInt8 → Datum → Prop}
    (accepted : (c.decodeInto t d input mode).1 = .ok ())
    (sound : (Decoded.parse (Datum.read (c.context mode) maxDepth t d)).Sound P) :
    P input (c.decodeInto t d input mode).2.1 := by
  obtain ⟨c', run, ended⟩ := decodeInto_ok_iff.1 ⟨accepted, rfl⟩
  obtain ⟨used, e, holds, -⟩ := sound _ _ _ run
  rw [ended, List.append_nil] at e
  change input = used at e
  rwa [← e] at holds

/-- Decoding succeeds exactly when reading does and leaves nothing over. -/
theorem decode_eq_ok : (c.decode t input mode).1 = .ok x ↔
    ∃ c', Decoded.parse (Datum.read (c.context mode) maxDepth t (c.catalog.initial t))
        (.start input) = some (x, c') ∧ c'.rest = [] := by
  rw [← decodeInto_ok_iff]
  unfold decode
  dsimp only
  cases (c.decodeInto t (c.catalog.initial t) input mode).1 <;> simp [Except.map]

/-- What reading takes whole is decoded. -/
theorem decode_of_takes
    (takes : (Decoded.parse (Datum.read (c.context mode) maxDepth t (c.catalog.initial t))).Takes
      input x) : (c.decode t input mode).1 = .ok x :=
  decode_eq_ok.2 (decodeInto_ok_iff.1 (decodeInto_of_takes takes))

end Codec

end MessagePack
