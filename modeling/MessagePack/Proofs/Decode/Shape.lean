import MessagePack.Decode.Datum
import MessagePack.Proofs.Wire.Announce
/-!
# How runs are composed

A run into a destination is composed in three ways: it ends at once (`Decoded.ended`), it goes on
after a read (`Decoded.afterRead`) or it goes on after another run (`Decoded.afterRun`).  In the
last two a fault of what comes first is the fault of the whole, and all that is still said is what
it leaves of the destination.

Here stands one equation for each reader in place.  What holds of the three ways holds of every
reader, its faults and what they leave included.

Main statements: `InPlace.list_eq` and its siblings.
-/

namespace MessagePack

namespace Decoded

variable {α β : Type}

/-! ## 1. Three ways -/

/-- Ends at once. -/
def ended (outcome : Except Fault Unit) (d : Datum) (c : Cursor) : Decoded := ⟨outcome, d, c⟩

/-- Goes on after a read, whose fault leaves `left`. -/
def afterRead (r : Read α) (left : Datum) (next : α → Cursor → Decoded) (c : Cursor) : Decoded :=
  match r c with
  | (.ok a, c) => next a c
  | (.error f, c) => ⟨.error f, left, c⟩

/-- Goes on after a run, whose fault leaves what `left` makes of its destination. -/
def afterRun (first : Cursor → Decoded) (left : Datum → Datum) (next : Datum → Cursor → Decoded)
    (c : Cursor) : Decoded :=
  match first c with
  | ⟨.ok _, x, c⟩ => next x c
  | ⟨.error f, x, c⟩ => ⟨.error f, left x, c⟩

/-- Goes on one level down, if there is one. -/
def descend (deeper : Option β) (left : Datum) (next : β → Cursor → Decoded) : Cursor → Decoded :=
  match deeper with
  | none => ended (.error (.tooDeep maxDepth)) left
  | some r => nested (next r)

variable {run first : Cursor → Decoded} {left : Datum} {lefts : Datum → Datum}

/-- A run that reads first is given by what it does on success and on a fault. -/
theorem eq_afterRead {r : Read α} {next : α → Cursor → Decoded}
    (ok : ∀ c a c', r c = (.ok a, c') → run c = next a c')
    (error : ∀ c f c', r c = (.error f, c') → run c = ⟨.error f, left, c'⟩) :
    run = afterRead r left next := by
  funext c
  unfold afterRead
  rcases e : r c with ⟨f | a, c'⟩
  · exact error c f c' e
  · exact ok c a c' e

/-- One that runs something else first, likewise. -/
theorem eq_afterRun {next : Datum → Cursor → Decoded}
    (ok : ∀ c x c', first c = ⟨.ok (), x, c'⟩ → run c = next x c')
    (error : ∀ c f x c', first c = ⟨.error f, x, c'⟩ → run c = ⟨.error f, lefts x, c'⟩) :
    run = afterRun first lefts next := by
  funext c
  unfold afterRun
  rcases e : first c with ⟨f | _, x, c'⟩
  · exact error c f x c' e
  · exact ok c x c' e

/-- What is done to a destination at the end is a run that ends at once. -/
theorem mapDest_eq (run : Cursor → Decoded) (f : Datum → Datum) :
    (fun c => (run c).mapDest f) = afterRun run f fun x => ended (.ok ()) (f x) :=
  eq_afterRun (fun c x c' e => by simp only [e, mapDest, ended])
    fun c f x c' e => by simp only [e, mapDest]

end Decoded

namespace InPlace

open Decoded

variable {zero d : Datum}

theorem replace_eq (r : Read Datum) (d : Datum) :
    replace r d = afterRead r d fun x => ended (.ok ()) x :=
  eq_afterRead (fun c x c' e => by simp only [replace, e, ended])
    fun c f c' e => by simp only [replace, e]

theorem skipping_eq (d : Datum) :
    skipping d = afterRead Read.skip d fun _ => ended (.ok ()) d :=
  eq_afterRead (fun c x c' e => by simp only [skipping, e, ended])
    fun c f c' e => by simp only [skipping, e]

/-! ## 2. Lists, tuples and maps -/

theorem elements_succ (elem : InPlace) (zero : Datum) (n : Nat) (done : List Datum) :
    elements elem zero (n + 1) done =
      afterRun (elem zero) (fun _ => .seq done.reverse) fun x => elements elem zero n (x :: done) :=
  eq_afterRun (fun c x c' e => by simp only [elements, e])
    fun c f x c' e => by simp only [elements, e]

theorem list_eq (deeper : Option InPlace) (zero d : Datum) : list deeper zero d =
    afterRead (Read.arrayLength .array) (.seq []) fun length =>
      match length with
      | none => ended (.ok ()) (.seq [])
      | some n => descend deeper (.seq []) fun elem => elements elem zero n [] := by
  refine eq_afterRead (fun c length c' e => ?_) fun c f c' e => by simp only [list, e]
  cases length with
  | none => simp only [list, e, ended]
  | some n => cases deeper <;> simp only [list, e, descend, ended]

/-- Headers under which a list of bytes is taken at once. -/
def holdsBytes (h : Header) : Bool := h.isText || h.isBin || h == .nil

theorem byteList_eq (deeper : Option InPlace) (zero d : Datum) : byteList deeper zero d =
    afterRead Read.peekHeader d fun bh =>
      if holdsBytes bh.2 then
        afterRead (Read.raw .bin) (.seq []) fun bytes =>
          ended (.ok ()) (.seq ((bytes.getD []).map fun b => .int b.toNat))
      else list deeper zero d := by
  refine eq_afterRead (fun c bh c' e => ?_) fun c f c' e => by simp only [byteList, e]
  obtain ⟨b, h⟩ := bh
  cases h with
  | fixText | text | bin | nil =>
    change _ = afterRead (Read.raw .bin) (.seq [])
      (fun bytes => ended (.ok ()) (.seq ((bytes.getD []).map fun b => .int b.toNat))) c'
    unfold afterRead
    rcases taken : Read.raw .bin c' with ⟨f | bytes, last⟩ <;>
      simp only [byteList, e, taken, ended]
  | _ =>
    simp only [byteList, e]
    rfl

theorem sequence_eq (deeper : Option (Ty → InPlace)) (t : Ty) (zero d : Datum) :
    sequence deeper t zero d =
      if t.sequenceKind = .bin then byteList (deeper.map fun r => r t) zero d
      else list (deeper.map fun r => r t) zero d := by
  unfold sequence
  split
  · rfl
  · have other : t.sequenceKind ≠ .bin := by
      unfold Ty.sequenceKind
      split <;> simp_all
    rw [if_neg other]

/-- An array is read as a list of its own, which is assigned if it has the right length. -/
theorem array_eq (deeper : Option (Ty → InPlace)) (n : Nat) (t : Ty) (zero d : Datum) :
    array deeper n t zero d =
      afterRead Read.tryNil d fun nil =>
        if nil then ended (.ok ()) (.seq (List.replicate n zero))
        else afterRun (sequence deeper t zero (.seq [])) (fun _ => d) fun read =>
          if read.items.length = n then ended (.ok ()) read
          else ended (.error (.misfit (.arrayLength read.items.length n))) d := by
  refine eq_afterRead (fun c nil c' e => ?_) fun c f c' e => by simp only [array, e]
  cases nil with
  | true => simp only [array, e, if_true, ended]
  | false =>
    simp only [array, e, Bool.false_eq_true, if_false, afterRun]
    rcases sequence deeper t zero (.seq []) c' with ⟨f | _, x, last⟩
    · rfl
    · dsimp only
      split <;> rfl

theorem parts_cons (zero : Ty → Datum) (deeper : Ty → InPlace) (t : Ty) (ts : List Ty)
    (ds : List Datum) :
    parts zero deeper (t :: ts) ds =
      afterRun (deeper t (ds.headD (zero t))) (fun d => .seq (d :: ds.tail)) fun x =>
        afterRun (parts zero deeper ts ds.tail) (fun rest => .seq (x :: rest.items)) fun rest =>
          ended (.ok ()) (.seq (x :: rest.items)) := by
  refine eq_afterRun (fun c x c' e => ?_) fun c f x c' e => by simp only [parts, e]
  rw [← mapDest_eq]
  simp only [parts, e]

theorem tuple_eq (deeper : Option (Ty → InPlace)) (zero : Ty → Datum) (ts : List Ty) (d : Datum) :
    tuple deeper zero ts d =
      afterRead (Read.arrayLength .array) d fun length =>
        match length with
        | none => ended (.ok ()) d
        | some n =>
          if n = ts.length then descend deeper d fun r => parts zero r ts d.items
          else ended (.error (.misfit (.tupleLength n ts.length))) d := by
  refine eq_afterRead (fun c length c' e => ?_) fun c f c' e => by simp only [tuple, e]
  cases length with
  | none => simp only [tuple, e, ended]
  | some n =>
    by_cases same : n = ts.length
    · simp only [tuple, e, if_pos same, if_neg (not_not_intro same)]
      cases deeper <;> rfl
    · simp only [tuple, e, if_neg same, if_pos same, ended]

variable {order : MapOrder} {key value : InPlace} {keyZero valueZero : Datum}

theorem bindings_succ (n : Nat) (done : List (Datum × Datum)) :
    bindings order key value keyZero valueZero (n + 1) done =
      afterRead Read.checkKey (.map done) fun _ =>
        afterRun (key keyZero) (fun _ => .map done) fun k =>
          afterRun (value valueZero) (fun _ => .map done) fun v =>
            bindings order key value keyZero valueZero n (order.insert k v done) := by
  refine eq_afterRead (fun c _ c' e => ?_) fun c f c' e => by simp only [bindings, e]
  unfold afterRun
  rcases first : key keyZero c' with ⟨f | _, k, mid⟩
  · simp only [bindings, e, first]
  · rcases second : value valueZero mid with ⟨f | _, v, last⟩ <;>
      simp only [bindings, e, first, second]

theorem map_eq (deeper : Option (Ty → InPlace)) (order : MapOrder) (kt vt : Ty)
    (keyZero valueZero d : Datum) :
    map deeper order kt vt keyZero valueZero d =
      afterRead (Read.mapLength .map) (.map []) fun length =>
        match length with
        | none => ended (.ok ()) (.map [])
        | some n => descend deeper (.map []) fun r =>
          bindings order (r kt) (r vt) keyZero valueZero n [] := by
  refine eq_afterRead (fun c length c' e => ?_) fun c f c' e => by simp only [map, e]
  cases length with
  | none => simp only [map, e, ended]
  | some n => cases deeper <;> simp only [map, e, descend, ended]

/-! ## 3. Extensions -/

/-- What the binding that claims a tag makes of a payload for a host. -/
def receive (cx : Context) (host : Host) (tag : Int8) (payload : List UInt8) :
    Except Fault Datum :=
  match cx.registry.forTag? tag with
  | none => .error (.unregistered tag)
  | some b =>
    if b.host = host then b.decode payload
    else .error (.misfit (.otherHost tag (b.host.qualifiedName cx.catalog)))

theorem extension_eq (cx : Context) (host : Host) (d : Datum) : extension cx host d =
    afterRead (Read.ext .ext) d fun e =>
      match e with
      | none => ended (.ok ()) d
      | some (tag, payload) =>
        match receive cx host tag payload with
        | .ok x => ended (.ok ()) x
        | .error f => ended (.error f) d := by
  refine eq_afterRead (fun c e' c' e => ?_) fun c f c' e => by simp only [extension, e]
  rcases e' with _ | ⟨tag, payload⟩
  · simp only [extension, e, ended]
  · simp only [extension, e, receive]
    cases cx.registry.forTag? tag with
    | none => rfl
    | some b =>
      by_cases own : b.host = host
      · simp only [if_pos own]
        cases b.decode payload <;> rfl
      · simp only [if_neg own, ended]

/-- A clock time is read as a timestamp that starts from the one that was there. -/
theorem clockTime_eq (cx : Context) (d : Datum) : clockTime cx d =
    afterRun (fun c => extension cx .timestamp (.timestamp d.asClockTime.toTimestamp)
      (c.overflow d.asClockTime.overflows)) (fun _ => d) fun x =>
        match x.asTimestamp.toClockTime? with
        | some t => ended (.ok ()) (.clockTime t)
        | none => ended (.error (.outOfRange (.instant x.asTimestamp) .ext)) d := by
  refine eq_afterRun (fun c x c' e => ?_) fun c f x c' e => ?_
  · rw [ClockTime.toTimestamp, ClockTime.overflows] at e
    simp only [clockTime, e]
    cases x.asTimestamp.toClockTime? <;> rfl
  · rw [ClockTime.toTimestamp, ClockTime.overflows] at e
    simp only [clockTime, e]

/-! ## 4. Records -/

variable {cx : Context} {deeper : Ty → InPlace} {id : RecordId}

/-- Reads into the field at the end of a slot's path, with everything on the path allocated. -/
def intoSlot (cx : Context) (deeper : Ty → InPlace) (id : RecordId) (s : Slot) (d : Datum) :
    Cursor → Decoded :=
  match cx.catalog.reach s.name id s.path d with
  | (.error f, d) => ended (.error f) d
  | (.ok (t, x), d) =>
    afterRun (deeper t x) (cx.catalog.put id s.path d) fun x =>
      ended (.ok ()) (cx.catalog.put id s.path d x)

/-- A slot behind an embedded record that is absent is looked at first: a nil leaves it absent. -/
theorem slot_eq (s : Slot) (d : Datum) : slot cx deeper id s d =
    if 1 < s.path.length ∧ (cx.catalog.lookup id s.path d).isNone then
      afterRead Read.tryNil d fun nil =>
        if nil then ended (.ok ()) d else intoSlot cx deeper id s d
    else intoSlot cx deeper id s d := by
  have into : (fun c =>
      match cx.catalog.reach s.name id s.path d with
      | (.error f, d) => (⟨.error f, d, c⟩ : Decoded)
      | (.ok (t, x), d) => (deeper t x c).mapDest fun x => cx.catalog.put id s.path d x) =
      intoSlot cx deeper id s d := by
    unfold intoSlot
    rcases cx.catalog.reach s.name id s.path d with ⟨f | ⟨t, x⟩, d'⟩
    · rfl
    · exact mapDest_eq (deeper t x) fun x => cx.catalog.put id s.path d' x
  rw [← into]
  -- only where something above the slot is missing is there a look ahead
  by_cases absent : 1 < s.path.length ∧ (cx.catalog.lookup id s.path d).isNone
  · rw [if_pos absent]
    refine eq_afterRead (fun c nil c' e => ?_) fun c f c' e => ?_
    · cases nil <;> simp only [slot, if_pos absent, e] <;> rfl
    · simp only [slot, if_pos absent, e]
  · rw [if_neg absent]
    funext c
    unfold slot
    exact if_neg absent

/-- Reads into a slot, or past a value that belongs to none. -/
def slotOrSkip (cx : Context) (deeper : Ty → InPlace) (id : RecordId) (d : Datum) :
    Option Slot → Cursor → Decoded
  | some s => slot cx deeper id s d
  | none => skipping d

theorem slots_succ (n : Nat) (ss : List Slot) (d : Datum) :
    slots cx deeper id (n + 1) ss d =
      afterRun (slotOrSkip cx deeper id d ss.head?) (fun d => d) fun d =>
        slots cx deeper id n ss.tail d := by
  funext c
  cases ss <;> rfl

theorem namedSlots_succ (layout : Layout) (n : Nat) (d : Datum) :
    namedSlots cx deeper id layout (n + 1) d =
      afterRead (slotNamed layout) d fun found =>
        afterRun (slotOrSkip cx deeper id d found) (fun d => d) fun d =>
          namedSlots cx deeper id layout n d := by
  refine eq_afterRead (fun c found c' e => ?_) fun c f c' e => by simp only [namedSlots, e]
  simp only [namedSlots, e, afterRun]
  cases found <;> rfl

theorem fields_positional (mode : cx.mode = .positional) (d : Datum) :
    fields cx deeper id d =
      afterRead (Read.arrayLength .record) d fun length =>
        match length with
        | none => ended (.ok ()) d
        | some n => slots cx deeper id n (cx.layout id).slots d := by
  refine eq_afterRead (fun c length c' e => ?_) fun c f c' e => by simp only [fields, mode, e]
  cases length <;> simp only [fields, mode, e, ended]

theorem fields_named (mode : cx.mode = .named) (d : Datum) :
    fields cx deeper id d =
      afterRead (Read.mapLength .record) d fun length =>
        match length with
        | none => ended (.ok ()) d
        | some n => namedSlots cx deeper id (cx.layout id) n d := by
  refine eq_afterRead (fun c length c' e => ?_) fun c f c' e => by simp only [fields, mode, e]
  cases length <;> simp only [fields, mode, e, ended]

/-- A record that a binding claims, or that only a binding can carry, is read through it. -/
theorem record_bound {deeper : Option (Ty → InPlace)}
    (bound : (cx.hasBinding (.record id) || (cx.catalog.decl id).form == .external) = true)
    (d : Datum) : record cx deeper id d = extension cx (.record id) d := by
  funext c
  simp only [record, bound, if_true]

theorem record_eq {deeper : Option (Ty → InPlace)}
    (bound : (cx.hasBinding (.record id) || (cx.catalog.decl id).form == .external) = false)
    (d : Datum) : record cx deeper id d =
      fun c => descend deeper d (fun r => fields cx r id d) (c.consult id) := by
  funext c
  simp only [record, bound]
  cases deeper <;> rfl

end InPlace

/-! ## 5. All types -/

namespace Datum

open InPlace Decoded

variable {cx : Context} {n : Nat}

/-- The reader one level down from `n` levels. -/
def oneDown (cx : Context) : Nat → Option (Ty → InPlace)
  | 0 => none
  | n + 1 => some (read cx n)

theorem read_eq (cx : Context) (n : Nat) : read cx n = readStep cx n (oneDown cx n) := by
  cases n <;> rfl

theorem read_dynamic (d : Datum) : read cx n .dynamic d =
    afterRead (Value.read cx.registry n) d fun v => ended (.ok ()) (.dynamic v) := by
  rw [read_eq, readStep]
  refine eq_afterRead (fun c v c' e => ?_) fun c f c' e => ?_
  · simp only [replace, Read.run_bind, e]
    rfl
  · simp only [replace, Read.run_bind, e]

/-- An optional value is read into what is there, or into a fresh one. -/
theorem read_option (t : Ty) (d : Datum) : read cx n (.option t) d =
    afterRead Read.tryNil d fun nil =>
      if nil then ended (.ok ()) .absent
      else afterRun (read cx n t (d.held?.getD (cx.catalog.initial t))) .present fun x =>
        ended (.ok ()) (.present x) := by
  rw [read_eq, readStep]
  refine eq_afterRead (fun c nil c' e => ?_) fun c f c' e => by simp only [e]
  cases nil with
  | true => simp only [e, if_true, ended]
  | false =>
    rw [if_neg (by decide), ← mapDest_eq]
    simp only [e]

/-- A box is read as what is in it. -/
theorem read_box (t : Ty) : read cx n (.box t) = read cx n t := by
  rw [read_eq, readStep]

end Datum

end MessagePack
