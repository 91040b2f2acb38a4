import MessagePack.Proofs.Codec.Reachable
import MessagePack.Proofs.Decode.Changes
import MessagePack.Proofs.Record.Accessors
import MessagePack.Proofs.Record.Patch
/-!
# Decoding twice

Whatever is read into a destination, the bytes alone settle a patch, and the destination is left
patched.  Scalars, lists, fixed arrays, maps and bindings overwrite all of it; tuples and records
are patched part by part and entry by entry, so that an entry that comes twice is just two patches;
an option is emptied, or filled and patched; nil is a patch of its own.

To read the same bytes again is therefore to make the same patch again, which changes nothing.

It takes that fresh records are made of zeros.  Else a nil that was dropped where a record was
absent may find, the second time, a field of that record that came into being with something else.

Main statements: `Datum.patches_read` and `Codec.decodeInto_twice`.
-/

namespace MessagePack

/-! ## 1. Readers that patch -/

/-- The first value of an input, and what stands behind it. -/
def splitValue (u : List UInt8) : Option (List UInt8 × List UInt8) :=
  match Read.skip.parse (.start u) with
  | some (_, c) => some (u.take c.position, c.rest)
  | none => none

/-- In front of anything else, a value ends where it ends. -/
theorem splitValue_append {u v : List UInt8} (value : ∃ k, Complete k 1 u) :
    splitValue (u ++ v) = some (u, v) := by
  obtain ⟨k, complete⟩ := value
  obtain ⟨known, run⟩ := Read.takes_skip complete 0 v {}
  rw [splitValue, Cursor.start, run]
  simp

namespace InPlace

open Parse Read Decoded Catalog

variable {α : Type} {c : Catalog} {t : Ty} {p q : Datum → Parse Datum} {P : List UInt8 → α → Prop}

/-- What is read leaves the destination patched, by a patch that the bytes alone settle. -/
def Patches (c : Catalog) (t : Ty) (p : Datum → Parse Datum) : Prop :=
  ∃ patch : List UInt8 → Datum → Datum, (∀ u, c.Patch t (patch u)) ∧
    ∀ x, (p x).Sound fun u y => y = patch u x

/-- To keep is a patch. -/
theorem patches_keep : Patches c t pure :=
  ⟨fun _ x => x, fun _ => .keep fun _ => rfl, fun _ => sound_pure rfl⟩

/-- A reader that does not look at the destination. -/
theorem patches_write {r : Parse Datum} {P : List UInt8 → Datum → Prop} (sound : r.Sound P) :
    Patches c t fun _ => r := by
  refine ⟨fun u x => (r.result? u).getD x, fun u => ?_, fun x => ?_⟩
  · dsimp only
    cases r.result? u with
    | some y => exact .write y fun _ => rfl
    | none => exact .keep fun _ => rfl
  · refine sound.takes.mono ?_
    rintro u y ⟨-, takes⟩
    simp only [takes.result, Option.getD_some]

/-- What fails patches nothing. -/
theorem patches_failure : Patches c t fun _ => failure :=
  patches_write (P := fun _ _ => True) sound_failure

/-- A datum that does not depend on the old one is a patch. -/
theorem patches_pure (y : Datum) : Patches c t fun _ => pure y :=
  ⟨fun _ _ => y, fun _ => .write y fun _ => rfl, fun _ => sound_pure rfl⟩

/-- What is noted on the way is no part of the destination. -/
theorem Patches.retrace (hp : Patches c t p) (f : Datum → Trace → Trace) :
    Patches c t fun x cursor => p x (cursor.retrace (f x)) := by
  obtain ⟨patch, patched, sound⟩ := hp
  exact ⟨patch, patched, fun x => (sound x).retrace (f x)⟩

theorem Patches.overflow {k : Datum → Parse Datum} {os : Datum → List Overflow}
    (hp : Patches c t fun x => p x >>= k) :
    Patches c t fun x => (fun cursor => p x (cursor.overflow (os x))) >>= k :=
  hp.retrace fun x => .overflow (os x)

/-- A level changes no patch. -/
theorem Patches.nested (hp : Patches c t p) : Patches c t fun x => (p x).nested := by
  obtain ⟨patch, patched, sound⟩ := hp
  exact ⟨patch, patched, fun x => (sound x).nested⟩

/-- What is read first is settled by the bytes, and settles how the destination is patched. -/
theorem patches_bind {r : Parse α} (first : r.Sound P) {k : α → Datum → Parse Datum}
    (then' : ∀ a, Patches c t (k a)) : Patches c t fun x => r >>= fun a => k a x := by
  choose patch patched sound using then'
  -- a patch is told all the bytes, so it reads the first of them once more to know the rest
  refine ⟨fun u => match r (.start u) with
    | some (a, c') => patch a c'.rest
    | none => fun x => x, fun u => ?_, fun x => ?_⟩
  · dsimp only
    split
    · exact patched _ _
    · exact .keep fun _ => rfl
  · refine (first.takes.bind fun a => sound a x).mono ?_
    rintro _ y ⟨v, w, a, rfl, ⟨-, takes⟩, rfl⟩
    obtain ⟨_, run⟩ := takes 0 w {}
    simp only [Cursor.start, run]

/-- **A destination that is patched and patched again is patched**, where the first patch comes from
one value. -/
theorem Patches.bind (hp : Patches c t p) (whole : ∀ x, (p x).Whole 1) (hq : Patches c t q) :
    Patches c t fun x => p x >>= q := by
  obtain ⟨first, patched, sound⟩ := hp
  obtain ⟨second, patched', sound'⟩ := hq
  refine ⟨fun u => match splitValue u with
    | some (v, w) => fun x => second w (first v x)
    | none => fun x => x, fun u => ?_, fun x => ?_⟩
  · dsimp only
    split
    · exact (patched' _).comp (patched _)
    · exact .keep fun _ => rfl
  · refine (((whole x).and (sound x)).bind sound').mono ?_
    rintro _ y ⟨v, w, mid, rfl, ⟨value, rfl⟩, rfl⟩
    simp only [splitValue_append value]

/-- Nil and anything else are patches each. -/
theorem patches_tryNil (nil : Patches c t p) (other : Patches c t q)
    (whole : ∀ x, (q x).Whole 1) :
    Patches c t fun x => tryNil.parse >>= fun found => if found then p x else q x := by
  obtain ⟨first, patched, sound⟩ := nil
  obtain ⟨second, patched', sound'⟩ := other
  refine ⟨fun u => if u.head? = some Header.nil.toByte then first u.tail else second u,
    fun u => ?_, fun x => ?_⟩
  · dsimp only
    split
    · exact patched _
    · exact patched' _
  · refine (sound_tryNil (sound x) ((whole x).and (sound' x)) fun u y h =>
      Whole.ne_nil h.1).mono ?_
    rintro _ y (⟨v, rfl, rfl⟩ | ⟨b, v, rfl, ne, -, rfl⟩)
    · simp
    · simp [ne]

/-! ## 2. Extensions -/

variable {cx : Context}

/-- A payload settles the datum, and a nil keeps the old one. -/
theorem patches_extension (host : Host) :
    Patches c t fun x => parse (extension cx host x) := by
  simp only [parse_extension]
  refine patches_bind (sound_ext .ext) fun e => ?_
  rcases e with _ | ⟨tag, payload⟩
  · exact patches_keep
  · dsimp only
    cases bound? cx host tag payload with
    | none => exact patches_failure
    | some y => exact patches_pure y

/-- A clock time goes through its timestamp, and nil tells it anew. -/
theorem patches_clockTime : Patches c .clockTime fun x => parse (clockTime cx x) := by
  simp only [parse_clockTime]
  -- What overflows on the way to the timestamp is noted before the extension is read.
  refine Patches.overflow ?_
  simp only [parse_extension, bind_assoc]
  refine patches_bind (sound_ext .ext) fun e => ?_
  rcases e with _ | ⟨tag, payload⟩
  · refine ⟨fun _ d => .clockTime d.asClockTime, fun _ => .clock fun _ => rfl, fun x => ?_⟩
    simp only [pure_bind, Datum.asTimestamp, ClockTime.toClockTime?_toTimestamp]
    exact sound_pure rfl
  · dsimp only
    cases bound? cx .timestamp tag payload with
    | none => exact patches_failure
    | some y =>
      simp only [pure_bind]
      cases y.asTimestamp.toClockTime? with
      | none => exact patches_failure
      | some a => exact patches_pure (.clockTime a)

/-! ## 3. Tuples and options -/

/-- An option is emptied, or filled and patched. -/
theorem Patches.option (hp : Patches c t p) (whole : ∀ x, (p x).Whole 1) :
    Patches c (.option t) fun x => tryNil.parse >>= fun nil =>
      if nil then pure .absent
      else p (x.held?.getD (c.initial t)) >>= fun y => pure (.present y) := by
  refine patches_tryNil (patches_pure .absent) ?_ fun x => (whole _).map
  obtain ⟨patch, patched, sound⟩ := hp
  refine ⟨fun u x => .present (patch u (x.held?.getD (c.initial t))),
    fun u => .fill (patched u) fun _ => rfl, fun x => (sound _).map ?_⟩
  rintro u y rfl
  rfl

variable {r : Ty → InPlace} {id : RecordId}

/-- The parts of a tuple are patched each, and what is left over stays. -/
theorem exists_patches_parts (each : ∀ t, Patches c t fun x => parse (r t x))
    (whole : ∀ t x, (parse (r t x)).Whole 1) (ts : List Ty) :
    ∃ patch : List UInt8 → Nat → Datum → Datum,
      (∀ u i t, ts[i]? = some t → c.Patch t (patch u i)) ∧
      ∀ ds, (parse (parts c.initial r ts ds)).Sound fun u y =>
        y = .seq (c.alterParts ts (patch u) ds) := by
  induction ts with
  | nil =>
    refine ⟨fun _ _ x => x, fun u i t part => ?_, fun ds => sound_pure rfl⟩
    simp at part
  | cons t ts ih =>
    obtain ⟨first, patched, sound⟩ := each t
    obtain ⟨rest, patched', sound'⟩ := ih
    -- where the first part's bytes end is a matter of the bytes alone
    refine ⟨fun u i => match splitValue u, i with
      | some (v, _), 0 => first v
      | some (_, w), i + 1 => rest w i
      | none, _ => fun x => x, fun u i t' part => ?_, fun ds => ?_⟩
    · dsimp only
      split
      · cases part
        exact patched _
      · exact patched' _ _ _ part
      · exact .keep fun _ => rfl
    · rw [parse_parts_cons]
      have joined (x : Datum) : (parse (parts c.initial r ts ds.tail) >>= fun rest =>
          pure (Datum.seq (x :: rest.items))).Sound fun w y =>
            y = Datum.seq (x :: c.alterParts ts (rest w) ds.tail) := by
        refine (sound' ds.tail).map ?_
        rintro w y rfl
        rfl
      refine (((whole t _).and (sound _)).bind joined).mono ?_
      rintro _ y ⟨v, w, x, rfl, ⟨value, rfl⟩, rfl⟩
      simp only [alterParts, splitValue_append value]

/-- A tuple is patched part by part. -/
theorem patches_tuple (ts : List Ty)
    {deeper : Option (Ty → InPlace)}
    (each : ∀ r, deeper = some r → ∀ t, Patches c t fun x => parse (r t x))
    (whole : ∀ r, deeper = some r → ∀ t x, (parse (r t x)).Whole 1) :
    Patches c (.tuple ts) fun x => parse (tuple deeper c.initial ts x) := by
  simp only [parse_tuple]
  refine patches_bind (sound_arrayLength .array) fun length => ?_
  cases length with
  | none => exact patches_keep
  | some n =>
    dsimp only
    split
    · cases deeper with
      | none => exact patches_failure
      | some r =>
        obtain ⟨patch, patched, sound⟩ := exists_patches_parts (each r rfl) (whole r rfl) ts
        exact ⟨fun u x => .seq (c.alterParts ts (patch u) x.items),
          fun u => .parts (patched u) fun _ => rfl, fun x => (sound x.items).nested⟩
    · exact patches_failure

/-! ## 4. Records -/

/-- Readers whose patches are known, nil being one that leaves zeros alone, where fresh records are
made of zeros. -/
structure Known (c : Catalog) (r : Ty → InPlace) (change : List UInt8 → Ty → Datum → Datum) :
    Prop where
  zero : c.ZeroDefaults
  patch : ∀ u t, c.Patch t (change u t)
  nil : ∀ t, change [Header.nil.toByte] t (c.initial t) = c.initial t
  reads : ∀ t x, (parse (r t x)).Sound fun u y => y = change u t x
  whole : ∀ t x, (parse (r t x)).Whole 1

variable {change : List UInt8 → Ty → Datum → Datum} {cx : Context}

/-- What an entry or a value makes of a record is a patch. -/
theorem Known.slotOrSkip (known : Known cx.catalog r change) (found : Option Slot) :
    Patches cx.catalog (.record id) fun x => parse (slotOrSkip cx r id x found) := by
  refine ⟨fun u => slotChange cx.catalog change id u found, fun u => ?_, fun x =>
    sound_slotOrSkip_change known.reads known.whole x found⟩
  cases found with
  | none => exact .keep fun _ => rfl
  | some s =>
    refine .alter known.zero (known.patch u) (fun nil => ?_) id s.path
    rw [not_not.1 (of_decide_eq_false nil)]
    exact known.nil

/-- An array patches a record value by value, -/
theorem Known.slots (known : Known cx.catalog r change) (n : Nat) (ss : List Slot) :
    Patches cx.catalog (.record id) fun x => parse (slots cx r id n ss x) := by
  induction n generalizing ss with
  | zero => exact patches_keep
  | succ n ih =>
    simp only [parse_slots_succ]
    exact (known.slotOrSkip ss.head?).bind (fun x => whole_slotOrSkip known.whole x ss.head?)
      (ih ss.tail)

/-- a map entry by entry, -/
theorem Known.namedSlots (known : Known cx.catalog r change) (layout : Layout) (n : Nat) :
    Patches cx.catalog (.record id) fun x => parse (namedSlots cx r id layout n x) := by
  induction n with
  | zero => exact patches_keep
  | succ n ih =>
    simp only [parse_namedSlots_succ]
    refine patches_bind (whole_slotNamed layout) fun found => ?_
    exact (known.slotOrSkip found).bind (fun x => whole_slotOrSkip known.whole x found) ih

/-- so either patches it. -/
theorem Known.fields (known : Known cx.catalog r change) :
    Patches cx.catalog (.record id) fun x => parse (fields cx r id x) := by
  cases mode : cx.mode with
  | positional =>
    simp only [parse_fields_positional mode]
    refine patches_bind (sound_arrayLength .record) fun length => ?_
    cases length with
    | none => exact patches_keep
    | some n => exact known.slots n (cx.layout id).slots
  | named =>
    simp only [parse_fields_named mode]
    refine patches_bind (sound_mapLength .record) fun length => ?_
    cases length with
    | none => exact patches_keep
    | some n => exact known.namedSlots (cx.layout id) n

end InPlace

/-! ## 5. All types -/

namespace Datum

open Parse Read Decoded InPlace Catalog

variable {cx : Context} {n : Nat}

/-- A type that forgets what its destination held. -/
theorem patches_read_of_forgetful {t : Ty}
    (same : ∀ x y, parse (read cx n t x) = parse (read cx n t y)) :
    Patches cx.catalog t fun x => parse (read cx n t x) := by
  have one : (fun x => parse (read cx n t x)) = fun _ => parse (read cx n t .absent) :=
    funext fun x => same x .absent
  rw [one]
  exact patches_write (whole_read cx n t .absent)

/-- All types leave patched destinations, if all do one level down. -/
theorem patches_read_of
    (below : ∀ r, oneDown cx n = some r → ∃ change, Known cx.catalog r change) :
    ∀ t : Ty, Patches cx.catalog t fun x => parse (read cx n t x)
  | .bool => patches_read_of_forgetful fun x y => by rw [parse_read_bool, parse_read_bool]
  | .number t => patches_read_of_forgetful fun x y => by rw [parse_read_number, parse_read_number]
  | .text => patches_read_of_forgetful fun x y => by rw [parse_read_text, parse_read_text]
  | .bytes => patches_read_of_forgetful fun x y => by rw [parse_read_bytes, parse_read_bytes]
  | .dynamic => patches_read_of_forgetful fun x y => by
    rw [parse_read_dynamic, parse_read_dynamic]
  | .list t => patches_read_of_forgetful fun x y => by
    simp only [read_eq, readStep, parse_sequence, parse_byteList, parse_list]
  | .array length t => patches_read_of_forgetful fun x y => by
    simp only [read_eq, readStep, parse_array]
  | .map order kt vt => patches_read_of_forgetful fun x y => by
    simp only [read_eq, readStep, parse_map]
  | .timestamp => by
    simp only [read_eq, readStep]
    exact patches_extension .timestamp
  | .clockTime => by
    simp only [read_eq, readStep]
    exact patches_clockTime
  | .tuple ts => by
    simp only [read_eq, readStep]
    refine patches_tuple ts (fun r known t => ?_) fun r known t x => ?_
    · obtain ⟨change, known⟩ := below r known
      exact ⟨fun u => change u t, fun u => known.patch u t, known.reads t⟩
    · obtain ⟨change, known⟩ := below r known
      exact known.whole t x
  | .option t => by
    simp only [parse_read_option]
    exact (patches_read_of below t).option (whole_read cx n t)
  | .box t => by
    obtain ⟨patch, patched, sound⟩ := patches_read_of below t
    simp only [read_box]
    exact ⟨patch, fun u => .box (patched u), sound⟩
  | .record id => by
    simp only [read_eq, readStep]
    cases bound : cx.isBound id with
    | true =>
      simp only [parse_record_bound bound]
      exact patches_extension (.record id)
    | false =>
      simp only [parse_record bound]
      cases down : oneDown cx n with
      | none => exact patches_failure
      | some r =>
        obtain ⟨change, known⟩ := below r down
        exact known.fields.nested.retrace fun _ => .consult id

/-- What the bytes make of a destination of any type is known, nil included. -/
theorem exists_known (zero : cx.catalog.ZeroDefaults)
    (patches : ∀ t, Patches cx.catalog t fun x => parse (read cx n t x)) :
    ∃ change, Known cx.catalog (read cx n) change := by
  choose patch patched sound using patches
  -- a nil may leave the old datum or a fresh one, by the type: the patch for it is fixed
  refine ⟨fun u t => if u = [Header.nil.toByte] then cx.catalog.afterNil t else patch t u, zero,
    fun u t => ?_, fun t => ?_, fun t x => ?_, whole_read cx n⟩
  · split
    · exact .afterNil _ t
    · exact patched t u
  · rw [if_pos rfl]
    exact cx.catalog.afterNil_initial t
  · refine (sound t x).takes.mono ?_
    rintro u y ⟨rfl, takes⟩
    split
    · rename_i nil
      subst nil
      exact eq_afterNil_of_takes takes
    · rfl

/-- **Whatever is read into a destination leaves it patched**, whatever the type, the levels and the
mode. -/
theorem patches_read (zero : cx.catalog.ZeroDefaults) (n : Nat) (t : Ty) :
    Patches cx.catalog t fun x => parse (read cx n t x) := by
  induction n generalizing t with
  | zero => exact patches_read_of (fun r none' => by cases none') t
  | succ n ih =>
    refine patches_read_of (fun r known => ?_) t
    cases known
    exact exists_known zero ih

end Datum

/-! ## 6. Whole operations -/

namespace Codec

open Parse Decoded

variable {c : Codec} {t : Ty} {d : Datum} {input : List UInt8} {mode : Mode}

/-- **Decoding the same input twice is the same as decoding it once**, where the defaults of records
are zeros. -/
theorem decodeInto_twice (zero : c.catalog.ZeroDefaults)
    (first : (c.decodeInto t d input mode).1 = .ok ())
    (second : ((c.decodeInto t d input mode).2.2.decodeInto t (c.decodeInto t d input mode).2.1
      input mode).1 = .ok ()) :
    ((c.decodeInto t d input mode).2.2.decodeInto t (c.decodeInto t d input mode).2.1
      input mode).2.1 = (c.decodeInto t d input mode).2.1 := by
  have zeros : (c.context mode).catalog.ZeroDefaults := zero
  obtain ⟨patch, patched, sound⟩ := Datum.patches_read zeros maxDepth t
  have left : (c.decodeInto t d input mode).2.1 = patch input d :=
    holds_of_accepted first (sound d)
  -- the second call does not see the layouts that the first one kept
  have context : (c.decodeInto t d input mode).2.2.context mode = c.context mode :=
    context_rememberAll ..
  have again := holds_of_accepted second (context ▸ sound _)
  rw [again, left]
  exact (patched input).idem d

/-- A nil for a field of an absent record, and then another field of that record twice.  The second
time the record is there for the nil as well. -/
theorem decodeInto_twice_nested :
    let c := fresh (Catalog.nestedCatalog false)
    let d : Datum := .record [.absent, .int 9]
    let input : List UInt8 := [0x83, 0xa3, 109, 105, 100, 0xc0, 0xa4, 108, 101, 97, 102, 7,
      0xa4, 108, 101, 97, 102, 8]
    let first := c.decodeInto (.record 2) d input .named
    let second := first.2.2.decodeInto (.record 2) first.2.1 input .named
    c.catalog.ZeroDefaults ∧ first.1 = .ok () ∧ second.1 = .ok () ∧
      first.2.1 = .record [.present (.record [.int 0, .present (.record [.int 8])]), .int 9] ∧
      second.2.1 = first.2.1 := by
  intro c d input first second
  have accepted : first.1 = .ok () := by decide +kernel
  have accepted' : second.1 = .ok () := by decide +kernel
  have zero : c.catalog.ZeroDefaults := .of_all rfl
  exact ⟨zero, accepted, accepted', by decide +kernel, decodeInto_twice zero accepted accepted'⟩

end Codec

end MessagePack
