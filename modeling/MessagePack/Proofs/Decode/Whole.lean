import MessagePack.Proofs.Decode.Levels
/-!
# Whatever is read is complete

Reading is led by a type, skipping by headers alone.  They agree nevertheless on where a value
ends: a reader of any type, into any destination, at any level and in either mode takes exactly one
complete value whenever it succeeds, and `Read.skip` takes every complete value.

`Parse.Whole p count` says that `p` takes `count` complete values when it succeeds.  It holds of
every reader: a nil that stands for a whole container is a value, a nil that an absent embedded
record leaves unread is one too, and a slot or an entry that belongs to no field is skipped whole.

Main statements: `Datum.whole_read` and `Datum.skip_of_read`.
-/

namespace MessagePack

namespace Parse

variable {α β : Type} {p q : Parse α} {f : α → Parse β} {i j count each : Nat}

/-! ## 1. Laws -/

/-- What is taken on success is so many complete values. -/
def Whole (p : Parse α) (count : Nat) : Prop := p.Sound fun u _ => ∃ k, Complete k count u

/-- What takes nothing takes no value. -/
theorem whole_pure (a : α) : (pure a : Parse α).Whole 0 := sound_pure ⟨0, .none⟩

/-- What always fails takes any number of values, for it takes none that could be counted. -/
theorem whole_failure : (failure : Parse α).Whole count := sound_failure

/-- What has no parts is one value. -/
theorem whole_of_flat (flat : p.Sound fun u _ => Flat u) : p.Whole 1 :=
  flat.mono fun _ _ h => ⟨0, h.complete 0⟩

/-- What is read so at every level is complete. -/
theorem Levels.whole {p : Nat → Parse α} {n : Nat} (hp : Levels p count n) : (p n).Whole count :=
  hp.mono fun _ _ h => h.complete

/-- One after another, values add up. -/
theorem Whole.bind (hp : p.Whole i) (hf : ∀ a, (f a).Whole j) : (p >>= f).Whole (i + j) := by
  refine (Sound.bind hp hf).mono ?_
  rintro u b ⟨v, w, a, rfl, hv, hw⟩
  exact Complete.exists_append hv hw

theorem Whole.map {g : α → β} (hp : p.Whole count) :
    (p >>= fun a => pure (g a)).Whole count :=
  hp.bind fun a => whole_pure (g a)

/-- A value has at least one byte. -/
theorem Whole.ne_nil {u : List UInt8} (h : ∃ k, Complete k (count + 1) u) : u ≠ [] := by
  obtain ⟨k, complete⟩ := h
  exact complete.ne_nil

end Parse

namespace Read

open Parse Header

variable {α : Type} {p : Parse α} {count each : Nat}

/-- The next header decides what is read. -/
theorem whole_peekHeader {next : UInt8 × Header → Parse α}
    (each : ∀ b, (next (b, ofByte b)).Whole 1) : (peekHeader.parse >>= next).Whole 1 := by
  refine (sound_peekHeader each fun b u a h => Whole.ne_nil h).mono ?_
  rintro u a ⟨b, v, -, h⟩
  exact h

/-- A look at a key takes nothing. -/
theorem whole_checkKey (hp : p.Whole (count + 1)) :
    (checkKey.parse >>= fun _ => p).Whole (count + 1) := by
  refine (sound_checkKey hp fun u a h => Whole.ne_nil h).mono ?_
  rintro u a ⟨b, v, -, -, h⟩
  exact h

/-- A nil is a value of its own. -/
theorem whole_tryNil {q : Parse α} (nil : q.Whole 0) (other : p.Whole 1) :
    (tryNil.parse >>= fun found => if found then q else p).Whole 1 := by
  refine (sound_tryNil nil other fun u a h => Whole.ne_nil h).mono ?_
  rintro u a (⟨v, rfl, rest⟩ | ⟨b, v, -, -, h⟩)
  · exact Complete.exists_append ⟨0, Flat.nil.complete 0⟩ rest
  · exact h

/-- **The header of an array or a map, and the values that it owes, are one value.** -/
theorem whole_opens {q : Parse (Option Nat)} {next : Option Nat → Parse α}
    (opens : q.Sound (Opens each)) (nil : (next none).Whole 0)
    (inside : ∀ n, (next (some n)).Whole (each * n)) : (q >>= next).Whole 1 := by
  -- what follows the header depends on the length that it announces
  have owed : ∀ length, (next length).Sound fun w _ =>
      ∃ k, Complete k ((length.map (each * ·)).getD 0) w := by
    intro length
    cases length with
    | none => exact nil
    | some n => exact inside n
  refine (Sound.bind opens owed).mono ?_
  rintro u a ⟨v, w, length, rfl, opened, k, complete⟩
  cases length with
  | none =>
    obtain rfl : v = [Header.nil.toByte] := opened
    exact Complete.exists_append ⟨0, Flat.nil.complete 0⟩ ⟨k, complete⟩
  | some n =>
    obtain ⟨b, body, rfl, deep, own⟩ := opened
    rw [← toByte_ofByte b]
    exact ⟨k + 1, .of_deep (stands_ofByte b) deep own complete⟩

/-- What is skipped is one value. -/
theorem whole_skip : skip.parse.Whole 1 := sound_skip

end Read

/-! ## 2. Lists, tuples and maps -/

namespace InPlace

open Parse Read Decoded Datum

variable {cx : Context} {t : Ty} {zero d : Datum} {count : Nat}

theorem whole_descended {β : Type} {deeper : Option β} {next : β → Parse Datum}
    (each : ∀ r, deeper = some r → (next r).Whole count) : (descended deeper next).Whole count := by
  cases deeper with
  | none => exact whole_failure
  | some r => exact Sound.nested (each r rfl)

/-- As many elements, as many values. -/
theorem whole_elements {elem : InPlace} (each : (parse (elem zero)).Whole 1) (n : Nat)
    (done : List Datum) : (parse (elements elem zero n done)).Whole n := by
  induction n generalizing done with
  | zero => exact whole_pure _
  | succ n ih =>
    rw [parse_elements_succ, Nat.add_comm]
    exact each.bind fun x => ih (x :: done)

theorem whole_list {deeper : Option InPlace}
    (each : ∀ r, deeper = some r → (parse (r zero)).Whole 1) :
    (parse (list deeper zero d)).Whole 1 := by
  rw [parse_list]
  refine whole_opens (sound_arrayLength .array) (whole_pure _) fun n => ?_
  rw [Nat.one_mul]
  exact whole_descended fun r hr => whole_elements (each r hr) n []

variable {deeper : Option (Ty → InPlace)}
  (below : ∀ r, deeper = some r → ∀ t d, (parse (r t d)).Whole 1)
include below

theorem whole_sequence (t : Ty) : (parse (sequence deeper t zero d)).Whole 1 := by
  have elem : ∀ r, deeper.map (fun r => r t) = some r → (parse (r zero)).Whole 1 := by
    intro r hr
    obtain ⟨r, known, rfl⟩ := Option.map_eq_some_iff.1 hr
    exact below r known t zero
  rw [parse_sequence]
  split
  · rw [parse_byteList]
    refine whole_peekHeader fun b => ?_
    split
    · exact (whole_of_flat (sound_raw .bin)).map
    · exact whole_list elem
  · exact whole_list elem

theorem whole_array (length : Nat) (t : Ty) :
    (parse (array deeper length t zero d)).Whole 1 := by
  rw [parse_array]
  refine whole_tryNil (whole_pure _) (Whole.bind (j := 0) (whole_sequence below t) fun read => ?_)
  split
  · exact whole_pure read
  · exact whole_failure

omit below in
theorem whole_parts {r : Ty → InPlace} (each : ∀ t d, (parse (r t d)).Whole 1)
    (fresh : Ty → Datum) (ts : List Ty) (ds : List Datum) :
    (parse (parts fresh r ts ds)).Whole ts.length := by
  induction ts generalizing ds with
  | nil => exact whole_pure _
  | cons t ts ih =>
    rw [parse_parts_cons, List.length_cons, Nat.add_comm]
    exact (each t _).bind fun x => (ih ds.tail).map

theorem whole_tuple (fresh : Ty → Datum) (ts : List Ty) :
    (parse (tuple deeper fresh ts d)).Whole 1 := by
  rw [parse_tuple]
  refine whole_opens (sound_arrayLength .array) (whole_pure d) fun n => ?_
  rw [Nat.one_mul]
  dsimp only
  split
  · rename_i same
    rw [same]
    exact whole_descended fun r hr => whole_parts (below r hr) fresh ts _
  · exact whole_failure

omit below in
/-- As many entries, twice as many values. -/
theorem whole_bindings {order : MapOrder} {key value : InPlace} {keyZero valueZero : Datum}
    (keys : (parse (key keyZero)).Whole 1) (values : (parse (value valueZero)).Whole 1) (n : Nat)
    (done : List (Datum × Datum)) :
    (parse (bindings order key value keyZero valueZero n done)).Whole (2 * n) := by
  induction n generalizing done with
  | zero => exact whole_pure _
  | succ n ih =>
    have entry := keys.bind fun x => values.bind fun y => ih (order.insert x y done)
    rw [show 1 + (1 + 2 * n) = 1 + 2 * n + 1 by omega] at entry
    rw [parse_bindings_succ, show 2 * (n + 1) = 1 + 2 * n + 1 by omega]
    exact whole_checkKey entry

theorem whole_map (order : MapOrder) (kt vt : Ty) (keyZero valueZero : Datum) :
    (parse (map deeper order kt vt keyZero valueZero d)).Whole 1 := by
  rw [parse_map]
  refine whole_opens (sound_mapLength .map) (whole_pure _) fun n => ?_
  exact whole_descended fun r hr => whole_bindings (below r hr kt _) (below r hr vt _) n []

omit below

/-! ## 3. Records -/

section Records

variable {id : RecordId} {r : Ty → InPlace} (each : ∀ t d, (parse (r t d)).Whole 1)
include each

/-- A value for a slot is one value, whatever becomes of it. -/
theorem whole_intoSlot (s : Slot) (d : Datum) : (parse (intoSlot cx r id s d)).Whole 1 := by
  rw [parse_intoSlot]
  split
  · exact whole_failure
  · exact (each _ _).map

/-- One value goes to a slot, also to one whose embedded record is absent, or to none. -/
theorem whole_slotOrSkip (d : Datum) (found : Option Slot) :
    (parse (slotOrSkip cx r id d found)).Whole 1 := by
  cases found with
  | none =>
    rw [slotOrSkip, parse_skipping]
    exact whole_skip.map
  | some s =>
    rw [slotOrSkip, parse_slot]
    split
    · exact whole_tryNil (whole_pure d) (whole_intoSlot each s d)
    · exact whole_intoSlot each s d

theorem whole_slots (n : Nat) (ss : List Slot) (d : Datum) :
    (parse (slots cx r id n ss d)).Whole n := by
  induction n generalizing ss d with
  | zero => exact whole_pure d
  | succ n ih =>
    rw [parse_slots_succ, Nat.add_comm]
    exact (whole_slotOrSkip each d _).bind fun d => ih ss.tail d

omit each in
/-- A key is one value, whether or not it names a slot. -/
theorem whole_slotNamed (layout : Layout) : (slotNamed layout).parse.Whole 1 := by
  unfold slotNamed
  rw [parse_bind]
  refine whole_checkKey ?_
  rw [parse_bind]
  refine whole_peekHeader fun b => ?_
  dsimp only
  split
  · rw [parse_bind]
    exact (whole_of_flat sound_text).map
  · rw [parse_bind]
    exact whole_skip.map

theorem whole_namedSlots (layout : Layout) (n : Nat) (d : Datum) :
    (parse (namedSlots cx r id layout n d)).Whole (2 * n) := by
  induction n generalizing d with
  | zero => exact whole_pure d
  | succ n ih =>
    rw [parse_namedSlots_succ, show 2 * (n + 1) = 1 + (1 + 2 * n) by omega]
    exact (whole_slotNamed layout).bind fun found => (whole_slotOrSkip each d found).bind ih

/-- The fields of a record, under the header of an array or of a map, are one value. -/
theorem whole_fields (d : Datum) : (parse (fields cx r id d)).Whole 1 := by
  cases mode : cx.mode with
  | positional =>
    rw [parse_fields_positional mode]
    refine whole_opens (sound_arrayLength .record) (whole_pure d) fun n => ?_
    rw [Nat.one_mul]
    exact whole_slots each n _ d
  | named =>
    rw [parse_fields_named mode]
    exact whole_opens (sound_mapLength .record) (whole_pure d) fun n =>
      whole_namedSlots each _ n d

end Records

include below in
/-- So is a record, bound or not. -/
theorem whole_record (id : RecordId) (d : Datum) : (parse (record cx deeper id d)).Whole 1 := by
  cases bound : cx.isBound id with
  | true =>
    rw [parse_record_bound bound]
    exact whole_of_flat (sound_extension (.record id))
  | false =>
    rw [parse_record bound]
    exact Sound.retrace (whole_descended fun r hr => whole_fields (below r hr) d) _

end InPlace

/-! ## 4. All types -/

namespace Datum

open Parse Read Decoded InPlace

variable {cx : Context} {n : Nat}

/-- A type is read so, if all types are one level down. -/
theorem whole_read_of (below : ∀ r, oneDown cx n = some r → ∀ t d, (parse (r t d)).Whole 1) :
    ∀ (t : Ty) (d : Datum), (parse (read cx n t d)).Whole 1
  | .bool, d => by
    rw [parse_read_bool]
    exact (whole_of_flat sound_bool).map
  | .number t, d => by
    rw [parse_read_number]
    exact whole_of_flat (sound_narrowed _ _ t)
  | .text, d => by
    rw [parse_read_text]
    exact (whole_of_flat sound_text).map
  | .bytes, d => by
    rw [parse_read_bytes]
    exact (whole_of_flat (sound_raw .bin)).map
  | .dynamic, d => by
    rw [parse_read_dynamic]
    exact (Value.levels_read cx.registry n).whole.map
  | .timestamp, d => by
    rw [read_eq, readStep]
    exact whole_of_flat (sound_extension .timestamp)
  | .clockTime, d => by
    rw [read_eq, readStep]
    exact whole_of_flat sound_clockTime
  | .list t, d => by
    rw [read_eq, readStep]
    exact whole_sequence below t
  | .array length t, d => by
    rw [read_eq, readStep]
    exact whole_array below length t
  | .tuple ts, d => by
    rw [read_eq, readStep]
    exact whole_tuple below cx.catalog.initial ts
  | .option t, d => by
    rw [parse_read_option]
    exact whole_tryNil (whole_pure _) (whole_read_of below t _).map
  | .box t, d => by
    rw [read_box]
    exact whole_read_of below t d
  | .map order kt vt, d => by
    rw [read_eq, readStep]
    exact whole_map below order kt vt _ _
  | .record id, d => by
    rw [read_eq, readStep]
    exact whole_record below id d

/-- **A reader that succeeds took one complete value**, whatever the type, the destination, the
mode, the bindings and the levels left. -/
theorem whole_read (cx : Context) (n : Nat) (t : Ty) (d : Datum) :
    (parse (read cx n t d)).Whole 1 := by
  induction n generalizing t d with
  | zero => exact whole_read_of (fun r none' => by cases none') t d
  | succ n ih =>
    refine whole_read_of (fun r known => ?_) t d
    cases known
    exact ih

variable {t : Ty} {d : Datum} {c : Cursor}

/-- **Where reading succeeds, skipping from the same place ends where reading does.** -/
theorem skip_of_read (success : (read cx n t d c).outcome = .ok ()) :
    (Read.skip c).1 = .ok () ∧
      (Read.skip c).2.position = (read cx n t d c).cursor.position ∧
      (Read.skip c).2.rest = (read cx n t d c).cursor.rest := by
  have run : parse (read cx n t d) c =
      some ((read cx n t d c).dest, (read cx n t d c).cursor) := by
    unfold Decoded.parse
    split
    · rename_i e
      rw [e]
    · rename_i e
      rw [e] at success
      cases success
  obtain ⟨used, took, ⟨k, complete⟩, takes⟩ := whole_read cx n t d c _ _ run
  obtain ⟨known, read⟩ := takes.run took
  obtain ⟨known', skipped⟩ := (takes_skip complete).run took
  rw [run] at read
  rw [parse_eq_some.1 skipped, (Prod.mk.inj (Option.some.inj read)).2]
  exact ⟨rfl, rfl, rfl⟩

/-- A record of one byte, and an input with an entry for it behind one that names no field and holds
an array; one more byte follows. -/
theorem skip_of_read_unknown_entry :
    let catalog : Catalog :=
      { records := [{ name := "Note", fields := [{ name := "a", type := .byte }] }] }
    let cx := (Codec.fresh catalog).context .named
    let c := Cursor.start [0x82, 0xa1, 98, 0x91, 0xc3, 0xa1, 97, 5, 7]
    (read cx 1 (.record 0) (.record [.int 1]) c).outcome = .ok () ∧
      (Read.skip c).1 = .ok () ∧ (Read.skip c).2.position = 8 ∧ (Read.skip c).2.rest = [7] := by
  intro catalog cx c
  have success : (read cx 1 (.record 0) (.record [.int 1]) c).outcome = .ok () := by decide +kernel
  have ended : (read cx 1 (.record 0) (.record [.int 1]) c).cursor =
      ⟨8, [7], { consulted := [0] }⟩ := by decide +kernel
  have skipped := skip_of_read success
  rw [ended] at skipped
  exact ⟨success, skipped⟩

end Datum

end MessagePack
