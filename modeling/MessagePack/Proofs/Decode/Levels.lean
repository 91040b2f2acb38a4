import MessagePack.Proofs.Decode.InPlace
import MessagePack.Proofs.Decode.Value
/-!
# Reading at different levels

How deep a reader may go decides only whether it runs out of levels.  `Parse.Levels p count n` says
of a reader `p` that knows how many levels are left: what it takes with `n` levels left is `count`
complete values, and it takes them, with the same result, whenever the levels that are left leave
room for their nesting.

All types have this property that hold no record which goes by its fields.  Main statement:
`Context.levels_read`.
-/

namespace MessagePack

namespace Parse

variable {α β : Type} {p : Nat → Parse α} {f : Nat → α → Parse β} {count i j n : Nat} {a : α}
  {u : List UInt8}

/-! ## 1. Laws

`Parse.Levels p count n` compares what a parse does with `n` levels and with any other number.  It
is kept by everything that parses are composed of, `count` telling how many complete values are
taken on the way. -/

/-- These are complete values, and they are taken wherever the levels leave room for them. -/
structure Levelled (p : Nat → Parse α) (count : Nat) (u : List UInt8) (a : α) : Prop where
  complete : ∃ k, Complete k count u
  takes : ∀ m, Complete m count u → (p m).Takes u a

/-- What is taken with `n` levels left is taken wherever the levels leave room for it. -/
def Levels (p : Nat → Parse α) (count n : Nat) : Prop := (p n).Sound (Levelled p count)

/-- What is returned needs no level. -/
theorem levels_pure (a : α) : Levels (fun _ => pure a) 0 n :=
  sound_pure ⟨⟨0, .none⟩, fun _ _ => takes_pure a⟩

/-- What fails with these levels succeeds with them nowhere. -/
theorem levels_of_failure (none' : p n = failure) : Levels p count n := by
  unfold Levels
  rw [none']
  exact sound_failure

/-- A reader of one value without levels. -/
theorem levels_of_flat {q : Parse α} (flat : q.Sound fun u _ => Flat u) :
    Levels (fun _ => q) 1 n :=
  flat.takes.mono fun _ _ h => ⟨⟨0, h.1.complete 0⟩, fun _ _ => h.2⟩

/-- One after another they need the levels of both. -/
theorem Levels.bind (hp : Levels p i n) (hf : ∀ a, Levels (fun m => f m a) j n) :
    Levels (fun m => p m >>= f m) (i + j) n := by
  refine (Sound.bind hp hf).mono ?_
  rintro u b ⟨v, w, a, rfl, first, second⟩
  obtain ⟨k, hv⟩ := first.complete
  refine ⟨Complete.exists_append first.complete second.complete, fun m room => ?_⟩
  obtain ⟨roomV, roomW⟩ := room.of_append hv
  exact (first.takes m roomV).bind (second.takes m roomW)

/-- To make something of a result needs no more. -/
theorem Levels.map {g : α → β} (hp : Levels p count n) :
    Levels (fun m => p m >>= fun a => pure (g a)) count n :=
  hp.bind fun a => levels_pure (g a)

/-- Counting a level changes nothing about what is taken. -/
theorem Levels.nested (hp : Levels p count n) : Levels (fun m => (p m).nested) count n := by
  refine (Sound.nested hp).takes.mono ?_
  rintro u a ⟨levelled, -⟩
  exact ⟨levelled.complete, fun m room => (levelled.takes m room).nested⟩

/-- Whatever the value begins with. -/
theorem Levels.at (hp : Levels p 1 n) (b : UInt8) : (p n).Sound (Ahead b (Levelled p 1)) := by
  refine hp.ahead (fun u a h => ?_) b
  obtain ⟨k, complete⟩ := h.complete
  exact complete.ne_nil

end Parse

namespace Read

open Parse Header

variable {α : Type} {p : Nat → Parse α} {count n : Nat} {a : α}

/-! ## 2. Looking ahead

A look takes nothing, so that the levels are those of what is behind it.  What was looked at is the
first byte of the value, and its header tells whether a level is to be taken. -/

/-- The next header decides what is read, which must start with that header. -/
theorem levels_peekHeader {next : Nat → UInt8 × Header → Parse α}
    (each : ∀ b, (next n (b, ofByte b)).Sound
      (Ahead b (Levelled (fun m => next m (b, ofByte b)) 1))) :
    Levels (fun m => peekHeader.parse >>= next m) 1 n := by
  refine (sound_peekHeader each fun b u a h => h.ne_nil).mono ?_
  · rintro u a ⟨b, v, rfl, h⟩
    have levelled := h.holds v rfl
    refine ⟨levelled.complete, fun m room => ?_⟩
    have ahead := levelled.takes m room
    rw [← toByte_ofByte b] at ahead ⊢
    refine takes_peekHeader (stands_ofByte b) ?_
    rwa [toByte_ofByte] at ahead ⊢

/-- A key that is let pass is read with the same levels. -/
theorem levels_checkKey (hp : Levels p (count + 1) n) :
    Levels (fun m => checkKey.parse >>= fun _ => p m) (count + 1) n := by
  refine (sound_checkKey hp fun u a h => ?_).mono ?_
  · obtain ⟨k, complete⟩ := h.complete
    exact complete.ne_nil
  · rintro u a ⟨b, v, rfl, single, levelled⟩
    exact ⟨levelled.complete, fun m room => takes_checkKey_cons single (levelled.takes m room)⟩

/-- Nil stands for `a`. -/
theorem levels_tryNil (hp : Levels p 1 n) :
    Levels (fun m => tryNil.parse >>= fun nil => if nil then Pure.pure a else p m) 1 n := by
  have nil : (Pure.pure a : Parse α).Sound fun v b => v = [] ∧ b = a := sound_pure ⟨rfl, rfl⟩
  refine (sound_tryNil nil hp fun u b h => ?_).mono ?_
  · obtain ⟨k, complete⟩ := h.complete
    exact complete.ne_nil
  · rintro u b (⟨v, rfl, rfl, rfl⟩ | ⟨e, v, rfl, other, levelled⟩)
    · exact ⟨⟨0, Flat.nil.complete 0⟩, fun m _ => takes_tryNil_nil (takes_pure b)⟩
    · exact ⟨levelled.complete, fun m room => takes_tryNil_other other (levelled.takes m room)⟩

/-! ## 3. One level down

This is where a level is used up.  With `n + 1` levels what is inside is read with `n`, and with
none it is not read at all; the value around it nests just one deeper. -/

/-- **Behind the header of an array or a map its values are read one level down.** -/
theorem sound_deep {q : Parse (Option Nat)} {each : Nat} {r : Nat → Option Nat → Parse α}
    {R : List UInt8 → α → Prop} (opens : q.Sound (Opens each)) (nil : (r n none).Sound R)
    (bottom : ∀ k, r 0 (some k) = failure)
    (deeper : ∀ m k, n = m + 1 → Levels (fun m => r (m + 1) (some k)) (each * k) m) :
    (q >>= r n).Sound fun u a =>
      (∃ w, u = Header.nil.toByte :: w ∧ q.Takes [Header.nil.toByte] none ∧ R w a) ∨
        Levelled (fun m => q >>= r m) 1 u a := by
  refine (opens.takes.bind (Q := fun length w a => (length = none ∧ R w a) ∨
    ∃ k, length = some k ∧ Levelled (fun m => r (m + 1) (some k)) (each * k) w a)
    fun length => ?_).mono ?_
  · cases length with
    | none => exact nil.mono fun _ _ h => .inl ⟨rfl, h⟩
    | some k =>
      cases n with
      | zero =>
        rw [bottom]
        exact sound_failure
      | succ m => exact (deeper m k rfl).mono fun _ _ h => .inr ⟨k, rfl, h⟩
  · rintro u a ⟨v, w, length, rfl, ⟨opened, header⟩, ⟨rfl, rest⟩ | ⟨k, rfl, inner⟩⟩
    · obtain rfl : v = [Header.nil.toByte] := opened
      exact .inl ⟨w, rfl, header, rest⟩
    · obtain ⟨b, body, rfl, deep, own⟩ := opened
      obtain ⟨j, complete⟩ := inner.complete
      rw [← toByte_ofByte b, List.cons_append]
      refine .inr ⟨⟨j + 1, .of_deep (stands_ofByte b) deep own complete⟩, fun m room => ?_⟩
      obtain ⟨l, rfl, below⟩ := (Complete.deep_iff (stands_ofByte b) deep own).1 room
      rw [toByte_ofByte]
      exact header.bind (inner.takes l below)

/-- The same where nil stands for `a`. -/
theorem levels_deep {q : Parse (Option Nat)} {each : Nat} {next : Nat → Option Nat → Parse α}
    (opens : q.Sound (Opens each)) (nil : ∀ m, next m none = Pure.pure a)
    (bottom : ∀ k, next 0 (some k) = failure)
    (deeper : ∀ m k, n = m + 1 → Levels (fun m => next (m + 1) (some k)) (each * k) m) :
    Levels (fun m => q >>= next m) 1 n := by
  have none' : (next n none).Sound fun w b => w = [] ∧ b = a := by
    rw [nil]
    exact sound_pure ⟨rfl, rfl⟩
  refine (sound_deep opens none' bottom deeper).mono ?_
  rintro u b (⟨w, rfl, header, rfl, rfl⟩ | levelled)
  · refine ⟨⟨0, Flat.nil.complete 0⟩, fun m _ => header.bind (u := [_]) ?_⟩
    rw [nil]
    exact takes_pure b
  · exact levelled

/-- Values one after another need the levels of the deepest. -/
theorem levels_repeated {r : Nat → Read α} {each : Nat}
    (hr : Levels (fun m => (r m).parse) each n) (k : Nat) (done : List α) :
    Levels (fun m => (repeated (r m) k done).parse) (each * k) n := by
  induction k generalizing done with
  | zero => exact levels_pure done.reverse
  | succ k ih =>
    have next := hr.bind fun a => ih (a :: done)
    rw [Nat.add_comm, ← Nat.mul_succ] at next
    simp only [parse_repeated_succ]
    exact next

end Read

/-! ## 4. Dynamic values

The header decides, and only arrays and maps go down.  All that is said of the rest is that it takes
one value that nests no deeper than nothing. -/

namespace Value

open Parse Read

variable {registry : Registry} {n : Nat}

/-- An entry is two values. -/
theorem levels_readEntry {r : Nat → Read Value} (hr : Levels (fun m => (r m).parse) 1 n) :
    Levels (fun m => (readEntry (r m)).parse) 2 n := by
  have pair := hr.bind (f := fun m k => (r m).parse >>= fun v => pure (k, v)) fun k => hr.map
  simp only [readEntry, parse_bind, parse_pure]
  exact levels_checkKey pair

/-- A header that was peeked at is taken, and then what belongs to it alone. -/
theorem sound_behind {α : Type} {b : UInt8} {next : Parse α} {Q : List UInt8 → α → Prop}
    (behind : next.Sound Q) (single : (Header.ofByte b).isContainer = false)
    (own : ∀ w a, Q w a → (Header.ofByte b).Owes w 0) :
    (takeHeader.parse >>= fun _ => next).Sound
      (Ahead b (Levelled (fun _ => takeHeader.parse >>= fun _ => next) 1)) := by
  have flat : (takeHeader.parse >>= fun _ => next).Sound (Ahead b fun u _ => Flat u) :=
    sound_taken behind fun w a holds => ⟨b, w, rfl, single, own w a holds⟩
  refine flat.takes.mono ?_
  rintro u a ⟨ahead, takes⟩
  exact ⟨ahead.ne_nil, fun v e => ⟨⟨0, (ahead.holds v e).complete 0⟩, fun _ _ => takes⟩⟩

/-- An array or a map of dynamic values, its header known. -/
theorem sound_items {α : Type} {q : Parse (Option Nat)} {each : Nat} {r : Nat → Nat → Parse α}
    {g : α → Value} {b : UInt8} (other : Header.ofByte b ≠ .nil) (opens : q.Sound (Opens each))
    (bottom : ∀ k, r 0 k = failure) (nil : (r n 0).Sound fun w _ => w = [])
    (deeper : ∀ m k, n = m + 1 → Levels (fun m => r (m + 1) k) (each * k) m) :
    (q >>= fun length => r n (length.getD 0) >>= fun xs => pure (g xs)).Sound
      (Ahead b (Levelled (fun m => q >>= fun length => r m (length.getD 0) >>= fun xs =>
        pure (g xs)) 1)) := by
  have empty : (r n 0 >>= fun xs => pure (g xs)).Sound fun w _ => w = [] :=
    nil.map fun _ _ h => h
  refine (sound_deep (r := fun m length => r m (length.getD 0) >>= fun xs => pure (g xs))
    opens empty (fun k => by simp only [Option.getD_some, bottom]; rfl)
    fun m k e => (deeper m k e).map).mono ?_
  rintro u a (⟨w, rfl, -, rfl⟩ | levelled)
  · refine ⟨List.cons_ne_nil _ _, fun v same => (other ?_).elim⟩
    rw [← (List.cons.inj same).1]
    exact Header.stands_nil
  · obtain ⟨k, complete⟩ := levelled.complete
    exact ⟨complete.ne_nil, fun _ _ => levelled⟩

/-- One level down there is one less. -/
theorem levels_below {α : Type} {next : Read Value → Read α} {count : Nat}
    (inner : Levels (fun m => (next (read registry m)).parse) count n) :
    Levels (fun m => (descend (oneDown registry (m + 1)) next).parse) count n := by
  have nested := inner.nested
  simp only [← parse_nested] at nested
  exact nested

/-- A value is read so, if those one level down are. -/
theorem levels_readStep
    (deeper : ∀ m, n = m + 1 → Levels (fun m => (read registry m).parse) 1 m) :
    Levels (fun m => (readStep registry (oneDown registry m)).parse) 1 n := by
  simp only [readStep, parse_bind]
  refine levels_peekHeader ?_
  intro b
  generalize e : Header.ofByte b = h
  have own : ∀ {w : List UInt8} {k : Nat}, h.Owes w k → (Header.ofByte b).Owes w k := fun h => by
    rwa [e]
  -- arrays and maps take a level, and everything else is one flat value
  cases h with
  | nil | bool =>
    simp only [parse_bind, parse_pure]
    exact sound_behind (Q := fun w _ => w = []) (sound_pure rfl) (by rw [e]; rfl)
      fun w a h => own ⟨h, rfl⟩
  | posFix | uint | negFix | int | single | double =>
    simp only [parse_bind, parse_pure]
    exact Levels.at (n := n) (levels_of_flat (sound_narrowed _ _ _)) b
  | fixText | text =>
    simp only [parse_bind, parse_pure]
    exact Levels.at (n := n) (levels_of_flat sound_text).map b
  | bin =>
    simp only [parse_bind, parse_pure]
    exact Levels.at (n := n) (levels_of_flat (sound_raw .bin)).map b
  | fixArray | array =>
    simp only [parse_bind, parse_pure]
    refine sound_items (r := fun m k => parse (descend (oneDown registry m) fun r =>
      repeated r k [])) (by rw [e]; nofun) (sound_arrayLength .dynamic) (fun k => rfl) ?_
      fun m k e => levels_below (levels_repeated (deeper m e) k [])
    cases n with
    | zero => exact sound_failure
    | succ n => exact sound_pure rfl
  | fixMap | map =>
    simp only [parse_bind, parse_pure]
    refine sound_items (r := fun m k => parse (descend (oneDown registry m) fun r =>
      repeated (readEntry r) k [])) (by rw [e]; nofun) (sound_mapLength .dynamic) (fun k => rfl) ?_
      fun m k e => levels_below (levels_repeated (levels_readEntry (deeper m e)) k [])
    cases n with
    | zero => exact sound_failure
    | succ n => exact sound_pure rfl
  | fixExt | ext =>
    simp only [parse_bind]
    refine sound_behind ((sound_extBody .dynamic b _).bind (Q := fun _ w _ => w = []) fun x => ?_)
      (by rw [e]; rfl) fun w a h => ?_
    · split
      · rename_i binding known
        cases binding.decodeValue x.2 with
        | error f => exact sound_failure
        | ok v => exact sound_pure rfl
      · exact sound_pure rfl
    · obtain ⟨v, w, x, rfl, holds, rfl⟩ := h
      rw [List.append_nil]
      exact own holds.owes
  | unused => exact sound_failure

/-- **What is read as a dynamic value is read so at every level that leaves room for it.** -/
theorem levels_read (registry : Registry) (n : Nat) :
    Levels (fun m => (read registry m).parse) 1 n := by
  simp only [read_eq]
  induction n with
  | zero => exact levels_readStep nofun
  | succ n ih =>
    refine levels_readStep ?_
    intro m e
    cases e
    simp only [read_eq]
    exact ih

end Value

/-! ## 5. Lists, maps and extensions -/

namespace InPlace

open Parse Read Decoded Datum

variable {cx : Context} {n count : Nat} {t : Ty} {zero d : Datum}

/-- Elements are read on one level. -/
theorem levels_elements {elem : Nat → InPlace} (each : Levels (fun m => parse (elem m zero)) 1 n)
    (k : Nat) (done : List Datum) :
    Levels (fun m => parse (elements (elem m) zero k done)) k n := by
  induction k generalizing done with
  | zero => exact levels_pure _
  | succ k ih =>
    have next := each.bind fun x => ih (x :: done)
    simp only [parse_elements_succ]
    rwa [Nat.add_comm] at next

/-- A list takes a level for its elements. -/
theorem levels_list (each : ∀ m, n = m + 1 → Levels (fun m => parse (read cx m t zero)) 1 m) :
    Levels (fun m => parse (list ((oneDown cx m).map fun r => r t) zero d)) 1 n := by
  simp only [parse_list]
  refine levels_deep (sound_arrayLength .array) (fun m => rfl) (fun k => rfl) fun m k e => ?_
  rw [Nat.one_mul]
  exact (levels_elements (each m e) k []).nested

/-- Bytes that come as bytes take none. -/
theorem levels_sequence (each : ∀ m, n = m + 1 → Levels (fun m => parse (read cx m t zero)) 1 m) :
    Levels (fun m => parse (sequence (oneDown cx m) t zero d)) 1 n := by
  simp only [parse_sequence]
  by_cases bin : t.sequenceKind = .bin
  · simp only [if_pos bin, parse_byteList]
    refine levels_peekHeader ?_
    intro b
    by_cases atOnce : holdsBytes (Header.ofByte b) = true
    · simp only [if_pos atOnce]
      exact Levels.at (n := n) (levels_of_flat (sound_raw .bin)).map b
    · simp only [if_neg atOnce]
      exact (levels_list each).at b
  · simp only [if_neg bin]
    exact levels_list each

/-- A fixed array is read as a list. -/
theorem levels_array {length : Nat}
    (each : ∀ m, n = m + 1 → Levels (fun m => parse (read cx m t zero)) 1 m) :
    Levels (fun m => parse (array (oneDown cx m) length t zero d)) 1 n := by
  simp only [parse_array]
  refine levels_tryNil (Levels.bind (j := 0) (levels_sequence each) fun read => ?_)
  by_cases fits : read.items.length = length
  · simp only [if_pos fits]
    exact levels_pure read
  · exact levels_of_failure (if_neg fits)

/-- Keys and values are read on one level. -/
theorem levels_bindings {order : MapOrder} {key value : Nat → InPlace} {keyZero valueZero : Datum}
    (keys : Levels (fun m => parse (key m keyZero)) 1 n)
    (values : Levels (fun m => parse (value m valueZero)) 1 n) (k : Nat)
    (done : List (Datum × Datum)) :
    Levels (fun m => parse (bindings order (key m) (value m) keyZero valueZero k done)) (2 * k)
      n := by
  induction k generalizing done with
  | zero => exact levels_pure _
  | succ k ih =>
    have next := keys.bind fun x => values.bind fun y => ih (order.insert x y done)
    simp only [parse_bindings_succ]
    rw [show 2 * (k + 1) = 1 + 2 * k + 1 by omega]
    refine levels_checkKey ?_
    rwa [show 1 + (1 + 2 * k) = 1 + 2 * k + 1 by omega] at next

/-- A map takes a level for its entries. -/
theorem levels_map {order : MapOrder} {kt vt : Ty} {keyZero valueZero : Datum}
    (keys : ∀ m, n = m + 1 → Levels (fun m => parse (read cx m kt keyZero)) 1 m)
    (values : ∀ m, n = m + 1 → Levels (fun m => parse (read cx m vt valueZero)) 1 m) :
    Levels (fun m => parse (map (oneDown cx m) order kt vt keyZero valueZero d)) 1 n := by
  simp only [parse_map]
  refine levels_deep (sound_mapLength .map) (fun m => rfl) (fun k => rfl) fun m k e => ?_
  exact (levels_bindings (keys m e) (values m e) k []).nested

/-- A tuple whose parts stand ready. -/
theorem levels_tuple {ts : List Ty}
    (each : ∀ m, n = m + 1 →
      Levels (fun m => parse (parts cx.catalog.initial (read cx m) ts d.items)) ts.length m) :
    Levels (fun m => parse (tuple (oneDown cx m) cx.catalog.initial ts d)) 1 n := by
  simp only [parse_tuple]
  refine levels_deep (sound_arrayLength .array) (fun m => rfl) (fun k => ?_) fun m k e => ?_
  · dsimp only [oneDown, descended]
    exact ite_self _
  · rw [Nat.one_mul]
    by_cases same : k = ts.length
    · simp only [if_pos same]
      rw [same]
      exact (each m e).nested
    · exact levels_of_failure (if_neg same)

/-- An extension is one flat value, -/
theorem sound_extension (host : Host) :
    (parse (extension cx host d)).Sound fun u _ => Flat u := by
  rw [parse_extension]
  refine ((sound_ext .ext).bind (Q := fun _ w _ => w = []) fun e => ?_).mono ?_
  · cases e with
    | none => exact sound_pure rfl
    | some e =>
      dsimp only
      cases bound? cx host e.1 e.2 with
      | none => exact sound_failure
      | some x => exact sound_pure rfl
  · rintro u x ⟨v, w, e, rfl, flat, rfl⟩
    rwa [List.append_nil]

/-- and so is a clock time. -/
theorem sound_clockTime : (parse (clockTime cx d)).Sound fun u _ => Flat u := by
  rw [parse_clockTime]
  refine (((sound_extension .timestamp).retrace _).bind (Q := fun _ w _ => w = [])
    fun x => ?_).mono ?_
  · cases x.asTimestamp.toClockTime? with
    | none => exact sound_failure
    | some t => exact sound_pure rfl
  · rintro u x ⟨v, w, e, rfl, flat, rfl⟩
    rwa [List.append_nil]

end InPlace

/-! ## 6. All types -/

namespace Ty

mutual

/-- The records that a type mentions, at whatever depth. -/
def mentions : Ty → List RecordId
  | .record id => [id]
  | .list t => t.mentions
  | .array _ t => t.mentions
  | .tuple ts => mentionsEach ts
  | .option t => t.mentions
  | .box t => t.mentions
  | .map _ kt vt => kt.mentions ++ vt.mentions
  | _ => []

/-- The records that some of the types mention. -/
def mentionsEach : List Ty → List RecordId
  | [] => []
  | t :: ts => t.mentions ++ mentionsEach ts

end

/-- What one of the types mentions, all of them mention. -/
theorem mem_mentionsEach {t : Ty} {ts : List Ty} {id : RecordId} (ht : t ∈ ts)
    (h : id ∈ t.mentions) : id ∈ mentionsEach ts := by
  induction ts with
  | nil => cases ht
  | cons s ts ih =>
    rw [mentionsEach]
    rcases List.mem_cons.1 ht with rfl | ht
    · exact List.mem_append_left _ h
    · exact List.mem_append_right _ (ih ht)

end Ty

namespace Context

open Parse Read Decoded Datum InPlace

variable {cx : Context}

/-- Whether a record goes through a binding and not by its fields. -/
def isBound (cx : Context) (id : RecordId) : Bool :=
  cx.hasBinding (.record id) || (cx.catalog.decl id).form == .external

mutual

/-- **What is read by a type of which no record goes by its fields is read so at every level that
leaves room for it.** -/
theorem levels_read : ∀ (t : Ty) (n : Nat), (∀ id ∈ t.mentions, cx.isBound id = true) →
    Levels (fun m => parse (read cx m t (cx.catalog.initial t))) 1 n
  | .bool, n, _ => by
    simp only [parse_read_bool]
    exact (levels_of_flat sound_bool).map
  | .number t, n, _ => by
    simp only [parse_read_number]
    exact levels_of_flat (sound_narrowed _ _ t)
  | .text, n, _ => by
    simp only [parse_read_text]
    exact (levels_of_flat sound_text).map
  | .bytes, n, _ => by
    simp only [parse_read_bytes]
    exact (levels_of_flat (sound_raw .bin)).map
  | .dynamic, n, _ => by
    simp only [parse_read_dynamic]
    exact (Value.levels_read cx.registry n).map
  | .timestamp, n, _ => by
    simp only [read_eq, readStep]
    exact levels_of_flat (sound_extension .timestamp)
  | .clockTime, n, _ => by
    simp only [read_eq, readStep]
    exact levels_of_flat sound_clockTime
  | .list t, n, bound => by
    simp only [read_eq, readStep]
    exact levels_sequence fun m _ => levels_read t m bound
  | .array length t, n, bound => by
    simp only [read_eq, readStep]
    exact levels_array fun m _ => levels_read t m bound
  | .tuple ts, n, bound => by
    simp only [read_eq, readStep]
    exact levels_tuple fun m _ => levels_parts ts m bound
  | .option t, n, bound => by
    simp only [parse_read_option]
    exact levels_tryNil (levels_read t n bound).map
  | .box t, n, bound => by
    simp only [read_box]
    exact levels_read t n bound
  | .map order kt vt, n, bound => by
    simp only [read_eq, readStep]
    exact levels_map (fun m _ => levels_read kt m fun id h => bound id (List.mem_append_left _ h))
      fun m _ => levels_read vt m fun id h => bound id (List.mem_append_right _ h)
  | .record id, n, bound => by
    simp only [read_eq, readStep, parse_record_bound (bound id (List.mem_singleton_self id))]
    exact levels_of_flat (sound_extension (.record id))

theorem levels_parts : ∀ (ts : List Ty) (n : Nat),
    (∀ id ∈ Ty.mentionsEach ts, cx.isBound id = true) →
    Levels (fun m => parse (parts cx.catalog.initial (read cx m) ts
      (Ty.initialEach (cx.catalog.initials cx.catalog.records.length) ts))) ts.length n
  | [], n, _ => levels_pure _
  | t :: ts, n, bound => by
    have first := levels_read t n fun id h => bound id (List.mem_append_left _ h)
    have rest := levels_parts ts n fun id h => bound id (List.mem_append_right _ h)
    simp only [Ty.initialEach, parse_parts_cons, List.headD_cons, List.tail_cons]
    rw [List.length_cons, Nat.add_comm]
    exact first.bind fun x => rest.map

end

end Context

end MessagePack
