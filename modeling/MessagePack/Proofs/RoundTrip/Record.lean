import MessagePack.Proofs.Record.Zero
import MessagePack.Proofs.RoundTrip.Slots
/-!
# Records come back

A field comes back by itself if its value, written and read alone, is the value again.  From fields
that do, records come back: fresh but for the fields that were written as something other than nil,
which hold their values, records among them by this same rule.

`Codec.ComesBack` is that rule, closed under the ways of building types around records.  Main
statement: `Codec.decode_encode_record`.
-/

namespace MessagePack

/-! ## 1. Values that come back by themselves -/

namespace Datum

open InPlace Decoded Parse

variable {cx : Context} {n : Nat} {t : Ty} {d x y : Datum} {bs : List UInt8} {c c' : Cursor}

/-- What was read, if it is known which bytes were. -/
theorem holds_of_run {P : List UInt8 → Datum → Prop} {p : Parse Datum} (sound : p.Sound P)
    (run : p c = some (y, c')) (took : c.rest = bs ++ c'.rest) : P bs y := by
  obtain ⟨used, e, holds, -⟩ := sound c y c' run
  rw [took] at e
  rwa [List.append_cancel_right e]

/-- A list of bytes is put as bytes, which have no parts. -/
theorem flat_sequence {items : List Datum} {scripts : List Script}
    (kind : t.sequenceKind.isContainer = false) (puts : (Script.sequence t items scripts).Puts bs) :
    Flat bs := by
  unfold Ty.sequenceKind at kind
  split at kind
  · obtain ⟨_, _, -, -, -, flat, -⟩ := Context.Restores.takes_bin puts
    exact flat
  · cases kind

/-- **What may be a key and was read owes no other values.** -/
theorem flat_of_run (con : cx.registry.Consistent) :
    ∀ {t : Ty} {x d y : Datum} {c c' : Cursor}, (∀ id ∈ t.mentions, cx.isBound id = true) →
      (x.script cx t).Puts bs → parse (read cx n t d) c = some (y, c') →
      c.rest = bs ++ c'.rest → (cx.wireKind t x).isContainer = false → Flat bs
  | .bool, _, _, _, _, _, _, _, run, took, _ => by
    rw [parse_read_bool] at run
    exact holds_of_run (P := fun u _ => Flat u) (Read.sound_bool.map fun _ _ h => h) run took
  | .number t, _, _, _, _, _, _, _, run, took, _ => by
    rw [parse_read_number] at run
    exact holds_of_run (Read.sound_narrowed _ _ t) run took
  | .text, _, _, _, _, _, _, _, run, took, _ => by
    rw [parse_read_text] at run
    exact holds_of_run (P := fun u _ => Flat u) (Read.sound_text.map fun _ _ h => h) run took
  | .bytes, _, _, _, _, _, _, _, run, took, _ => by
    rw [parse_read_bytes] at run
    exact holds_of_run (P := fun u _ => Flat u) ((Read.sound_raw .bin).map fun _ _ h => h) run took
  | .dynamic, x, _, _, _, _, _, puts, _, _, kind => by
    rw [script] at puts
    exact (Value.takes_leaf con kind puts).1
  | .timestamp, _, _, _, _, _, _, _, run, took, _ => by
    rw [read_eq, readStep] at run
    exact holds_of_run (sound_extension .timestamp) run took
  | .clockTime, _, _, _, _, _, _, _, run, took, _ => by
    rw [read_eq, readStep] at run
    exact holds_of_run sound_clockTime run took
  | .list t, x, _, _, _, _, _, puts, _, _, kind => by
    rw [script_list] at puts
    exact flat_sequence kind puts
  | .array _ t, x, _, _, _, _, _, puts, _, _, kind => by
    rw [script_array] at puts
    exact flat_sequence kind puts
  | .tuple ts, _, _, _, _, _, _, _, _, _, kind => by cases kind
  | .option t, x, _, _, _, _, bound, puts, run, took, kind => by
    rw [script_option] at puts
    rw [Context.wireKind] at kind
    cases held : x.held? with
    | none =>
      rw [held] at puts
      obtain rfl := (Script.puts_put _).1 puts
      exact .nil
    | some x =>
      rw [held] at puts kind
      rw [parse_read_option] at run
      obtain ⟨⟨nil, mid⟩, first, second⟩ := Option.bind_eq_some_iff.1 run
      rcases Read.run_tryNil first with ⟨rfl, next⟩ | ⟨rfl, rfl⟩
      · cases second
        have both : [Header.nil.toByte] ++ _ = bs ++ _ := next.symm.trans took
        rw [← List.append_cancel_right both]
        exact .nil
      · obtain ⟨⟨y, last⟩, inner, made⟩ := Option.bind_eq_some_iff.1 second
        cases made
        exact flat_of_run con (t := t) bound puts inner took kind
  | .box t, x, _, _, _, _, bound, puts, run, took, kind => by
    rw [script_box] at puts
    rw [read_box] at run
    exact flat_of_run con (t := t) bound puts run took kind
  | .map _ _ _, _, _, _, _, _, _, _, _, _, kind => by cases kind
  | .record id, _, _, _, _, _, bound, _, run, took, _ => by
    rw [read_eq, readStep, parse_record_bound (bound id (List.mem_singleton_self id))] at run
    exact holds_of_run (sound_extension (.record id)) run took

end Datum

namespace Codec

open Datum Context Decoded Parse

variable {c : Codec} {mode : Mode} {id : RecordId} {t : Ty} {r x y : Datum} {bs : List UInt8}
  {back : Slot → Datum}

/-- Written and read alone, the value is the same again. -/
def RoundTrips (c : Codec) (mode : Mode) (t : Ty) (x : Datum) : Prop :=
  ∃ bs, (c.encode t x mode).1 = .ok bs ∧ ((c.encode t x mode).2.decode t bs mode).1 = .ok x

/-- Decoding what was written runs the reader on it. -/
theorem run_of_decode (read : ((c.encode t x mode).2.decode t bs mode).1 = .ok y) :
    ∃ c', parse (Datum.read (c.context mode) maxDepth t (c.catalog.initial t)) (.start bs) =
      some (y, c') ∧ bs = bs ++ c'.rest := by
  rw [encode, conclude] at read
  obtain ⟨c', run, rest⟩ := decode_eq_ok.1 read
  rw [context_rememberAll, catalog_rememberAll] at run
  exact ⟨c', run, by rw [rest, List.append_nil]⟩

/-- **A value of a type without records of its own, if it comes back alone, comes back
anywhere.** -/
theorem RoundTrips.restores (reachable : c.Reachable) (round : c.RoundTrips mode t x)
    (bound : ∀ id ∈ t.mentions, (c.context mode).isBound id = true) :
    (c.context mode).Restores t x x := by
  obtain ⟨bs, written, read⟩ := round
  obtain ⟨c', run, took⟩ := run_of_decode read
  have levelled : Levelled _ 1 bs x := holds_of_run (levels_read t maxDepth bound) run took
  have only : ∀ {u}, (x.script (c.context mode) t).Puts u → u = bs := fun puts =>
    puts.eq.trans (encode_eq_ok.1 written).eq.symm
  constructor
  · intro bs puts
    rw [only puts]
    exact levelled.complete
  · intro bs puts kind
    obtain rfl := only puts
    exact flat_of_run reachable.consistent.registry bound puts run took kind
  · intro bs n puts room
    obtain rfl := only puts
    exact levelled.takes _ room

/-! ## 2. Values that come back from their parts -/

/-- The value `x` comes back as `y`: alone, or from its parts, records from their fields. -/
inductive ComesBack (c : Codec) (mode : Mode) : Ty → Datum → Datum → Prop
  /-- No record in the type goes by its fields. -/
  | alone {t : Ty} {x : Datum} (bound : ∀ id ∈ t.mentions, (c.context mode).isBound id = true)
      (round : c.RoundTrips mode t x) : ComesBack c mode t x x
  | list {t : Ty} {ps : List (Datum × Datum)} (array : t.sequenceKind = .array)
      (each : ∀ p ∈ ps, ComesBack c mode t p.1 p.2) :
      ComesBack c mode (.list t) (.seq (ps.map (·.1))) (.seq (ps.map (·.2)))
  | array {t : Ty} {ps : List (Datum × Datum)} (array : t.sequenceKind = .array)
      (each : ∀ p ∈ ps, ComesBack c mode t p.1 p.2) :
      ComesBack c mode (.array ps.length t) (.seq (ps.map (·.1))) (.seq (ps.map (·.2)))
  | tuple {ps : List (Ty × Datum × Datum)} (each : ∀ p ∈ ps, ComesBack c mode p.1 p.2.1 p.2.2) :
      ComesBack c mode (.tuple (ps.map (·.1))) (.seq (ps.map (·.2.1))) (.seq (ps.map (·.2.2)))
  | absent {t : Ty} : ComesBack c mode (.option t) .absent .absent
  /-- What is held is not written as nil. -/
  | present {t : Ty} {x y : Datum} (held : ComesBack c mode t x y)
      (solid : ¬ (x.script (c.context mode) t).Puts [Header.nil.toByte]) :
      ComesBack c mode (.option t) (.present x) (.present y)
  | box {t : Ty} {x y : Datum} (held : ComesBack c mode t x y) : ComesBack c mode (.box t) x y
  /-- What comes back of the keys stands in the order of the map. -/
  | map {order : MapOrder} {kt vt : Ty} {es : List ((Datum × Datum) × (Datum × Datum))}
      (keys : ∀ e ∈ es, ComesBack c mode kt e.1.1 e.2.1)
      (values : ∀ e ∈ es, ComesBack c mode vt e.1.2 e.2.2)
      (ascending : (es.map (·.2)).Pairwise fun a b => order.IsAfter b.1 a.1) :
      ComesBack c mode (.map order kt vt) (.map (es.map (·.1))) (.map (es.map (·.2)))
  /-- A record whose fields that are written come back: it regains what they carry. -/
  | record {id : RecordId} {r y : Datum} {back : Slot → Datum}
      (unbound : (c.context mode).isBound id = false) (derived : c.catalog.Derived id)
      (shaped : c.catalog.Shaped (.record id) r)
      (each : ∀ s ∈ (c.layoutOf mode id).slots, ∀ t x,
        (c.context mode).written? id r s = some (t, x) → ComesBack c mode t x (back s))
      (regains : (c.context mode).Regains id r back y) : ComesBack c mode (.record id) r y

/-- What is restored as itself comes back alone, if decoding goes deep enough. -/
theorem ComesBack.of_restores (bound : ∀ id ∈ t.mentions, (c.context mode).isBound id = true)
    (back : (c.context mode).Restores t x x) (puts : (x.script (c.context mode) t).Puts bs)
    (nests : Complete maxDepth 1 bs) : c.ComesBack mode t x x := by
  have written : (c.encode t x mode).1 = .ok bs := encode_eq_ok.2 puts
  exact .alone bound ⟨bs, written, decode_of_restores back written nests⟩

/-- A codec that can be reached resolves every derived record, given zeros to start from. -/
theorem Reachable.resolves (reachable : c.Reachable) (zero : c.catalog.ZeroDefaults)
    (derived : c.catalog.Derived id) : (c.context mode).Resolves id :=
  ⟨zero, derived, reachable.consistent.resolved mode id⟩

/-- **Whatever comes back by this rule is restored**, where the defaults of records are zeros. -/
theorem ComesBack.restores (reachable : c.Reachable) (zero : c.catalog.ZeroDefaults)
    (comes : c.ComesBack mode t x y) :
    (c.context mode).Restores t x y := by
  induction comes with
  | alone bound round => exact round.restores reachable bound
  | list array _ ih => exact .list array ih
  | array array _ ih => exact .array array ih
  | tuple _ ih => exact .tuple _ ih
  | absent => exact .absent
  | present _ solid ih => exact .present ih solid
  | box _ ih => exact .box ih
  | map _ _ ascending keys values =>
    exact .map _ (fun e he => ⟨keys e he, values e he⟩) ascending
  | @record id r y back unbound derived shaped _ regains ih =>
    have resolves : (c.context mode).Resolves id := reachable.resolves zero derived
    rw [regains.unique resolves (resolves.regains r back)]
    exact .record ⟨resolves, shaped, ih⟩ unbound

/-- Without records that go by their fields, what comes back is the same. -/
theorem ComesBack.eq_of_bound (comes : c.ComesBack mode t x y)
    (bound : ∀ id ∈ t.mentions, (c.context mode).isBound id = true) : y = x := by
  induction comes with
  | alone => rfl
  | list _ _ ih => exact congrArg Datum.seq (List.map_congr_left fun p hp => ih p hp bound)
  | array _ _ ih => exact congrArg Datum.seq (List.map_congr_left fun p hp => ih p hp bound)
  | @tuple ps _ ih =>
    refine congrArg Datum.seq (List.map_congr_left fun p hp => ih p hp fun id h => bound id ?_)
    exact Ty.mem_mentionsEach (List.mem_map.2 ⟨p, hp, rfl⟩) h
  | absent => rfl
  | present _ _ ih => rw [ih bound]
  | box _ ih => exact ih bound
  | map _ _ _ keys values =>
    refine congrArg Datum.map (List.map_congr_left fun e he => ?_)
    have key := keys e he fun id h => bound id (List.mem_append_left _ h)
    have value := values e he fun id h => bound id (List.mem_append_right _ h)
    exact Prod.ext key value
  | @record id _ _ _ unbound =>
    rw [bound id (List.mem_singleton_self id)] at unbound
    cases unbound

/-- What starts with an announced length is no nil. -/
theorem not_puts_nil {f : Family} {n : Nat} {s : Script} :
    ¬ (Script.header f n ++ s).Puts [Header.nil.toByte] := by
  intro puts
  obtain ⟨h, body, inside, e, announced, -⟩ := Script.puts_headed puts
  exact (Family.stands_header? announced).toByte_ne_nil (Family.header_ne_nil announced)
    (List.cons.inj e).1.symm

/-- **What comes back and was written as nil is a zero.** -/
theorem ComesBack.eq_initial (reachable : c.Reachable) (zero : c.catalog.ZeroDefaults)
    (comes : c.ComesBack mode t x y)
    (puts : (x.script (c.context mode) t).Puts [Header.nil.toByte]) :
    x = c.catalog.initial t := by
  induction comes with
  | alone bound round =>
    exact eq_initial_of_takes_nil
      ((round.restores reachable bound).takes puts (Flat.nil.complete 0))
  | list array =>
    rw [script_list] at puts
    exact (not_puts_nil ((Restores.puts_sequence array).1 puts)).elim
  | array array =>
    rw [script_array] at puts
    exact (not_puts_nil ((Restores.puts_sequence array).1 puts)).elim
  | tuple =>
    rw [script_tuple] at puts
    exact (not_puts_nil puts).elim
  | absent => rfl
  | present _ solid =>
    rw [script_option] at puts
    exact (solid puts).elim
  | box _ ih =>
    rw [script_box] at puts
    exact ih puts
  | map =>
    rw [script_map] at puts
    exact (not_puts_nil puts).elim
  | @record id r y back unbound derived shaped each regains =>
    -- a record goes one level down before it looks at the input, so no nil is left for it
    have back := (ComesBack.record unbound derived shaped each regains).restores reachable zero
    have takes := back.takes puts (Flat.nil.complete 0)
    rw [read_eq, readStep, InPlace.parse_record unbound] at takes
    cases takes.result

/-! ## 3. Records -/

/-- A record whose fields that are written come back. -/
theorem slotsRestore (reachable : c.Reachable) (zero : c.catalog.ZeroDefaults)
    (derived : c.catalog.Derived id) (typed : c.catalog.OfType (.record id) r)
    (each : ∀ s ∈ (c.layoutOf mode id).slots, ∀ t x,
      (c.context mode).written? id r s = some (t, x) → c.ComesBack mode t x (back s)) :
    (c.context mode).SlotsRestore id r back :=
  ⟨reachable.resolves zero derived, typed.shaped rfl, fun s slot t x written =>
    (each s slot t x written).restores reachable zero⟩

/-- **What is there and not written, or written as nil, was zero.** -/
theorem vanishes_of_not_carries (reachable : c.Reachable) (zero : c.catalog.ZeroDefaults)
    (unbound : (c.context mode).isBound id = false) (derived : c.catalog.Derived id)
    (typed : c.catalog.OfType (.record id) r)
    (each : ∀ s ∈ (c.layoutOf mode id).slots, ∀ t x,
      (c.context mode).written? id r s = some (t, x) → c.ComesBack mode t x (back s))
    (puts : (r.script (c.context mode) (.record id)).Puts bs) {s : Slot}
    (slot : s ∈ (c.layoutOf mode id).slots) (there : c.catalog.lookup id s.path r = some (t, x))
    (left : (c.context mode).carries id r s = false) : c.catalog.Vanishes t x := by
  have slots := slotsRestore reachable zero derived typed each
  cases written : (c.context mode).written? id r s with
  | none =>
    obtain ⟨f, leads, direct⟩ := slots.resolves.lead slot
    obtain ⟨rfl, holds⟩ := (Catalog.lookup_eq_some derived leads direct).1 there
    exact Catalog.vanishes_of_isZero (holds.ofType typed) (isZero_of_not_written there written)
  | some found =>
    obtain rfl : (t, x) = found := Option.some.inj (there.symm.trans (lookup_of_written written))
    have own := SlotsRestore.puts_written slots.resolves.layout unbound puts slot written
    have nil : (x.script (c.context mode) t).effect.1 = [Header.nil.toByte] :=
      Decidable.byContradiction fun other => by
        rw [(carries_iff written own).2 other] at left
        cases left
    rw [nil] at own
    exact Catalog.vanishes_of_eq ((each s slot t x written).eq_initial reachable zero own)

/-- **Records come back**, in either mode, where the defaults of records are zeros: a record that
goes by its fields, each of which comes back if it is written, is decoded as the one record that
regains what was carried and is fresh otherwise, if what is written nests no deeper than decoding
goes.  What was there and not carried was zero. -/
theorem decode_encode_record (reachable : c.Reachable) (zero : c.catalog.ZeroDefaults)
    (unbound : (c.context mode).isBound id = false) (derived : c.catalog.Derived id)
    (typed : c.catalog.OfType (.record id) r)
    (each : ∀ s ∈ (c.layoutOf mode id).slots, ∀ t x,
      (c.context mode).written? id r s = some (t, x) → c.ComesBack mode t x (back s))
    (written : (c.encode (.record id) r mode).1 = .ok bs) :
    (∃ k, Complete k 1 bs) ∧
    (Complete maxDepth 1 bs →
      ∃ y, ((c.encode (.record id) r mode).2.decode (.record id) bs mode).1 = .ok y ∧
        (c.context mode).Regains id r back y ∧
        (∀ y', (c.context mode).Regains id r back y' → y' = y) ∧
        ∀ s ∈ (c.layoutOf mode id).slots, ∀ t x, (c.context mode).carried? id r s = some (t, x) →
          (∀ i ∈ t.mentions, (c.context mode).isBound i = true) →
          c.catalog.lookup id s.path y = some (t, x)) ∧
    ∀ s ∈ (c.layoutOf mode id).slots, ∀ t x, c.catalog.lookup id s.path r = some (t, x) →
      (c.context mode).carries id r s = false → c.catalog.Vanishes t x := by
  have slots := slotsRestore reachable zero derived typed each
  have restores := Restores.record slots unbound
  have puts := encode_eq_ok.1 written
  refine ⟨restores.complete puts, fun nests => ?_, fun s slot t x there left =>
    vanishes_of_not_carries reachable zero unbound derived typed each puts slot there left⟩
  have regains := slots.resolves.regains r back
  refine ⟨_, decode_of_restores restores written nests, regains,
    fun y' regains' => regains'.unique slots.resolves regains, fun s slot t x carried bound => ?_⟩
  have same := (each s slot t x (Option.filter_eq_some_iff.1 carried).1).eq_of_bound bound
  have found := regains.carried s slot t x carried
  rwa [same] at found

/-- A visit, perhaps to a point, with a field that it keeps to itself. -/
def visitCatalog : Catalog where
  records := [
    { name := "Point", fields := [{ name := "x", type := .byte }] },
    { name := "Visit",
      fields := [{ name := "point", type := .option (.record 0), embed := true },
        { name := "done", type := .bool },
        { name := "token", type := .byte, isPublic := false }] }]
  isGrounded := by decide

theorem slots_visit (mode : Mode) : (Layout.resolve visitCatalog 1 mode).slots =
    [⟨"done", [1], false⟩, ⟨"x", [0, 0], false⟩] := by
  change uniqueShallowest (visitCatalog.candidates [1] [] 1) = _
  have inner : visitCatalog.candidates [0, 1] [0] 0 = [⟨"x", [0, 0], false⟩] := by
    rw [Catalog.candidates]
    rfl
  have all : visitCatalog.candidates [1] [] 1 =
      [⟨"done", [1], false⟩] ++ (visitCatalog.candidates [0, 1] [0] 0 ++ []) := by
    rw [Catalog.candidates]
    rfl
  rw [all, inner]
  rfl

theorem ofType_visit : visitCatalog.OfType (.record 1)
    (.record [.present (.record [.int 5]), .bool false, .int 9]) := by
  refine .record rfl ?_
  intro i f x field here
  rcases i with _ | _ | _ | i
  · cases field
    cases here
    refine .present (.record rfl ?_)
    intro i f x field here
    cases i with
    | zero =>
      cases field
      cases here
      exact .whole rfl
    | succ => cases here
  · cases field
    cases here
    exact .bool false
  · cases field
    cases here
    exact .whole rfl
  · cases here

/-- A visit to a point: the field that is kept back is fresh afterwards. -/
theorem decode_encode_record_visit :
    let c := fresh visitCatalog
    let r : Datum := .record [.present (.record [.int 5]), .bool false, .int 9]
    ∃ bs back y, c.catalog.ZeroDefaults ∧ c.catalog.Derived 1 ∧ c.catalog.OfType (.record 1) r ∧
      (c.encode (.record 1) r .named).1 = .ok bs ∧ Complete maxDepth 1 bs ∧
      (∀ s ∈ (c.layoutOf .named 1).slots, ∀ t x,
        (c.context .named).written? 1 r s = some (t, x) → c.ComesBack .named t x (back s)) ∧
      ((c.encode (.record 1) r .named).2.decode (.record 1) bs .named).1 = .ok y ∧
      (c.context .named).Regains 1 r back y := by
  intro c r
  have slots : ((c.context .named).layout 1).slots =
      [⟨"done", [1], false⟩, ⟨"x", [0, 0], false⟩] := slots_visit .named
  have done : (Datum.bool false).script (c.context .named) .bool = .bool false := by
    rw [Datum.script]
    rfl
  have x : (Datum.int 5).script (c.context .named) .byte = .uint 5 := by
    rw [Datum.script]
    rfl
  have written : (c.encode (.record 1) r .named).1 =
      .ok [0x82, 0xa4, 100, 111, 110, 101, 0xc2, 0xa1, 120, 5] := by
    refine encode_eq_ok.2 ?_
    rw [Datum.script_counted _ r rfl rfl, slots]
    · change (_ ++ (_ ++ Script.all [
        .text "done" ++ (Datum.bool false).script (c.context .named) .bool,
        .text "x" ++ (Datum.int 5).script (c.context .named) .byte])).Puts _
      rw [done, x]
      rfl
    · change (Layout.resolve visitCatalog 1 .named).slots.all _ = _
      rw [slots_visit]
      rfl
  have doneFlat : Flat [0xc2] := .of_header (Header.stands_bool false) rfl ⟨rfl, rfl⟩
  have doneBack : c.ComesBack .named .bool (.bool false) (.bool false) :=
    .of_restores (fun _ h => by cases h) (.bool false) (by rw [done]; rfl) (doneFlat.complete _)
  have xFlat : Flat [5] := .of_header (Header.stands_posFix 5) rfl ⟨rfl, rfl⟩
  have xBack : c.ComesBack .named .byte (.int 5) (.int 5) :=
    .of_restores (fun _ h => by cases h) (.whole rfl) (by rw [x]; rfl) (xFlat.complete _)
  have each : ∀ s ∈ ((c.context .named).layout 1).slots, ∀ t x,
      (c.context .named).written? 1 r s = some (t, x) →
        c.ComesBack .named t x (if s.path = [1] then .bool false else .int 5) := by
    rw [slots]
    intro s hs t x there
    rcases List.mem_cons.1 hs with rfl | hs
    · cases there
      exact doneBack
    · obtain rfl := List.mem_singleton.1 hs
      cases there
      exact xBack
  have derived : visitCatalog.Derived 1 := .of_all rfl
  have zero : c.catalog.ZeroDefaults := .of_all rfl
  obtain ⟨-, comes, -⟩ := decode_encode_record (.fresh _) zero rfl derived ofType_visit each written
  have nests : Complete maxDepth 1 [0x82, 0xa4, 100, 111, 110, 101, 0xc2, 0xa1, 120, 5] := by
    have doneKey : Flat [0xa4, 100, 111, 110, 101] :=
      .of_header (Header.stands_fixText 4) rfl ⟨rfl, rfl⟩
    have xKey : Flat [0xa1, 120] := .of_header (Header.stands_fixText 1) rfl ⟨rfl, rfl⟩
    exact .of_deep (Header.stands_fixMap 2) rfl ⟨rfl, rfl⟩
      (((doneKey.complete 255).append (doneFlat.complete 255)).append
        ((xKey.complete 255).append (xFlat.complete 255)))
  obtain ⟨y, decoded, regains, -⟩ := comes nests
  exact ⟨_, _, y, zero, derived, ofType_visit, written, nests, each, decoded, regains⟩

end Codec

end MessagePack
