import MessagePack.Proofs.Decode.Nil
import MessagePack.Proofs.Encode.Uncounted
import MessagePack.Proofs.Encode.Whole
import MessagePack.Proofs.Record.Filling
/-!
# Records come back slot by slot

While a record is read, the destination is always a fresh record filled with what the slots so far
carried.  A slot that carries a value finds a zero at the end of its path and puts what comes back
there; a slot that was written as nil, because its field is nil or because an embedded record is
absent, changes nothing.

Main statement: `Context.Restores.record`, in either mode.
-/

namespace MessagePack

namespace Context

open Datum InPlace Decoded Parse

variable {cx : Context} {id : RecordId} {r x : Datum} {t : Ty} {s : Slot} {back : Slot → Datum}
  {done rest : List Slot} {bs u : List UInt8} {n : Nat}

/-! ## 1. What is written for a record -/

/-- **A record in an array is written as its slots.** -/
theorem puts_positional (unbound : cx.isBound id = false) (mode : cx.mode = .positional)
    (puts : (r.script cx (.record id)).Puts bs) :
    ∃ (h : Header) (body inside : List UInt8), bs = h.toByte :: (body ++ inside) ∧ h.Stands ∧
      h.isArray = true ∧ h.Owes body (cx.layout id).slots.length ∧
      (Script.all ((cx.layout id).slots.map (positionalScript cx id r))).Puts inside := by
  rw [script_positional cx r unbound mode] at puts
  obtain ⟨_, u, ⟨⟩, hu, rfl⟩ := Script.puts_append.1 puts
  exact Script.puts_array hu

/-- **A record in a map is written as the slots that are present**, whether or not they are counted:
a layout that leaves nothing out is written only if all its slots are there. -/
theorem puts_named (resolved : cx.layout id = .resolve cx.catalog id cx.mode)
    (unbound : cx.isBound id = false) (mode : cx.mode = .named)
    (puts : (r.script cx (.record id)).Puts bs) :
    ∃ (h : Header) (body inside : List UInt8), bs = h.toByte :: (body ++ inside) ∧ h.Stands ∧
      h.isMap = true ∧ h.Owes body (2 * cx.entryCount id r (cx.layout id).slots) ∧
      (Script.all ((cx.layout id).slots.map (presentScript cx id r))).Puts inside := by
  cases never : (cx.layout id).neverOmits with
  | false =>
    rw [script_counted cx r unbound mode never] at puts
    obtain ⟨_, u, ⟨⟩, hu, rfl⟩ := Script.puts_append.1 puts
    exact Script.puts_map hu
  | true =>
    rw [script_direct cx r unbound mode never] at puts
    obtain ⟨_, u, ⟨⟩, hu, rfl⟩ := Script.puts_append.1 puts
    obtain ⟨_, _, _, _, _, _, _, all⟩ := Script.puts_map hu
    have kept : ∀ s ∈ (cx.layout id).slots, s.omitEmpty = false := by
      rw [resolved] at never ⊢
      exact fun s slot => (Catalog.own_of_neverOmits never slot).1
    have found : ∀ s ∈ (cx.layout id).slots,
        (cx.catalog.lookup id s.path r).isSome = true := by
      intro s slot
      have own := (Script.puts_each.1 all).1 s slot
      cases there : cx.catalog.lookup id s.path r with
      | none =>
        rw [directScript, there] at own
        cases own
      | some _ => rfl
    rw [← uncounted, uncounted_eq_counted kept found] at hu
    exact Script.puts_map hu

/-! ## 2. One slot -/

/-- The field that a slot leads to is fresh, if it is there, or comes into being fresh. -/
structure FreshAt (cx : Context) (id : RecordId) (s : Slot) (f : FieldDecl) (d : Datum) : Prop where
  derived : cx.catalog.Derived id
  shaped : cx.catalog.Shaped (.record id) d
  leads : cx.catalog.Leads id s.path f
  direct : f.isDirect = true
  initial : ∀ y, cx.catalog.Yields id s.path d f y → y = cx.catalog.initial f.type

namespace FreshAt

variable {f : FieldDecl} {d y : Datum}

/-- What is read for the field stands there afterwards, allocated on the way if need be. -/
theorem takes_into (fresh : cx.FreshAt id s f d)
    (takes : (parse (read cx n f.type (cx.catalog.initial f.type))).Takes u y) :
    (parse (intoSlot cx (read cx n) id s d)).Takes u (cx.catalog.put id s.path d y) := by
  obtain ⟨z, d', reached, yields, puts⟩ :=
    Catalog.reach_eq s.name fresh.shaped fresh.derived fresh.leads fresh.direct
  obtain rfl := fresh.initial z yields
  rw [parse_intoSlot, reached, ← puts]
  exact takes.map (g := fun y => cx.catalog.put id s.path d' y)

/-- **Nil leaves a fresh field as it is.** -/
theorem takes_nil (fresh : cx.FreshAt id s f d)
    (takes : (parse (read cx n f.type (cx.catalog.initial f.type))).Takes [Header.nil.toByte] y) :
    (parse (slot cx (read cx n) id s d)).Takes [Header.nil.toByte] d := by
  rw [parse_slot]
  by_cases missing : 1 < s.path.length ∧ (cx.catalog.lookup id s.path d).isNone = true
  · rw [if_pos missing]
    exact Read.takes_tryNil_nil (takes_pure d)
  · rw [if_neg missing]
    have into := fresh.takes_into takes
    rw [eq_initial_of_takes_nil takes] at into
    -- what nil leaves of a fresh field is what is there
    cases there : cx.catalog.lookup id s.path d with
    | none =>
      have none' := (Catalog.lookup_eq_none fresh.derived fresh.leads fresh.direct).1 there
      exact (missing ⟨fresh.leads.one_lt_length fresh.shaped none', by rw [there]; rfl⟩).elim
    | some found =>
      have holds := ((Catalog.lookup_eq_some fresh.derived fresh.leads fresh.direct).1 there).2
      rw [fresh.initial _ holds.yields] at holds
      rwa [holds.put_eq fresh.shaped fresh.derived] at into

/-- **Any other value is put into a fresh field.** -/
theorem takes_other (fresh : cx.FreshAt id s f d) (whole : Complete n 1 u)
    (other : u ≠ [Header.nil.toByte])
    (takes : (parse (read cx n f.type (cx.catalog.initial f.type))).Takes u y) :
    (parse (slot cx (read cx n) id s d)).Takes u (cx.catalog.put id s.path d y) := by
  have into := fresh.takes_into takes
  rw [parse_slot]
  by_cases missing : 1 < s.path.length ∧ (cx.catalog.lookup id s.path d).isNone = true
  · rw [if_pos missing]
    cases u with
    | nil => exact (whole.ne_nil rfl).elim
    | cons b v =>
      refine Read.takes_tryNil_other ?_ into
      rintro rfl
      exact other (by rw [whole.nil_alone])
  · rw [if_neg missing]
    exact into

end FreshAt

/-- Each field of `r` that is written comes back by itself, as what `back` says of its slot. -/
structure SlotsRestore (cx : Context) (id : RecordId) (r : Datum) (back : Slot → Datum) : Prop where
  resolves : cx.Resolves id
  shaped : cx.catalog.Shaped (.record id) r
  each : ∀ s ∈ (cx.layout id).slots, ∀ t x, cx.written? id r s = some (t, x) →
    cx.Restores t x (back s)

/-- What a slot carries is not put as nil. -/
theorem carries_iff (written : cx.written? id r s = some (t, x)) (puts : (x.script cx t).Puts u) :
    cx.carries id r s = true ↔ u ≠ [Header.nil.toByte] := by
  rw [carries, carried?, written, Option.filter_some, ← puts.eq]
  by_cases nil : u = [Header.nil.toByte]
  · simp [nil]
  · simp [nil]

namespace SlotsRestore

/-- The slots of a layout, some of which were read and one of which is next. -/
theorem mem_of_split (split : (cx.layout id).slots = done ++ s :: rest) :
    s ∈ (cx.layout id).slots ∧ ∀ t ∈ done, t ∈ (cx.layout id).slots := by
  rw [split]
  exact ⟨List.mem_append_right _ (List.mem_cons_self ..), fun t ht => List.mem_append_left _ ht⟩

/-- No slot that was read leads to the field of the next or through it. -/
theorem apart (resolves : cx.Resolves id) (split : (cx.layout id).slots = done ++ s :: rest) :
    ∀ t ∈ done, ¬ s.path <+: t.path := by
  have apart := resolves.apart
  rw [split] at apart
  intro t ht
  exact ((List.pairwise_append.1 apart).2.2 t ht s (List.mem_cons_self ..)).2

/-- **A slot that is absent is read past.** -/
theorem takes_absent (slots : cx.SlotsRestore id r back)
    (split : (cx.layout id).slots = done ++ s :: rest)
    (absent : cx.catalog.lookup id s.path r = none) (deeper : Ty → InPlace) :
    (parse (slot cx deeper id s (cx.filled id r back done))).Takes [Header.nil.toByte]
      (cx.filled id r back (done ++ [s])) := by
  obtain ⟨slot, within⟩ := mem_of_split split
  have missing : cx.catalog.lookup id s.path (cx.filled id r back done) = none :=
    slots.resolves.lookup_filled_of_absent within slots.shaped slot absent
  have carries : cx.carries id r s = false := by
    cases e : cx.carried? id r s with
    | none =>
      rw [Context.carries, e]
      rfl
    | some found =>
      rw [lookup_of_carried e] at absent
      cases absent
  have long : 1 < s.path.length := by
    obtain ⟨f, leads, direct⟩ := slots.resolves.lead slot
    rw [Catalog.lookup_eq_none slots.resolves.derived leads direct] at absent
    exact leads.one_lt_length slots.shaped absent
  rw [parse_slot, if_pos ⟨long, by rw [missing]; rfl⟩, filled_concat_of_not carries]
  exact Read.takes_tryNil_nil (takes_pure _)

/-- **A slot that is written is read into its field**, which held a zero until then. -/
theorem takes_written (slots : cx.SlotsRestore id r back)
    (split : (cx.layout id).slots = done ++ s :: rest)
    (written : cx.written? id r s = some (t, x)) (puts : (x.script cx t).Puts u)
    (room : Complete n 1 u) :
    (parse (slot cx (read cx n) id s (cx.filled id r back done))).Takes u
      (cx.filled id r back (done ++ [s])) := by
  obtain ⟨slot, within⟩ := mem_of_split split
  obtain ⟨f, leads, direct⟩ := slots.resolves.lead slot
  obtain ⟨rfl, -⟩ := (Catalog.lookup_eq_some slots.resolves.derived leads direct).1
    (lookup_of_written written)
  have fresh : cx.FreshAt id s f (cx.filled id r back done) :=
    ⟨slots.resolves.derived, slots.resolves.shaped_filled within, leads, direct, fun y yields =>
      slots.resolves.eq_initial within yields fun t ht _ => apart slots.resolves split t ht⟩
  have back' := (slots.each s slot _ x written).takes puts room
  by_cases nil : u = [Header.nil.toByte]
  · have carries : cx.carries id r s = false := by
      rw [Bool.eq_false_iff, ne_eq, carries_iff written puts]
      exact fun other => other nil
    subst nil
    rw [filled_concat_of_not carries]
    exact fresh.takes_nil back'
  · rw [filled_concat_of_carries ((carries_iff written puts).2 nil)]
    exact fresh.takes_other room nil back'

/-! ## 3. All slots of an array -/

theorem complete_positional (slots : cx.SlotsRestore id r back)
    (within : ∀ s ∈ rest, s ∈ (cx.layout id).slots) (mode : cx.mode = .positional)
    (puts : (Script.all (rest.map (positionalScript cx id r))).Puts bs) :
    ∃ k, Complete k rest.length bs := by
  refine Context.complete_positional (fun s hs t x there _ => ?_) puts
  refine (slots.each s (within s hs) t x ?_).complete
  rw [written?, mode]
  exact there

/-- **The slots of an array are read one after another.** -/
theorem takes_slots (slots : cx.SlotsRestore id r back) (mode : cx.mode = .positional)
    (split : (cx.layout id).slots = done ++ rest)
    (puts : (Script.all (rest.map (positionalScript cx id r))).Puts bs)
    (room : Complete n rest.length bs) :
    (parse (InPlace.slots cx (read cx n) id rest.length rest (cx.filled id r back done))).Takes bs
      (cx.filled id r back (done ++ rest)) := by
  induction rest generalizing bs done with
  | nil =>
    cases puts
    rw [List.append_nil]
    exact takes_pure _
  | cons s rest ih =>
    obtain ⟨u, v, hu, hv, rfl⟩ := Script.puts_append.1 puts
    have here : ∀ t ∈ [s], t ∈ (cx.layout id).slots := fun t ht => by
      rw [List.mem_singleton.1 ht]
      exact (mem_of_split split).1
    have alone : (Script.all ([s].map (positionalScript cx id r))).Puts (u ++ []) :=
      Script.puts_append.2 ⟨u, [], hu, rfl, rfl⟩
    obtain ⟨k, whole⟩ := slots.complete_positional here mode alone
    rw [List.append_nil] at whole
    rw [List.length_cons, Nat.add_comm] at room
    obtain ⟨first, later⟩ := room.of_append whole
    -- what was read of `s` now belongs to what is done
    have split' : (cx.layout id).slots = done ++ [s] ++ rest := by
      rw [split, List.append_assoc]
      rfl
    have next := ih split' hv later
    rw [List.append_assoc] at next
    rw [List.length_cons, parse_slots_succ]
    refine Takes.bind (u := u) ?_ next
    unfold positionalScript at hu
    split at hu
    · rename_i t x there
      refine slots.takes_written split ?_ hu first
      rw [written?, mode]
      exact there
    · rename_i absent
      obtain rfl := (Script.puts_put _).1 hu
      exact slots.takes_absent split absent (read cx n)

/-! ## 4. All entries of a map -/

theorem written?_named (mode : cx.mode = .named) : cx.written? id r s = cx.present? id r s := by
  rw [written?, mode]

/-- **A key finds its slot.** -/
theorem takes_slotNamed {layout : Layout} (found : ∃ i, layout.position s.name = some i ∧
    layout.slots[i]? = some s) (puts : (Script.text s.name).Puts u) :
    Flat u ∧ (slotNamed layout).parse.Takes u (some s) := by
  obtain ⟨h, body, e, rfl⟩ := Script.puts_announced.1 puts
  obtain ⟨isText, holds⟩ := Family.text_announces e
  have stands := Family.stands_header? e
  obtain ⟨i, place, slot⟩ := found
  have key : (slotNamed layout).parse.Takes _ _ := InPlace.takes_slotNamed stands isText holds
  rw [place, Option.bind_some, slot] at key
  exact ⟨.of_header stands holds.flat holds.owes, key⟩

theorem complete_named (slots : cx.SlotsRestore id r back)
    (within : ∀ s ∈ rest, s ∈ (cx.layout id).slots) (mode : cx.mode = .named)
    (puts : (Script.all (rest.map (presentScript cx id r))).Puts bs) :
    ∃ k, Complete k (2 * entryCount cx id r rest) bs :=
  complete_present (fun s hs t x there _ =>
    (slots.each s (within s hs) t x ((written?_named mode).trans there)).complete) puts

/-- **The entries of a map are read one after another.** -/
theorem takes_namedSlots (slots : cx.SlotsRestore id r back) (mode : cx.mode = .named)
    (split : (cx.layout id).slots = done ++ rest)
    (puts : (Script.all (rest.map (presentScript cx id r))).Puts bs)
    (room : Complete n (2 * entryCount cx id r rest) bs) :
    (parse (namedSlots cx (read cx n) id (cx.layout id) (entryCount cx id r rest)
      (cx.filled id r back done))).Takes bs (cx.filled id r back (done ++ rest)) := by
  induction rest generalizing bs done with
  | nil =>
    cases puts
    rw [List.append_nil]
    exact takes_pure _
  | cons s rest ih =>
    obtain ⟨u, v, hu, hv, rfl⟩ := Script.puts_append.1 puts
    have split' : (cx.layout id).slots = done ++ [s] ++ rest := by
      rw [split, List.append_assoc]
      rfl
    have next := ih split' hv
    rw [List.append_assoc] at next
    obtain ⟨slot, -⟩ := mem_of_split split
    unfold presentScript at hu
    unfold entryCount at room next ⊢
    split at hu
    · rename_i t x present
      rw [List.countP_cons_of_pos (by rw [present]; rfl)] at room ⊢
      obtain ⟨w, w', hw, hw', rfl⟩ := Script.puts_append.1 hu
      have written := (written?_named mode).trans present
      obtain ⟨j, value⟩ := (slots.each s slot t x written).complete hw'
      have place := slots.resolves.position mode slot
      obtain ⟨flat, key⟩ := takes_slotNamed place hw
      rw [Nat.mul_succ, Nat.add_comm] at room
      obtain ⟨both, later⟩ := room.of_append ((flat.complete j).append value)
      obtain ⟨-, inValue⟩ := both.of_append (m := 1) (n := 1) (flat.complete 0)
      rw [parse_namedSlots_succ, List.append_assoc]
      exact key.bind ((slots.takes_written split written hw' inValue).bind (next later))
    · -- a slot that is not written is not read, and the record is filled as before
      rename_i absent
      cases hu
      have carries : cx.carries id r s = false := by
        rw [Context.carries, carried?, written?_named mode, absent]
        rfl
      rw [List.countP_cons_of_neg (by rw [absent]; decide)] at room ⊢
      have same : cx.filled id r back (done ++ [s]) = cx.filled id r back done :=
        filled_concat_of_not carries
      rw [same] at next
      exact next room

/-! ## 5. Records -/

/-- What is put for one slot. -/
def slotScript (cx : Context) (id : RecordId) (r : Datum) (s : Slot) : Script :=
  match cx.mode with
  | .positional => positionalScript cx id r s
  | .named => presentScript cx id r s

/-- How many values a record has inside: one for each slot, or two for each entry. -/
def owed (cx : Context) (id : RecordId) (r : Datum) : Nat :=
  match cx.mode with
  | .positional => (cx.layout id).slots.length
  | .named => 2 * entryCount cx id r (cx.layout id).slots

/-- Whether a header is one that records start with. -/
def announces (cx : Context) (h : Header) : Bool :=
  match cx.mode with
  | .positional => h.isArray
  | .named => h.isMap

/-- What announces slots is a container. -/
theorem isContainer_of_announces {h : Header} (announces : announces cx h = true) :
    h.isContainer = true := by
  unfold SlotsRestore.announces at announces
  split at announces
  · exact Header.isContainer_of_isArray announces
  · exact Header.isContainer_of_isMap announces

/-- **A record is written as a header and its slots.** -/
theorem puts_record (resolved : cx.layout id = .resolve cx.catalog id cx.mode)
    (unbound : cx.isBound id = false) (puts : (r.script cx (.record id)).Puts bs) :
    ∃ (h : Header) (body inside : List UInt8), bs = h.toByte :: (body ++ inside) ∧ h.Stands ∧
      announces cx h = true ∧ h.Owes body (owed cx id r) ∧
      (Script.all ((cx.layout id).slots.map (slotScript cx id r))).Puts inside := by
  unfold announces owed slotScript
  cases mode : cx.mode with
  | positional =>
    exact puts_positional unbound mode puts
  | named =>
    exact puts_named resolved unbound mode puts

/-- What stands inside is as many values as are owed. -/
theorem complete_inside (slots : cx.SlotsRestore id r back)
    (puts : (Script.all ((cx.layout id).slots.map (slotScript cx id r))).Puts bs) :
    ∃ k, Complete k (owed cx id r) bs := by
  have all : ∀ s ∈ (cx.layout id).slots, s ∈ (cx.layout id).slots := fun _ hs => hs
  unfold slotScript at puts
  unfold owed
  cases mode : cx.mode with
  | positional =>
    rw [mode] at puts
    exact slots.complete_positional all mode puts
  | named =>
    rw [mode] at puts
    exact slots.complete_named all mode puts

/-- If a record is written, so is each of its fields that has a slot of its own there. -/
theorem puts_written (resolved : cx.layout id = .resolve cx.catalog id cx.mode)
    (unbound : cx.isBound id = false) (puts : (r.script cx (.record id)).Puts bs)
    (slot : s ∈ (cx.layout id).slots)
    (written : cx.written? id r s = some (t, x)) :
    (x.script cx t).Puts (x.script cx t).effect.1 := by
  obtain ⟨_, _, _, -, -, -, -, all⟩ := puts_record resolved unbound puts
  have own := (Script.puts_each.1 all).1 s slot
  unfold slotScript at own
  unfold written? at written
  cases mode : cx.mode with
  | positional =>
    rw [mode] at own written
    simp only [positionalScript, written] at own
    exact own
  | named =>
    rw [mode] at own written
    simp only [presentScript, written] at own
    obtain ⟨_, _, -, value, -⟩ := Script.puts_append.1 own
    exact value.self

end SlotsRestore

/-- A record that goes by its fields is a container. -/
theorem wireKind_unbound (unbound : cx.isBound id = false) :
    (cx.wireKind (.record id) r).isContainer = true := by
  simp only [isBound, Bool.or_eq_false_iff] at unbound
  rw [wireKind]
  cases form : (cx.catalog.decl id).form with
  | plain =>
    rw [unbound.1]
    rfl
  | manual =>
    simp only [Ty.kind, form]
    rfl
  | external =>
    rw [form] at unbound
    cases unbound.2

/-- **A record comes back as a fresh one filled with what its slots carry.** -/
theorem Restores.record (slots : cx.SlotsRestore id r back) (unbound : cx.isBound id = false) :
    cx.Restores (.record id) r (cx.filled id r back (cx.layout id).slots) := by
  constructor
  · intro bs puts
    obtain ⟨h, body, inside, rfl, stands, announces, own, all⟩ :=
      SlotsRestore.puts_record slots.resolves.layout unbound puts
    obtain ⟨k, inner⟩ := slots.complete_inside all
    exact ⟨k + 1, .of_deep stands (SlotsRestore.isContainer_of_announces announces) own inner⟩
  · intro bs puts kind
    rw [wireKind_unbound unbound] at kind
    cases kind
  · intro bs n puts room
    obtain ⟨h, body, inside, rfl, stands, announces, own, all⟩ :=
      SlotsRestore.puts_record slots.resolves.layout unbound puts
    obtain ⟨m, rfl, inner⟩ := (Complete.deep_iff stands
      (SlotsRestore.isContainer_of_announces announces) own).1 room
    rw [read_eq, readStep, parse_record unbound]
    refine Takes.retrace (p := (parse (InPlace.fields cx (Datum.read cx m) id _)).nested)
      (Takes.nested ?_) (.consult id)
    unfold SlotsRestore.announces at announces
    unfold SlotsRestore.owed at own inner
    unfold SlotsRestore.slotScript at all
    have split : (cx.layout id).slots = [] ++ (cx.layout id).slots := rfl
    cases mode : cx.mode with
    | positional =>
      rw [mode] at announces own inner all
      rw [parse_fields_positional mode]
      refine (Read.takes_arrayLength .record stands announces own).bind (u := h.toByte :: body) ?_
      exact slots.takes_slots mode split all inner
    | named =>
      rw [mode] at announces own inner all
      rw [parse_fields_named mode]
      refine (Read.takes_mapLength .record stands announces own).bind (u := h.toByte :: body) ?_
      exact slots.takes_namedSlots mode split all inner

end Context

end MessagePack
