import MessagePack.Proofs.Encode.Uncounted
import MessagePack.Proofs.Record.Filling
import MessagePack.Proofs.Record.Vanishing
/-!
# What is lost with an omitted zero

A field may leave out a datum that `Catalog.isZero` holds of, and a reader fills it with the zero of
its type.  The two are written alike: in the same number of bytes, with the same faults and layouts.
The one thing that may be lost is the sign of a float's zero, since zeros of either sign count as
zeros; nothing is lost exactly when no float with the sign set is among what is written.

`SignsApart` relates the bytes and `Script.Alike` the scripts.  A record keeps what it has in fields
that are not visible, and such fields are not written at all.

Main statements: `Datum.alike_script` and `Codec.encode_of_isZero`.
-/

namespace MessagePack

/-! ## 1. Bytes and scripts that differ in signs -/

/-- Bytes that differ in the signs of float zeros and in nothing else. -/
inductive SignsApart : List UInt8 → List UInt8 → Prop
  | none : SignsApart [] []
  | same {bs bs' : List UInt8} (b : UInt8) (rest : SignsApart bs bs') :
      SignsApart (b :: bs) (b :: bs')
  | single {bs bs' : List UInt8} (rest : SignsApart bs bs') :
      SignsApart ([0xca, 0x80, 0, 0, 0] ++ bs) ([0xca, 0, 0, 0, 0] ++ bs')
  | double {bs bs' : List UInt8} (rest : SignsApart bs bs') :
      SignsApart ([0xcb, 0x80, 0, 0, 0, 0, 0, 0, 0] ++ bs) ([0xcb, 0, 0, 0, 0, 0, 0, 0, 0] ++ bs')

namespace SignsApart

variable {as as' bs bs' : List UInt8}

theorem refl : ∀ bs : List UInt8, SignsApart bs bs
  | [] => .none
  | b :: bs => .same b (refl bs)

theorem append (first : SignsApart as as') (next : SignsApart bs bs') :
    SignsApart (as ++ bs) (as' ++ bs') := by
  induction first with
  | none => exact next
  | same b _ ih => exact .same b ih
  | single _ ih => exact .single ih
  | double _ ih => exact .double ih

/-- Bytes that differ in signs are as many. -/
theorem length_eq (apart : SignsApart bs bs') : bs.length = bs'.length := by
  induction apart with
  | none => rfl
  | same _ _ ih => exact congrArg Nat.succ ih
  | single _ ih | double _ ih => simp only [List.length_append, List.length_cons, ih]

end SignsApart

namespace Script

variable {p q : Prop} {a a' b b' s s' : Script}

/-- The scripts end alike, look up the same layouts and put bytes that differ in signs alone; if
they end well, the bytes are the same unless `sign` holds. -/
structure Alike (sign : Prop) (s s' : Script) : Prop where
  outcome : s.effect.2 = s'.effect.2
  noted : ∀ known, s.noted known = s'.noted known
  apart : SignsApart s.effect.1 s'.effect.1
  exact : s.effect.2 = .ok () → (s.effect.1 = s'.effect.1 ↔ ¬ sign)

namespace Alike

theorem refl (unsigned : ¬ p) (s : Script) : Alike p s s :=
  ⟨rfl, fun _ => rfl, .refl _, fun _ => iff_of_true rfl unsigned⟩

/-- When signs are written may be told in other words. -/
theorem congr (alike : Alike p s s') (same : p ↔ q) : Alike q s s' :=
  ⟨alike.outcome, alike.noted, alike.apart, fun ended =>
    (alike.exact ended).trans (not_congr same)⟩

theorem append (first : Alike p a a') (next : Alike q b b') :
    Alike (p ∨ q) (a ++ b) (a' ++ b') := by
  have outcome := first.outcome
  cases ended : a.effect.2 with
  | error f =>
    rw [ended] at outcome
    refine ⟨?_, fun known => ?_, ?_, fun well => ?_⟩
    · rw [effect_append, effect_append, ended, ← outcome]
    · change Script.noted (.seq a b) known = Script.noted (.seq a' b') known
      simp only [Script.noted, ended, ← outcome, first.noted]
    · rw [effect_append, effect_append, ended, ← outcome]
      exact first.apart
    · rw [effect_append, ended] at well
      cases well
  | ok u =>
    rw [ended] at outcome
    refine ⟨?_, fun known => ?_, ?_, fun well => ?_⟩
    · rw [effect_append, effect_append, ended, ← outcome]
      exact next.outcome
    · change Script.noted (.seq a b) known = Script.noted (.seq a' b') known
      simp only [Script.noted, ended, ← outcome, first.noted, next.noted]
    · rw [effect_append, effect_append, ended, ← outcome]
      exact first.apart.append next.apart
    · rw [effect_append, ended] at well
      rw [effect_append, effect_append, ended, ← outcome, not_or, ← first.exact ended,
        ← next.exact well]
      constructor
      · exact fun same => List.append_inj same first.apart.length_eq
      · rintro ⟨same, same'⟩
        rw [same, same']

/-- What comes before both is the same. -/
theorem append_left (alike : Alike p s s') (before : Script) :
    Alike p (before ++ s) (before ++ s') :=
  ((refl not_false before).append alike).congr (or_iff_right not_false)

/-- Scripts that are alike one by one are alike in a row. -/
theorem all {α : Type} {l : List α} {sign : α → Prop} {f g : α → Script}
    (each : ∀ x ∈ l, Alike (sign x) (f x) (g x)) :
    Alike (∃ x ∈ l, sign x) (Script.all (l.map f)) (Script.all (l.map g)) := by
  induction l with
  | nil => exact refl (by simp) .done
  | cons x l ih =>
    obtain ⟨first, rest⟩ := List.forall_mem_cons.1 each
    exact (first.append (ih rest)).congr (by simp)

end Alike

/-- **Scripts that are alike encode alike.** -/
theorem Alike.encode (alike : Alike p s s') :
    s.encode.notes = s'.encode.notes ∧
      ((∃ f, s.encode.result = .error f ∧ s'.encode.result = .error f) ∨
        ∃ bs bs', s.encode.result = .ok bs ∧ s'.encode.result = .ok bs' ∧ SignsApart bs bs' ∧
          (bs = bs' ↔ ¬ p)) := by
  refine ⟨?_, ?_⟩
  · rw [notes_encode, notes_encode, ← alike.outcome]
    simp only [alike.noted]
  · rw [encode_result, encode_result, bytes, bytes, ← alike.outcome]
    cases ended : s.effect.2 with
    | error f => exact .inl ⟨f, rfl, rfl⟩
    | ok u => exact .inr ⟨_, _, rfl, rfl, alike.apart, alike.exact ended⟩

end Script

/-! ## 2. Zeros of floats -/

/-- A pattern is a zero when both fields behind its sign bit are. -/
theorem FloatFormat.isZero_classify (f : FloatFormat) (wide : 1 < f.exponents) (bits : Nat) :
    (f.classify bits).isZero = true ↔
      bits % f.fractions = 0 ∧ bits / f.fractions % f.exponents = 0 := by
  have some' : 0 < f.fractions := Nat.two_pow_pos f.fractionBits
  simp only [classify]
  split
  · rename_i top
    have not_zero : bits / f.fractions % f.exponents ≠ 0 := by omega
    split <;> simp [FloatClass.isZero, not_zero]
  · split
    · rename_i low
      simp [FloatClass.isZero, low]
    · rename_i low
      have not_zero : f.fractions ≠ 0 := Nat.ne_of_gt some'
      simp [FloatClass.isZero, low, not_zero]

/-- There are two zeros of 32 bits, one with a sign. -/
theorem Single.isZero_iff {x : Single} :
    x.classify.isZero = true ↔ x.bits = 0 ∨ x.bits = 0x80000000 := by
  have bound : x.bits.toNat < 2 ^ 32 := x.bits.toNat_lt
  rw [classify, FloatFormat.isZero_classify _ (by decide), ← UInt32.toNat_inj, ← UInt32.toNat_inj]
  change x.bits.toNat % 2 ^ 23 = 0 ∧ x.bits.toNat / 2 ^ 23 % 2 ^ 8 = 0 ↔
    x.bits.toNat = 0 ∨ x.bits.toNat = 2 ^ 31
  omega

/-- And two of 64. -/
theorem Double.isZero_iff {x : Double} :
    x.classify.isZero = true ↔ x.bits = 0 ∨ x.bits = 0x8000000000000000 := by
  have bound : x.bits.toNat < 2 ^ 64 := x.bits.toNat_lt
  rw [classify, FloatFormat.isZero_classify _ (by decide), ← UInt64.toNat_inj, ← UInt64.toNat_inj]
  change x.bits.toNat % 2 ^ 52 = 0 ∧ x.bits.toNat / 2 ^ 52 % 2 ^ 11 = 0 ↔
    x.bits.toNat = 0 ∨ x.bits.toNat = 2 ^ 63
  omega

namespace Script

/-- The one with a sign is written like the other, but for the sign. -/
theorem alike_single : Alike True (.single ⟨0x80000000⟩) (.single default) := by
  have puts : (single ⟨0x80000000⟩).Puts [0xca, 0x80, 0, 0, 0] := rfl
  have puts' : (single default).Puts [0xca, 0, 0, 0, 0] := rfl
  refine ⟨rfl, fun _ => rfl, ?_, fun _ => ?_⟩
  · rw [← puts.eq, ← puts'.eq]
    exact .single .none
  · rw [← puts.eq, ← puts'.eq]
    decide

/-- Of 64 bits too. -/
theorem alike_double : Alike True (.double ⟨0x8000000000000000⟩) (.double default) := by
  have puts : (double ⟨0x8000000000000000⟩).Puts [0xcb, 0x80, 0, 0, 0, 0, 0, 0, 0] := rfl
  have puts' : (double default).Puts [0xcb, 0, 0, 0, 0, 0, 0, 0, 0] := rfl
  refine ⟨rfl, fun _ => rfl, ?_, fun _ => ?_⟩
  · rw [← puts.eq, ← puts'.eq]
    exact .double .none
  · rw [← puts.eq, ← puts'.eq]
    decide

end Script

/-! ## 3. Data that count as zeros -/

namespace Context

variable {cx : Context} {id : RecordId} {t : Ty} {d x : Datum} {s : Slot}

/-- Among what is written of the datum is a float's zero with its sign set. -/
inductive WritesSign (cx : Context) : Ty → Datum → Prop
  | single {x : Single} (sign : x.bits = 0x80000000) : WritesSign cx (.number .single) (.single x)
  | double {x : Double} (sign : x.bits = 0x8000000000000000) :
      WritesSign cx (.number .double) (.double x)
  | box {t : Ty} {x : Datum} (held : WritesSign cx t x) : WritesSign cx (.box t) x
  | slot {id : RecordId} {d x : Datum} {s : Slot} {t : Ty} (slot : s ∈ (cx.layout id).slots)
      (written : cx.written? id d s = some (t, x)) (inside : WritesSign cx t x) :
      WritesSign cx (.record id) d

/-- A box writes what is in it. -/
theorem writesSign_box_iff : cx.WritesSign (.box t) d ↔ cx.WritesSign t d := by
  constructor
  · intro sign
    cases sign
    assumption
  · exact .box

/-- A slot writes the sign of a float's zero. -/
def SlotSign (cx : Context) (id : RecordId) (d : Datum) (s : Slot) : Prop :=
  ∃ t x, cx.written? id d s = some (t, x) ∧ cx.WritesSign t x

/-- A record writes what its slots carry. -/
theorem writesSign_record_iff :
    cx.WritesSign (.record id) d ↔ ∃ s ∈ (cx.layout id).slots, cx.SlotSign id d s := by
  constructor
  · rintro (_ | _ | _ | ⟨slot, written, inside⟩)
    exact ⟨_, slot, _, _, written, inside⟩
  · rintro ⟨s, slot, t, x, written, inside⟩
    exact .slot slot written inside

/-- A slot finds nothing in the record and in a fresh one; or it finds data that count as zeros and
are written alike. -/
def Mirrors (cx : Context) (id : RecordId) (d : Datum) (s : Slot) : Prop :=
  let fresh := cx.catalog.initial (.record id)
  (cx.catalog.lookup id s.path d = none ∧ cx.catalog.lookup id s.path fresh = none) ∨
    ∃ t x, cx.catalog.lookup id s.path d = some (t, x) ∧
      cx.catalog.lookup id s.path fresh = some (t, cx.catalog.initial t) ∧
      cx.catalog.isZero t x = true ∧ cx.catalog.isZero t (cx.catalog.initial t) = true ∧
      Script.Alike (cx.WritesSign t x) (x.script cx t) ((cx.catalog.initial t).script cx t)

namespace Mirrors

/-- A slot of an array writes what is there, or a nil where nothing is, in both records. -/
theorem positional (mode : cx.mode = .positional) (mirrors : cx.Mirrors id d s) :
    Script.Alike (cx.SlotSign id d s) (Datum.positionalScript cx id d s)
      (Datum.positionalScript cx id (cx.catalog.initial (.record id)) s) := by
  have written : ∀ r, cx.written? id r s = cx.catalog.lookup id s.path r := fun r => by
    rw [written?, mode]
  unfold Datum.positionalScript SlotSign
  rw [written]
  rcases mirrors with ⟨none', none''⟩ | ⟨t, x, found, found', -, -, alike⟩
  · rw [none', none'']
    exact .refl (by simp) _
  · rw [found, found']
    exact alike.congr (by simp)

/-- A zero is left out or not whichever of the two it is. -/
theorem present (mode : cx.mode = .named) (mirrors : cx.Mirrors id d s) :
    ((cx.present? id d s).isSome = (cx.present? id (cx.catalog.initial (.record id)) s).isSome) ∧
      Script.Alike (cx.SlotSign id d s) (Datum.presentScript cx id d s)
        (Datum.presentScript cx id (cx.catalog.initial (.record id)) s) := by
  have written : ∀ r, cx.written? id r s = cx.present? id r s := fun r => by rw [written?, mode]
  unfold Datum.presentScript SlotSign
  rw [written]
  unfold present?
  rcases mirrors with ⟨none', none''⟩ | ⟨t, x, found, found', zero, zero', alike⟩
  · rw [none', none'']
    exact ⟨rfl, .refl (by simp) _⟩
  · rw [found, found', Option.filter_some, Option.filter_some]
    simp only [zero, zero']
    cases s.omitEmpty with
    | true => exact ⟨rfl, .refl (by simp) _⟩
    | false => exact ⟨rfl, (alike.append_left _).congr (by simp)⟩

/-- A slot of a map that leaves nothing out writes its name too. -/
theorem direct (mode : cx.mode = .named) (kept : s.omitEmpty = false)
    (mirrors : cx.Mirrors id d s) :
    Script.Alike (cx.SlotSign id d s) (Datum.directScript cx id d s)
      (Datum.directScript cx id (cx.catalog.initial (.record id)) s) := by
  have written : cx.written? id d s = cx.catalog.lookup id s.path d := by
    rw [written?, mode]
    change (cx.catalog.lookup id s.path d).filter _ = _
    rw [kept]
    cases cx.catalog.lookup id s.path d <;> rfl
  unfold Datum.directScript SlotSign
  rw [written]
  rcases mirrors with ⟨none', none''⟩ | ⟨t, x, found, found', -, -, alike⟩
  · rw [none', none'']
    exact .refl (by simp) _
  · rw [found, found']
    exact (alike.append_left _).congr (by simp)

end Mirrors

/-- **A record is written like a fresh one if each slot is.** -/
theorem alike_record (resolved : cx.layout id = .resolve cx.catalog id cx.mode)
    (unbound : (cx.hasBinding (.record id) || (cx.catalog.decl id).form == .external) = false)
    (each : ∀ s ∈ (cx.layout id).slots, cx.Mirrors id d s) :
    Script.Alike (cx.WritesSign (.record id) d) (d.script cx (.record id))
      ((cx.catalog.initial (.record id)).script cx (.record id)) := by
  refine Script.Alike.congr ?_ writesSign_record_iff.symm
  cases mode : cx.mode with
  | positional =>
    rw [Datum.script_positional cx d unbound mode, Datum.script_positional cx _ unbound mode]
    have slots := Script.Alike.all fun s slot => (each s slot).positional mode
    exact (slots.append_left _).append_left _
  | named =>
    cases never : (cx.layout id).neverOmits with
    | true =>
      rw [Datum.script_direct cx d unbound mode never, Datum.script_direct cx _ unbound mode never]
      have kept : ∀ s ∈ (cx.layout id).slots, s.omitEmpty = false := by
        rw [resolved] at never ⊢
        exact fun s slot => (Catalog.own_of_neverOmits never slot).1
      have slots := Script.Alike.all fun s slot => (each s slot).direct mode (kept s slot)
      exact (slots.append_left _).append_left _
    | false =>
      rw [Datum.script_counted cx d unbound mode never,
        Datum.script_counted cx _ unbound mode never]
      -- the entries are announced before they are written, and both announce as many
      have count : ((cx.layout id).slots.countP fun s => (cx.present? id d s).isSome) =
          (cx.layout id).slots.countP fun s =>
            (cx.present? id (cx.catalog.initial (.record id)) s).isSome :=
        List.countP_congr fun s slot => by rw [((each s slot).present mode).1]
      rw [count]
      have slots := Script.Alike.all fun s slot => ((each s slot).present mode).2
      exact (slots.append_left _).append_left _

end Context

namespace Datum

variable {cx : Context}

/-- **A datum that counts as a zero is written like the default of its type**, the signs of its
floats' zeros aside, where the defaults of records are zeros. -/
theorem alike_script (zeros : cx.catalog.ZeroDefaults)
    (resolved : ∀ id, cx.layout id = .resolve cx.catalog id cx.mode) (t : Ty)
    (d : Datum) (typed : cx.catalog.OfType t d) (zero : cx.catalog.isZero t d = true)
    (unclaimed : ∀ id, cx.catalog.Shows t id → cx.hasBinding (.record id) = false) :
    Script.Alike (cx.WritesSign t d) (d.script cx t) ((cx.catalog.initial t).script cx t) := by
  match t with
  | .number .single =>
    cases typed with
    | whole fits => cases fits
    | single x =>
      rw [Catalog.isZero] at zero
      rcases Single.isZero_iff.1 zero with bits | bits
      · obtain rfl : x = default := congrArg Single.mk bits
        refine .refl ?_ _
        rintro ⟨sign⟩
        exact absurd sign (by decide)
      · obtain rfl : x = ⟨0x80000000⟩ := congrArg Single.mk bits
        rw [script, script]
        exact Script.alike_single.congr (iff_of_true trivial (.single rfl))
  | .number .double =>
    cases typed with
    | whole fits => cases fits
    | double x =>
      rw [Catalog.isZero] at zero
      rcases Double.isZero_iff.1 zero with bits | bits
      · obtain rfl : x = default := congrArg Double.mk bits
        refine .refl ?_ _
        rintro (_ | ⟨sign⟩)
        exact absurd sign (by decide)
      · obtain rfl : x = ⟨0x8000000000000000⟩ := congrArg Double.mk bits
        rw [script, script]
        exact Script.alike_double.congr (iff_of_true trivial (.double rfl))
  | .box t =>
    rw [Catalog.isZero] at zero
    rw [script_box, script_box]
    have held := alike_script zeros resolved t d typed.unbox zero fun id shows =>
      unclaimed id (.box shows)
    exact held.congr Context.writesSign_box_iff.symm
  | .record id =>
    -- a record that counts as a zero is a plain one, so without its own binding it goes field by
    -- field
    have plain : (cx.catalog.decl id).form = .plain := by
      cases typed
      exact (Catalog.isZero_record_iff.1 zero).1
    have unbound :
        (cx.hasBinding (.record id) || (cx.catalog.decl id).form == .external) = false := by
      rw [unclaimed id .self, plain]
      rfl
    refine Context.alike_record (resolved id) unbound fun s slot => ?_
    rcases Catalog.lookup_of_isZero zeros typed zero s.path with
      none' | ⟨u, x, found, found', typed', zero', sight⟩
    · exact .inl none'
    · have smaller := Catalog.sizeOf_lookup found
      exact .inr ⟨u, x, found, found', zero', Catalog.isZero_initial zeros typed' zero',
        alike_script zeros resolved u x typed' zero' fun k shows => unclaimed k (sight k shows)⟩
  | .bool | .number (.uint _) | .number (.int _) | .text | .bytes | .dynamic | .timestamp
  | .clockTime | .list _ | .array _ _ | .tuple _ | .option _ | .map _ _ _ =>
    -- of these types only what is fresh counts as a zero
    cases Catalog.vanishes_of_isZero typed zero
    refine .refl (fun sign => ?_) _
    cases sign
termination_by (sizeOf d, sizeOf t)
decreasing_by
  · exact Prod.Lex.right _ (by simp only [Ty.box.sizeOf_spec]; omega)
  · exact Prod.Lex.left _ _ smaller

end Datum

/-! ## 4. Writing -/

namespace Codec

/-- **Leaving out a zero loses the signs of floats' zeros and nothing else**, where the defaults of
records are zeros.  A datum that counts as a zero is encoded like the default of its type: with the
same fault, or in bytes that differ in those signs alone.  The bytes are the same unless such a sign
is written. -/
theorem encode_of_isZero {c : Codec} (reachable : c.Reachable) (zeros : c.catalog.ZeroDefaults)
    {t : Ty} {d : Datum} (typed : c.catalog.OfType t d) (zero : c.catalog.isZero t d = true)
    (unclaimed : ∀ id, c.catalog.Shows t id → c.registry.forHost? (.record id) = none)
    (mode : Mode) :
    let written := c.encode t d mode
    let filled := c.encode t (c.catalog.initial t) mode
    written.2 = filled.2 ∧
      ((∃ f, written.1 = .error f ∧ filled.1 = .error f) ∨
        ∃ bs bs', written.1 = .ok bs ∧ filled.1 = .ok bs' ∧ SignsApart bs bs' ∧
          (bs = bs' ↔ ¬ (c.context mode).WritesSign t d)) := by
  intro written filled
  have unbound : ∀ id, c.catalog.Shows t id → (c.context mode).hasBinding (.record id) = false := by
    intro id shows
    change (c.registry.forHost? (.record id)).isSome = false
    rw [unclaimed id shows]
    rfl
  have resolved : ∀ id, (c.context mode).layout id = .resolve c.catalog id mode :=
    reachable.consistent.resolved mode
  have initials : (c.context mode).catalog.ZeroDefaults := zeros
  have alike := Datum.alike_script initials resolved t d typed zero unbound
  obtain ⟨noted, results⟩ := alike.encode
  exact ⟨congrArg (fun n : Notes => c.rememberAll mode n.consulted) noted, results⟩

/-- A record of a float and of a number that is not visible. -/
def floatCatalog : Catalog where
  records := [
    { name := "Float",
      fields := [{ name := "x", type := .number .single },
        { name := "y", type := .byte, isPublic := false }] }]

/-- It is written as a map of its float alone. -/
theorem encode_floatCatalog (x : Single) (y : Int) :
    ((fresh floatCatalog).encode (.record 0) (.record [.single x, .int y]) .named).1 =
      (Script.consult 0 ++ (.header .map 1 ++ .all [.text "x" ++ .single x])).bytes := by
  let cx := (fresh floatCatalog).context .named
  have slots : (cx.layout 0).slots = [⟨"x", [0], false⟩] := by decide +kernel
  have never : (cx.layout 0).neverOmits = true := by decide +kernel
  have float : (Datum.single x).script cx (.number .single) = .single x := by
    rw [Datum.script]
    rfl
  change (Datum.script cx (.record 0) _).encode.result = _
  rw [Script.encode_result, Datum.script_direct cx _ rfl rfl never, slots]
  change (_ ++ (_ ++ Script.all [
    .text "x" ++ (Datum.single x).script cx (.number .single)])).bytes = _
  rw [float]
  rfl

/-- The sign of the float is lost, and nothing is lost with the number. -/
theorem encode_of_isZero_float :
    let c := fresh floatCatalog
    let d : Datum := .record [.single ⟨0x80000000⟩, .int 9]
    c.catalog.ZeroDefaults ∧ c.catalog.isZero (.record 0) d = true ∧
      (c.encode (.record 0) d .named).1 = .ok [0x81, 0xa1, 120, 0xca, 0x80, 0, 0, 0] ∧
      (c.encode (.record 0) (c.catalog.initial (.record 0)) .named).1 =
        .ok [0x81, 0xa1, 120, 0xca, 0, 0, 0, 0] ∧
      (c.encode (.record 0) d .named).2 =
        (c.encode (.record 0) (c.catalog.initial (.record 0)) .named).2 := by
  intro c d
  have typed : c.catalog.OfType (.record 0) d := by
    refine .record rfl fun i f x field here => ?_
    match i with
    | 0 =>
      cases field
      cases here
      exact .single _
    | 1 =>
      cases field
      cases here
      exact .whole (by decide)
    | i + 2 => cases here
  have zero : c.catalog.isZero (.record 0) d = true := by
    refine Catalog.isZero_record_iff.2 ⟨rfl, fun i f x field visible here => ?_⟩
    match i with
    | 0 =>
      cases field
      cases here
      rw [Catalog.isZero]
      exact Single.isZero_iff.2 (.inr rfl)
    | 1 =>
      cases field
      cases visible
    | i + 2 => cases here
  have zeros : c.catalog.ZeroDefaults := .of_all rfl
  have all := encode_of_isZero (.fresh _) zeros typed zero (fun _ _ => rfl) .named
  have initial : c.catalog.initial (.record 0) = .record [.single default, .int 0] := rfl
  refine ⟨zeros, zero, encode_floatCatalog ⟨0x80000000⟩ 9, ?_, all.1⟩
  rw [initial]
  exact encode_floatCatalog default 0

/-- **A float's zero with its sign set is encoded as such**, though it counts as a zero. -/
theorem encode_signed_zero :
    let c := fresh floatCatalog
    let d : Datum := .single ⟨0x80000000⟩
    c.Reachable ∧ c.catalog.OfType (.number .single) d ∧
      c.catalog.isZero (.number .single) d = true ∧
      (∀ id, ¬ c.catalog.Shows (.number .single) id) ∧
      (c.encode (.number .single) d .named).1 = .ok [0xca, 0x80, 0, 0, 0] ∧
      (c.encode (.number .single) (c.catalog.initial (.number .single)) .named).1 =
        .ok [0xca, 0, 0, 0, 0] := by
  intro c d
  have written : ∀ x : Single,
      (c.encode (.number .single) (.single x) .named).1 = (Script.single x).bytes := fun x => by
    change (Datum.script _ (.number .single) _).encode.result = _
    rw [Script.encode_result, Datum.script]
    rfl
  have none' : ∀ id, ¬ c.catalog.Shows (.number .single) id := by
    intro id shows
    cases shows
  refine ⟨.fresh _, .single _, ?_, none', written ⟨0x80000000⟩, written default⟩
  rw [Catalog.isZero]
  exact Single.isZero_iff.2 (.inr rfl)

end Codec

end MessagePack
