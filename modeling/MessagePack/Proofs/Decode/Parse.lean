import Mathlib.Data.List.Forall2
import MessagePack.Decode.Skip
import MessagePack.Decode.Value
import MessagePack.Proofs.Wire.Complete
/-!
# How reads succeed

A `Parse` shows of a reader only how it succeeds: the result and the cursor behind it.  Reads and
readers in place are composed of steps; so are their parses, and laws about them are proved step by
step.

* `p.Takes used a`: in front of `used`, and whatever follows, `p` succeeds with `a` and consumes
  exactly `used`.
* `p.Refuses used`: in front of `used`, and whatever follows, `p` fails.
* `p.Sound P`: whenever `p` succeeds, it took some bytes that `P` holds of, and it takes them
  wherever they stand.

Main statements: `Parse.Takes.bind`, `Parse.Sound.bind` and `Parse.Sound.peek`.
-/

namespace MessagePack

/-- A reader that shows only how it succeeds. -/
abbrev Parse (α : Type) : Type := StateT Cursor Option α

/-- How a read succeeds. -/
def Read.parse {α : Type} (r : Read α) : Parse α := fun c =>
  match r c with
  | (.ok a, c) => some (a, c)
  | (.error _, _) => none

namespace Parse

variable {α β : Type} {p : Parse α} {f : α → Parse β} {used u v : List UInt8} {a : α} {b : β}

/-! ## 1. Taking bytes

`Parse.Takes u a` says all that a parse does before `u`, whatever comes behind: it gives `a` and
stops right behind `u`.  What runs one after another takes the bytes of both. -/

/-- In front of these bytes the parse succeeds with this result and consumes exactly them. -/
def Takes (p : Parse α) (used : List UInt8) (a : α) : Prop :=
  ∀ position rest known, ∃ known',
    p ⟨position, used ++ rest, known⟩ = some (a, ⟨position + used.length, rest, known'⟩)

/-- What is returned takes nothing. -/
theorem takes_pure (a : α) : (pure a : Parse α).Takes [] a :=
  fun _ _ known => ⟨known, rfl⟩

/-- **One after another they take the bytes of both.** -/
theorem Takes.bind (hp : p.Takes u a) (hf : (f a).Takes v b) : (p >>= f).Takes (u ++ v) b := by
  intro position rest known
  obtain ⟨known', first⟩ := hp position (v ++ rest) known
  obtain ⟨known'', second⟩ := hf (position + u.length) rest known'
  refine ⟨known'', ?_⟩
  rw [List.append_assoc, List.length_append, ← Nat.add_assoc, ← second]
  exact congrArg (Option.bind · fun r => f r.1 r.2) first

/-- A step that consumes nothing. -/
theorem Takes.bind_nil (hp : p.Takes [] a) (hf : (f a).Takes v b) : (p >>= f).Takes v b :=
  hp.bind hf

/-- To make something of a result takes nothing more. -/
theorem Takes.map {g : α → β} (hp : p.Takes u a) :
    (p >>= fun a => pure (g a)).Takes u (g a) := by
  have done := hp.bind (f := fun a => pure (g a)) (takes_pure (g a))
  rwa [List.append_nil] at done

/-- What is done to the trace beforehand consumes nothing. -/
theorem Takes.retrace (hp : p.Takes u a) (f : Trace → Trace) :
    Takes (fun c => p (c.retrace f)) u a :=
  fun position rest known => hp position rest (f known)

/-- The parse one level further down; behind it the cursor is back up. -/
def nested (p : Parse α) : Parse α := fun c =>
  (p (c.retrace .down)).map fun r => (r.1, r.2.retrace .up)

/-- One level down is the same, with the way there and back noted. -/
theorem nested_eq_some {c c' : Cursor} :
    p.nested c = some (a, c') ↔
      ∃ mid, p (c.retrace .down) = some (a, mid) ∧ mid.retrace .up = c' := by
  simp only [nested, Option.map_eq_some_iff, Prod.exists, Prod.mk.injEq]
  constructor
  · rintro ⟨a', mid, run, rfl, e⟩
    exact ⟨mid, run, e⟩
  · rintro ⟨mid, run, e⟩
    exact ⟨a, mid, run, rfl, e⟩

/-- So it takes the same bytes. -/
theorem Takes.nested (hp : p.Takes u a) : p.nested.Takes u a := by
  intro position rest known
  obtain ⟨known', run⟩ := hp position rest known.down
  exact ⟨known'.up, nested_eq_some.2 ⟨_, run, rfl⟩⟩

/-- What is taken of an input leaves what stands behind it. -/
theorem Takes.run (hp : p.Takes u a) {c : Cursor} {rest : List UInt8} (e : c.rest = u ++ rest) :
    ∃ known, p c = some (a, ⟨c.position + u.length, rest, known⟩) := by
  obtain ⟨position, _, known⟩ := c
  obtain rfl := e
  exact hp position rest known

/-- What the parse gives of these bytes, whether it consumes them all or not. -/
def result? (p : Parse α) (u : List UInt8) : Option α := (p (.start u)).map Prod.fst

/-- Of just these bytes the result is known. -/
theorem Takes.result (h : p.Takes u a) : p.result? u = some a := by
  obtain ⟨_, run⟩ := h 0 [] {}
  rw [List.append_nil] at run
  exact congrArg (Option.map Prod.fst) run

/-- They are taken as one result. -/
theorem Takes.unique {a' : α} (h : p.Takes u a) (h' : p.Takes u a') : a = a' :=
  Option.some.inj (h.result.symm.trans h'.result)

/-- In front of these bytes the parse fails. -/
def Refuses (p : Parse α) (used : List UInt8) : Prop :=
  ∀ position rest known, p ⟨position, used ++ rest, known⟩ = none

/-- What fails in any case refuses everything. -/
theorem refuses_failure (u : List UInt8) : (failure : Parse α).Refuses u := fun _ _ _ => rfl

/-- What is refused is refused one level down too. -/
theorem Refuses.nested (hp : p.Refuses u) : p.nested.Refuses u := by
  intro position rest known
  exact congrArg (Option.map _) (hp position rest known.down)

/-- What refuses its own bytes refuses them with more behind, -/
theorem Refuses.bind (hp : p.Refuses u) (f : α → Parse β) (v : List UInt8) :
    (p >>= f).Refuses (u ++ v) := by
  intro position rest known
  rw [List.append_assoc]
  exact congrArg (Option.bind · fun r => f r.1 r.2) (hp position (v ++ rest) known)

/-- and so does what refuses the bytes behind the first. -/
theorem Takes.bind_refuses (hp : p.Takes u a) (hf : (f a).Refuses v) :
    (p >>= f).Refuses (u ++ v) := by
  intro position rest known
  obtain ⟨known', first⟩ := hp position (v ++ rest) known
  have second := hf (position + u.length) rest known'
  rw [List.append_assoc, ← second]
  exact congrArg (Option.bind · fun r => f r.1 r.2) first

/-! ## 2. Soundness

`Parse.Sound P` is the other direction: whenever the parse succeeds, it stops behind some bytes and
`P` holds of these and of the result.  Nothing is said of inputs on which it fails. -/

/-- Whenever the parse succeeds it took bytes of `P`, and it takes them wherever they stand. -/
def Sound (p : Parse α) (P : List UInt8 → α → Prop) : Prop :=
  ∀ c a c', p c = some (a, c') → ∃ used, c.rest = used ++ c'.rest ∧ P used a ∧ p.Takes used a

variable {P P' : List UInt8 → α → Prop} {Q : α → List UInt8 → β → Prop}

/-- What holds of all that is taken implies what it implies. -/
theorem Sound.mono (hp : p.Sound P) (le : ∀ u a, P u a → P' u a) : p.Sound P' := by
  intro c a c' run
  obtain ⟨used, e, holds, takes⟩ := hp c a c' run
  exact ⟨used, e, le used a holds, takes⟩

/-- The bytes that a parse took are known, so what is sound of them apart is sound together. -/
theorem Sound.and (hp : p.Sound P) (hp' : p.Sound P') : p.Sound fun u a => P u a ∧ P' u a := by
  intro c a c' run
  obtain ⟨used, e, holds, takes⟩ := hp c a c' run
  obtain ⟨used', e', holds', -⟩ := hp' c a c' run
  obtain rfl : used = used' := List.append_cancel_right (e.symm.trans e')
  exact ⟨used, e, ⟨holds, holds'⟩, takes⟩

/-- What is sound holds of whatever is taken. -/
theorem Sound.holds (hp : p.Sound P) (h : p.Takes u a) : P u a := by
  obtain ⟨_, run⟩ := h 0 [] {}
  obtain ⟨used, e, holds, -⟩ := hp _ _ _ run
  obtain rfl : u = used := List.append_cancel_right e
  exact holds

/-- What a parse took it takes wherever that stands. -/
theorem Sound.takes (hp : p.Sound P) : p.Sound fun u a => P u a ∧ p.Takes u a := by
  intro c a c' run
  obtain ⟨used, e, holds, takes⟩ := hp c a c' run
  exact ⟨used, e, ⟨holds, takes⟩, takes⟩

/-- What never succeeds is sound for anything. -/
theorem sound_failure : (failure : Parse α).Sound P := by
  intro c a c' run
  cases run

/-- What is returned took nothing. -/
theorem sound_pure (h : P [] a) : (pure a : Parse α).Sound P := by
  intro c a' c' run
  cases run
  exact ⟨[], rfl, h, takes_pure a⟩

/-- Notes take no bytes, -/
theorem Sound.retrace (hp : p.Sound P) (f : Trace → Trace) :
    Sound (fun c => p (c.retrace f)) P := by
  intro c a c' run
  obtain ⟨used, e, holds, takes⟩ := hp (c.retrace f) a c' run
  exact ⟨used, e, holds, takes.retrace f⟩

/-- nor do levels. -/
theorem Sound.nested (hp : p.Sound P) : p.nested.Sound P := by
  intro c a c' run
  obtain ⟨mid, inner, rfl⟩ := nested_eq_some.1 run
  obtain ⟨used, e, holds, takes⟩ := hp _ a mid inner
  exact ⟨used, e, holds, takes.nested⟩

/-- One after another, the bytes fall into two parts. -/
theorem Sound.bind (hp : p.Sound P) (hf : ∀ a, (f a).Sound (Q a)) :
    (p >>= f).Sound fun u b => ∃ v w a, u = v ++ w ∧ P v a ∧ Q a w b := by
  intro c b c' run
  obtain ⟨⟨a, mid⟩, first, second⟩ := Option.bind_eq_some_iff.1 run
  obtain ⟨v, ev, holds, takes⟩ := hp c a mid first
  obtain ⟨w, ew, holds', takes'⟩ := hf a mid b c' second
  refine ⟨v ++ w, ?_, ⟨v, w, a, rfl, holds, holds'⟩, takes.bind takes'⟩
  rw [ev, ew, List.append_assoc]

/-- What is made of a result took the same bytes. -/
theorem Sound.map {g : α → β} {P' : List UInt8 → β → Prop} (hp : p.Sound P)
    (imp : ∀ u a, P u a → P' u (g a)) : (p >>= fun a => pure (g a)).Sound P' := by
  refine (hp.bind (Q := fun a w b => w = [] ∧ b = g a) fun a => sound_pure ⟨rfl, rfl⟩).mono ?_
  rintro u b ⟨v, w, a, rfl, holds, rfl, rfl⟩
  rw [List.append_nil]
  exact imp v a holds

end Parse

namespace Read

open Parse

variable {α β : Type} {r : Read α} {next : α → Read β} {a : α} {c c' : Cursor}

/-! ## 3. Parses of reads

A read is turned into a parse by forgetting its faults.  That goes through everything that reads are
composed of, so the parse of a read is the composition of the parses. -/

theorem parse_eq_some : r.parse c = some (a, c') ↔ r c = (.ok a, c') := by
  unfold parse
  split
  · rename_i a' d e
    rw [e]
    constructor
    · rintro ⟨⟩
      rfl
    · rintro ⟨⟩
      rfl
  · rename_i f d e
    rw [e]
    constructor <;> rintro ⟨⟩

/-- A return is a return, -/
theorem parse_pure (a : α) : (Pure.pure a : Read α).parse = Pure.pure a := rfl

/-- one after another is one after another, -/
theorem parse_bind (r : Read α) (next : α → Read β) :
    (r >>= next).parse = r.parse >>= fun a => (next a).parse := by
  funext c
  change parse (r >>= next) c = (r.parse c).bind fun x => (next x.1).parse x.2
  unfold parse
  rw [run_bind]
  split
  · rename_i a c' e
    split at e <;> simp_all
  · rename_i f c' e
    split at e <;> simp_all

/-- and a level down is a level down. -/
theorem parse_nested (r : Read α) : r.nested.parse = r.parse.nested := by
  funext c
  simp only [Read.parse, Read.nested, Parse.nested]
  rcases r (c.retrace .down) with ⟨f | a, c'⟩ <;> rfl

/-! ## 4. Bytes

Each primitive both ways: which bytes it takes, and that it takes no others. -/

theorem takes_takeByte (b : UInt8) : takeByte.parse.Takes [b] b :=
  fun _ _ known => ⟨known, rfl⟩

/-- A byte that was taken was there. -/
theorem sound_takeByte : takeByte.parse.Sound fun u b => u = [b] := by
  intro c b c' run
  rw [parse_eq_some] at run
  unfold takeByte at run
  split at run
  · rename_i e
    cases run
    exact ⟨[b], by simp [Cursor.advance, e], rfl, takes_takeByte b⟩
  · cases run

/-- As many bytes as are asked for are taken, -/
theorem takes_takeMany (bs : List UInt8) : (takeMany bs.length).parse.Takes bs bs := by
  intro position rest known
  refine ⟨known, parse_eq_some.2 ?_⟩
  simp [takeMany, Cursor.advance]

/-- and no more. -/
theorem sound_takeMany (n : Nat) :
    (takeMany n).parse.Sound fun u bs => u = bs ∧ bs.length = n := by
  intro c bs c' run
  rw [parse_eq_some] at run
  unfold takeMany at run
  dsimp only at run
  split at run
  · rename_i enough
    cases run
    refine ⟨c.rest.take n, ?_, ⟨rfl, enough⟩, ?_⟩
    · rw [Cursor.advance, List.take_append_drop]
    · have takes := takes_takeMany (c.rest.take n)
      rwa [enough] at takes
  · cases run

/-- The bytes of a width are taken as the number that they spell. -/
theorem takes_takeUnsigned {w : Width} {bs : List UInt8} (h : bs.length = w.bytes) :
    (takeUnsigned w).parse.Takes bs (ofBigEndian bs) := by
  unfold takeUnsigned
  rw [parse_bind, ← h]
  exact (takes_takeMany bs).map

/-- Such a number was spelled by as many bytes. -/
theorem sound_takeUnsigned (w : Width) :
    (takeUnsigned w).parse.Sound fun u n => u.length = w.bytes ∧ n = ofBigEndian u := by
  unfold takeUnsigned
  rw [parse_bind]
  refine (sound_takeMany w.bytes).map ?_
  rintro u _ ⟨rfl, length⟩
  exact ⟨length, rfl⟩

/-- So was one with a sign. -/
theorem sound_takeSigned (w : Width) :
    (takeSigned w).parse.Sound fun u _ => u.length = w.bytes := by
  unfold takeSigned
  rw [parse_bind]
  exact (sound_takeUnsigned w).map fun u n h => h.1

/-! ## 5. Headers -/

theorem takes_takeHeader {h : Header} (stands : h.Stands) :
    takeHeader.parse.Takes [h.toByte] (h.toByte, h) := by
  have takes : takeHeader.parse.Takes [h.toByte] (h.toByte, Header.ofByte h.toByte) := by
    unfold takeHeader
    rw [parse_bind]
    exact (takes_takeByte h.toByte).map
  rwa [stands] at takes

/-- A header first, then what it asks for. -/
theorem takes_header {next : UInt8 × Header → Parse β} {h : Header} {body : List UInt8} {b : β}
    (stands : h.Stands) (then' : (next (h.toByte, h)).Takes body b) :
    (takeHeader.parse >>= next).Takes (h.toByte :: body) b :=
  (takes_takeHeader stands).bind then'

/-- A header that the read gives up on is refused with whatever comes behind. -/
theorem refuses_header {next : UInt8 × Header → Parse β} {b : UInt8}
    (fails : next (b, Header.ofByte b) = failure) (body : List UInt8) :
    (takeHeader.parse >>= next).Refuses (b :: body) := by
  rw [← Header.toByte_ofByte b]
  refine (takes_takeHeader (Header.stands_ofByte b)).bind_refuses ?_
  rw [Header.toByte_ofByte, fails]
  exact refuses_failure body

/-- A header that was taken was a byte. -/
theorem sound_takeHeader :
    takeHeader.parse.Sound fun u bh => u = [bh.1] ∧ bh.2 = Header.ofByte bh.1 := by
  unfold takeHeader
  rw [parse_bind]
  refine sound_takeByte.map ?_
  rintro u b rfl
  exact ⟨rfl, rfl⟩

/-- What begins with a header took that byte and then what the rest took. -/
theorem sound_header {next : UInt8 × Header → Parse β} {Q : UInt8 → List UInt8 → β → Prop}
    (each : ∀ b, (next (b, Header.ofByte b)).Sound (Q b)) :
    (takeHeader.parse >>= next).Sound fun u x => ∃ b v, u = b :: v ∧ Q b v x := by
  intro c x c' run
  obtain ⟨⟨⟨b, h⟩, mid⟩, first, second⟩ := Option.bind_eq_some_iff.1 run
  obtain ⟨u, eu, ⟨rfl, read⟩, takes⟩ := sound_takeHeader c _ mid first
  simp only at read
  subst read
  obtain ⟨v, ev, holds, takes'⟩ := each b mid x c' second
  refine ⟨b :: v, ?_, ⟨b, v, rfl, holds⟩, takes.bind takes'⟩
  rw [eu, ev]
  rfl

end Read

namespace Parse

variable {β : Type} {next : UInt8 → Parse β}

/-- Looking at the next byte before something else is read, which must start with that byte. -/
theorem takes_peek {b : UInt8} {v : List UInt8} {x : β} (h : (next b).Takes (b :: v) x) :
    (Read.peekByte.parse >>= next).Takes (b :: v) x :=
  fun position rest known => h position rest known

/-- **A look ahead is settled by what is read after it.** -/
theorem Sound.peek {P : UInt8 → List UInt8 → β → Prop} (h : ∀ b, (next b).Sound (P b))
    (some' : ∀ b u x, P b u x → u ≠ []) :
    (Read.peekByte.parse >>= next).Sound fun u x => ∃ b v, u = b :: v ∧ P b u x := by
  intro c x c' run
  obtain ⟨⟨b, mid⟩, first, second⟩ := Option.bind_eq_some_iff.1 run
  obtain ⟨position, rest, known⟩ := c
  cases rest with
  | nil => cases first
  | cons b' rest =>
    cases first
    obtain ⟨used, e, holds, takes⟩ := h b _ x c' second
    cases used with
    | nil => exact (some' _ _ _ holds rfl).elim
    | cons front v =>
      obtain rfl : b = front := (List.cons.inj e).1
      exact ⟨b :: v, e, ⟨b, v, rfl, holds⟩, takes_peek takes⟩

/-- `P` holds of these bytes if they start with `b`, and they start with some byte. -/
structure Ahead {α : Type} (b : UInt8) (P : List UInt8 → α → Prop) (u : List UInt8) (a : α) :
    Prop where
  ne_nil : u ≠ []
  holds : ∀ v, u = b :: v → P u a

/-- Any sound parse that takes something is sound for what it begins with. -/
theorem Sound.ahead {p : Parse β} {P : List UInt8 → β → Prop} (hp : p.Sound P)
    (some' : ∀ u x, P u x → u ≠ []) (b : UInt8) : p.Sound (Ahead b P) :=
  hp.mono fun u x h => ⟨some' u x h, fun _ _ => h⟩

end Parse

namespace Read

open Parse

variable {α : Type} {next : UInt8 × Header → Parse α} {h : Header} {body : List UInt8} {a : α}
  {P : List UInt8 → α → Prop}

/-! ## 6. Looking ahead

A look decides and takes nothing, so the byte that was looked at is the first that is taken
afterwards.  `Ahead b P` says of the bytes that were taken that they begin with `b`, if there are
any. -/

theorem takes_peekHeader (stands : h.Stands)
    (ahead : (next (h.toByte, h)).Takes (h.toByte :: body) a) :
    (peekHeader.parse >>= next).Takes (h.toByte :: body) a := by
  unfold peekHeader
  rw [parse_bind, bind_assoc]
  refine takes_peek ?_
  simp only [parse_pure, pure_bind]
  rwa [stands]

/-- What begins with a look at a header took something that begins with that header. -/
theorem sound_peekHeader {P : UInt8 → List UInt8 → α → Prop}
    (each : ∀ b, (next (b, Header.ofByte b)).Sound (P b)) (some' : ∀ b u a, P b u a → u ≠ []) :
    (peekHeader.parse >>= next).Sound fun u a => ∃ b v, u = b :: v ∧ P b u a := by
  unfold peekHeader
  rw [parse_bind, bind_assoc]
  refine Sound.peek (fun b => ?_) some'
  simp only [parse_pure, pure_bind]
  exact each b

/-- The next header decides what is read, and it is the header of what is read. -/
theorem sound_ahead
    (each : ∀ b, (next (b, Header.ofByte b)).Sound (Ahead b P)) :
    (peekHeader.parse >>= next).Sound P := by
  refine (sound_peekHeader each fun b u a h => h.ne_nil).mono ?_
  rintro u a ⟨b, v, rfl, h⟩
  exact h.holds v rfl

/-- A header that was looked at is taken, and then what belongs to it. -/
theorem sound_taken {p : Parse α} {Q : List UInt8 → α → Prop} {b : UInt8} (behind : p.Sound Q)
    (holds : ∀ v a, Q v a → P (b :: v) a) :
    (takeHeader.parse >>= fun _ => p).Sound (Ahead b P) := by
  refine (sound_takeHeader.bind fun _ => behind).mono ?_
  rintro u a ⟨front, v, bh, rfl, ⟨rfl, -⟩, inner⟩
  refine ⟨List.cons_ne_nil _ _, fun v' e => ?_⟩
  obtain ⟨rfl, rfl⟩ := List.cons.inj e
  exact holds v a inner

variable {c mid : Cursor}

/-- A look at the next header consumes nothing. -/
theorem run_peekHeader {bh : UInt8 × Header} (run : peekHeader.parse c = some (bh, mid)) :
    mid = c ∧ bh.2 = Header.ofByte bh.1 ∧ ∃ rest, c.rest = bh.1 :: rest := by
  have run := parse_eq_some.1 run
  obtain ⟨position, rest, known⟩ := c
  cases rest with
  | nil => cases run
  | cons b rest =>
    cases run
    exact ⟨rfl, rfl, rest, rfl⟩

/-- Nor does the check of a key. -/
theorem run_checkKey {u : Unit} (run : checkKey.parse c = some (u, mid)) : mid = c := by
  unfold checkKey at run
  rw [parse_bind] at run
  obtain ⟨⟨bh, mid'⟩, peeked, passed⟩ := Option.bind_eq_some_iff.1 run
  obtain ⟨rfl, -⟩ := run_peekHeader peeked
  dsimp only at passed
  split at passed
  · cases passed
  · cases passed
    rfl

/-- A nil is consumed if it is next, and nothing else is. -/
theorem run_tryNil {nil : Bool} {mid : Cursor} (run : tryNil.parse c = some (nil, mid)) :
    (nil = true ∧ c.rest = Header.nil.toByte :: mid.rest) ∨ (nil = false ∧ mid = c) := by
  have run := parse_eq_some.1 run
  obtain ⟨position, rest, known⟩ := c
  cases rest with
  | nil => cases run
  | cons b rest =>
    by_cases found : b = Header.nil.toByte
    · subst found
      cases run
      exact .inl ⟨rfl, rfl⟩
    · have stays : tryNil ⟨position, b :: rest, known⟩ =
          (.ok false, ⟨position, b :: rest, known⟩) := by
        change (if b = Header.nil.toByte then _ else _ : Read Bool) ⟨position, b :: rest, known⟩ = _
        rw [if_neg found]
        rfl
      rw [stays] at run
      cases run
      exact .inr ⟨rfl, rfl⟩

/-- A nil that is next is consumed. -/
theorem takes_tryNil_nil {next : Bool → Parse α} {v : List UInt8} (found : (next true).Takes v a) :
    (tryNil.parse >>= next).Takes (Header.nil.toByte :: v) a := by
  unfold tryNil
  rw [parse_bind, bind_assoc]
  refine takes_peek ?_
  rw [if_pos rfl]
  simp only [parse_bind, parse_pure, bind_assoc, pure_bind]
  exact (takes_takeByte Header.nil.toByte).bind (u := [_]) found

/-- Anything else that is next stays. -/
theorem takes_tryNil_other {next : Bool → Parse α} {b : UInt8} {v : List UInt8}
    (other : b ≠ Header.nil.toByte) (ahead : (next false).Takes (b :: v) a) :
    (tryNil.parse >>= next).Takes (b :: v) a := by
  unfold tryNil
  rw [parse_bind, bind_assoc]
  refine takes_peek ?_
  rw [if_neg other]
  simpa only [parse_pure, pure_bind] using ahead

/-- What does not start as an array or a map does may be a key. -/
theorem takes_checkKey_cons {p : Parse α} {b : UInt8} {v : List UInt8}
    (single : (Header.ofByte b).isContainer = false) (key : p.Takes (b :: v) a) :
    (checkKey.parse >>= fun _ => p).Takes (b :: v) a := by
  rw [← Header.toByte_ofByte b] at key ⊢
  unfold checkKey
  rw [parse_bind, bind_assoc]
  refine takes_peekHeader (Header.stands_ofByte b) ?_
  simp only [single, Bool.false_eq_true, if_false, parse_pure, pure_bind]
  exact key

/-- A value that owes no others may be a key. -/
theorem takes_checkKey {p : Parse α} {u v : List UInt8} (flat : Flat u)
    (key : p.Takes (u ++ v) a) : (checkKey.parse >>= fun _ => p).Takes (u ++ v) a := by
  obtain ⟨b, body, rfl, single, -⟩ := flat
  exact takes_checkKey_cons single key

/-- What is refused is refused behind a look at its header too. -/
theorem refuses_checkKey {p : Parse α} {u : List UInt8} (refuses : p.Refuses u) (some' : u ≠ []) :
    (checkKey.parse >>= fun _ => p).Refuses u := by
  obtain ⟨b, u, rfl⟩ := List.exists_cons_of_ne_nil some'
  unfold checkKey peekHeader
  rw [parse_bind, parse_bind, bind_assoc, bind_assoc]
  intro position rest known
  change (((if (Header.ofByte b).isContainer then fail (.structuralKey b)
    else Pure.pure ()).parse >>= fun _ => p) ⟨position, b :: u ++ rest, known⟩) = none
  split
  · rfl
  · exact refuses position rest known

/-- What is read as a key does not start as an array or a map does. -/
theorem sound_checkKey {p : Parse α} (key : p.Sound P) (some' : ∀ u a, P u a → u ≠ []) :
    (checkKey.parse >>= fun _ => p).Sound fun u a =>
      ∃ b v, u = b :: v ∧ (Header.ofByte b).isContainer = false ∧ P u a := by
  unfold checkKey
  rw [parse_bind, bind_assoc]
  refine sound_peekHeader (P := fun b u a => (Header.ofByte b).isContainer = false ∧ P u a)
    (fun b => ?_) fun b u a h => some' u a h.2
  dsimp only
  split
  · exact sound_failure
  · rename_i single
    simp only [parse_pure, pure_bind]
    exact key.mono fun u a h => ⟨by simpa using single, h⟩

/-- A nil is consumed before what follows it; before anything else nothing is. -/
theorem sound_tryNil {p q : Parse α} {Q : List UInt8 → α → Prop} (nil : q.Sound Q)
    (other : p.Sound P) (some' : ∀ u a, P u a → u ≠ []) :
    (tryNil.parse >>= fun nil => if nil then q else p).Sound fun u a =>
      (∃ v, u = Header.nil.toByte :: v ∧ Q v a) ∨
        ∃ b v, u = b :: v ∧ b ≠ Header.nil.toByte ∧ P u a := by
  unfold tryNil
  rw [parse_bind, bind_assoc]
  refine (Sound.peek (P := fun b u a => (b = Header.nil.toByte ∧ ∃ e v, u = e :: v ∧ Q v a) ∨
    (b ≠ Header.nil.toByte ∧ P u a)) (fun b => ?_) ?_).mono ?_
  · split
    · rename_i found
      simp only [parse_bind, parse_pure, bind_assoc, pure_bind, if_true]
      refine (sound_takeByte.bind fun _ => nil).mono ?_
      rintro u a ⟨v, w, e, rfl, rfl, holds⟩
      exact .inl ⟨found, e, w, rfl, holds⟩
    · rename_i different
      simp only [parse_pure, pure_bind, Bool.false_eq_true, if_false]
      exact other.mono fun u a h => .inr ⟨different, h⟩
  · rintro b u a (⟨-, e, v, rfl, -⟩ | ⟨-, h⟩)
    · exact List.cons_ne_nil _ _
    · exact some' u a h
  · rintro u a ⟨b, v, rfl, ⟨rfl, e, w, same, holds⟩ | ⟨different, holds⟩⟩
    · obtain ⟨-, rfl⟩ := List.cons.inj same
      exact .inl ⟨v, rfl, holds⟩
    · exact .inr ⟨b, v, rfl, different, holds⟩

/-! ## 7. Repeated reads -/

theorem parse_repeated_succ (r : Read α) (n : Nat) (done : List α) :
    (repeated r (n + 1) done).parse = r.parse >>= fun a => (repeated r n (a :: done)).parse :=
  parse_bind r fun a => repeated r n (a :: done)

section

variable {γ : Type} {r : Read α} {bytes : γ → List UInt8} {xs : List γ}

/-- What is taken one by one is taken one after another. -/
theorem takes_repeated {as : List α}
    (each : List.Forall₂ (fun x a => r.parse.Takes (bytes x) a) xs as) (done : List α) :
    (repeated r xs.length done).parse.Takes (xs.flatMap bytes) (done.reverse ++ as) := by
  induction each generalizing done with
  | nil =>
    rw [List.append_nil]
    exact takes_pure done.reverse
  | @cons x a xs as first _ ih =>
    rw [List.length_cons, parse_repeated_succ, List.flatMap_cons]
    refine first.bind ?_
    have rest := ih (a :: done)
    rwa [List.reverse_cons, List.append_assoc] at rest

/-- What is taken one after another are bytes of what is taken one by one. -/
theorem sound_repeated {Q : γ → Prop} (each : r.parse.Sound fun u _ => ∃ x, bytes x = u ∧ Q x)
    (n : Nat) (done : List α) :
    (repeated r n done).parse.Sound fun u _ =>
      ∃ xs : List γ, xs.flatMap bytes = u ∧ xs.length = n ∧ ∀ x ∈ xs, Q x := by
  induction n generalizing done with
  | zero => exact sound_pure ⟨[], rfl, rfl, by simp⟩
  | succ n ih =>
    rw [parse_repeated_succ]
    refine (each.bind fun a => ih (a :: done)).mono ?_
    rintro _ as ⟨_, _, a, rfl, ⟨x, rfl, first⟩, xs, rfl, rfl, rest⟩
    exact ⟨x :: xs, List.flatMap_cons, rfl, List.forall_mem_cons.2 ⟨first, rest⟩⟩

end

end Read

end MessagePack
