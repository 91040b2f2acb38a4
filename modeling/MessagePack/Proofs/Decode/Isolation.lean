import MessagePack.Proofs.Decode.Whole
import MessagePack.Proofs.Encode.Isolation
import MessagePack.Proofs.Wire.Tree
/-!
# Reading and bindings of other tags

Reading asks the registry by tag when it meets an extension, and by host when it comes to a record.
So an input in which no extension has a certain tag is read alike under two registries that differ
in that tag and in hosts that the type does not mention: faults, and what they leave of the
destination, included.

The two runs go side by side.  `Clear tag n bs` says that the input starts with `n` complete values
without the tag, and `Alike tag n` that two runs do the same before such an input.  What a part of a
run takes is complete values (`Parse.Whole`), so behind it the input is still clear, of so many
values fewer; that carries `Alike` from the parts of a run to the whole.

Main statement: `Datum.alike_read`.
-/

namespace MessagePack

open WireValue

/-! ## 1. Inputs without a tag

An input need not be well formed to be clear of a tag: it is enough that the values at its beginning
are, as far as the reader will go.  So the property is one of the bytes that are left, with a count
of the values that are known to be clear, and whatever takes a value takes it off that count. -/

namespace WireValue

/-- The value itself is no extension with the tag. -/
def Lacks (tag : Int8) (w : WireValue) : Prop := ∀ payload, ¬ w.header.HoldsExt w.body tag payload

/-- The value is well formed, and no extension in it has the tag. -/
def Without (tag : Int8) (w : WireValue) : Prop := w.Everywhere fun v => v.Formed ∧ v.Lacks tag

variable {tag : Int8} {w : WireValue}

/-- What holds everywhere in a tree implies what it implies everywhere. -/
theorem Everywhere.imp {P Q : WireValue → Prop} (all : w.Everywhere P) (imp : ∀ v, P v → Q v) :
    w.Everywhere Q := by
  induction all with
  | mk here _ ih => exact ⟨imp _ here, ih⟩

/-- A tree without the tag is formed. -/
theorem Without.formed (without : w.Without tag) : w.Everywhere Formed :=
  without.imp fun _ h => h.1

end WireValue

/-- The input starts with so many complete values in which no extension has the tag. -/
def Clear (tag : Int8) (n : Nat) (bs : List UInt8) : Prop :=
  ∃ ws rest, bs = bytesAll ws ++ rest ∧ ws.length = n ∧ ∀ w ∈ ws, w.Without tag

namespace Clear

variable {tag tag' : Int8} {i j n owed : Nat} {b : UInt8} {bs used rest body payload : List UInt8}

/-- No value at all is clear of any tag. -/
theorem zero (tag : Int8) (bs : List UInt8) : Clear tag 0 bs := ⟨[], bs, rfl, rfl, by simp⟩

/-- Behind the first values the input is clear as well. -/
theorem behind (clear : Clear tag (i + j) (used ++ rest)) (whole : ∃ k, Complete k i used) :
    Clear tag j rest := by
  obtain ⟨ws, tail, e, length, each⟩ := clear
  obtain ⟨k, complete⟩ := whole
  have first : Complete _ (ws.take i).length (bytesAll (ws.take i)) :=
    complete_all fun w hw => WireValue.complete (each w (List.mem_of_mem_take hw)).formed
  rw [List.length_take, length, Nat.min_eq_left (Nat.le_add_right i j)] at first
  rw [← List.take_append_drop i ws, bytesAll_append, List.append_assoc] at e
  obtain ⟨-, rfl⟩ := complete.unique first e
  refine ⟨ws.drop i, tail, rfl, ?_, fun w hw => each w (List.mem_of_mem_drop hw)⟩
  rw [List.length_drop, length, Nat.add_sub_cancel_left]

/-- Of many clear values the first ones are clear. -/
theorem le (clear : Clear tag n bs) (le : i ≤ n) : Clear tag i bs := by
  obtain ⟨ws, tail, rfl, rfl, each⟩ := clear
  refine ⟨ws.take i, bytesAll (ws.drop i) ++ tail, ?_, ?_, fun w hw =>
    each w (List.mem_of_mem_take hw)⟩
  · rw [← List.append_assoc, ← bytesAll_append, List.take_append_drop]
  · rw [List.length_take, Nat.min_eq_left le]

/-- The first value, by its header and what belongs to it. -/
theorem first (clear : Clear tag 1 (b :: (body ++ rest))) (own : (Header.ofByte b).Owes body owed) :
    ∃ inside tail, (WireValue.node b body inside).Without tag ∧ inside.length = owed ∧
      rest = bytesAll inside ++ tail := by
  obtain ⟨ws, tail, e, length, each⟩ := clear
  obtain ⟨⟨b', body', inside⟩, rfl⟩ := List.length_eq_one_iff.1 length
  have without := each _ (List.mem_singleton_self _)
  have own' : (Header.ofByte b').Owes body' inside.length := without.here.1
  simp only [bytesAll, bytes, List.append_nil, List.cons_append, List.append_assoc] at e
  obtain ⟨rfl, behind⟩ := List.cons.inj e
  obtain ⟨rfl, rfl, rfl⟩ := own.unique own' behind
  exact ⟨inside, tail, without, rfl, rfl⟩

/-- **Behind the header of an array or a map come the values that it owes**, clear as it is. -/
theorem inside (clear : Clear tag 1 (b :: (body ++ rest)))
    (own : (Header.ofByte b).Owes body owed) : Clear tag owed rest := by
  obtain ⟨inside, tail, without, rfl, rfl⟩ := clear.first own
  exact ⟨inside, tail, rfl, rfl, without.within⟩

/-- **An extension in front has another tag.** -/
theorem tag_ne (clear : Clear tag 1 (b :: (body ++ rest)))
    (holds : (Header.ofByte b).HoldsExt body tag' payload) : tag' ≠ tag := by
  obtain ⟨inside, tail, without, -, -⟩ := clear.first holds.owes
  rintro rfl
  exact without.here.2 payload holds

end Clear

/-! ## 2. Runs side by side

Two runs are alike if they do the same before every cursor with enough clear values.  What each of
them is composed of may differ, as long as the parts are alike in turn; the count says how far along
the input both have gone. -/

/-- Two runs do the same before every input that is clear so far. -/
def Alike {β : Type} (tag : Int8) (n : Nat) (f g : Cursor → β) : Prop :=
  ∀ c, Clear tag n c.rest → f c = g c

/-- When the read succeeds it leaves an input that is clear as far as its result says. -/
def Read.Clears {α : Type} (tag : Int8) (n : Nat) (r : Read α) (left : α → Nat) : Prop :=
  ∀ c a c', r c = (.ok a, c') → Clear tag n c.rest → Clear tag (left a) c'.rest

namespace Read

open Parse Header

variable {α : Type} {tag : Int8} {i j n each : Nat} {r : Read α}

/-- A read that takes complete values takes that many off the count. -/
theorem clears_whole (whole : r.parse.Whole i) : r.Clears tag (i + j) fun _ => j := by
  intro c a c' run clear
  obtain ⟨used, took, complete, -⟩ := whole c a c' (parse_eq_some.2 run)
  rw [took] at clear
  exact clear.behind complete

/-- A read of a length takes the header of a value and gives back as many as are in it. -/
theorem clears_opens {q : Read (Option Nat)} (opens : q.parse.Sound (Opens each)) :
    q.Clears tag 1 fun length => each * length.getD 0 := by
  intro c length c' run clear
  -- what is inside of a clear value is clear
  obtain ⟨used, took, opened, -⟩ := opens c length c' (parse_eq_some.2 run)
  cases length with
  | none => exact .zero tag _
  | some n =>
    obtain ⟨b, body, rfl, -, own⟩ := opened
    rw [took] at clear
    exact clear.inside own

/-- A nil that is taken is a value, one that is not there takes nothing. -/
theorem clears_tryNil : tryNil.Clears tag 1 fun nil => if nil then 0 else 1 := by
  intro c nil c' run clear
  rcases run_tryNil (parse_eq_some.2 run) with ⟨rfl, -⟩ | ⟨rfl, rfl⟩
  · exact .zero tag _
  · exact clear

/-- A look takes nothing, -/
theorem clears_peekHeader : peekHeader.Clears tag n fun _ => n := by
  intro c bh c' run clear
  obtain ⟨rfl, -⟩ := run_peekHeader (parse_eq_some.2 run)
  exact clear

/-- not even one at a key. -/
theorem clears_checkKey : checkKey.Clears tag n fun _ => n := by
  intro c u c' run clear
  rwa [run_checkKey (parse_eq_some.2 run)]

end Read

namespace Alike

open Parse Decoded

variable {α β : Type} {tag : Int8} {i j n : Nat}

/-- A run is like itself. -/
theorem refl (f : Cursor → β) : Alike tag n f f := fun _ _ => rfl

/-! ### Reads -/

section Reads

variable {r r' : Read α} {next next' : α → Read β}

/-- The same read, and then reads that are alike before what it leaves. -/
theorem after {left : α → Nat} (clears : r.Clears tag n left)
    (each : ∀ a, Alike tag (left a) (next a) (next' a)) :
    Alike tag n (r >>= next) (r >>= next') := by
  intro c clear
  rw [Read.run_bind, Read.run_bind]
  rcases run : r c with ⟨f | a, c'⟩
  · rfl
  · exact each a c' (clears c a c' run clear)

/-- Alike reads that take complete values, and then alike ones. -/
theorem bind (first : Alike tag i r r') (whole : r'.parse.Whole i)
    (each : ∀ a, Alike tag j (next a) (next' a)) :
    Alike tag (i + j) (r >>= next) (r' >>= next') := by
  intro c clear
  rw [Read.run_bind, Read.run_bind, first c (clear.le (Nat.le_add_right i j))]
  rcases run : r' c with ⟨f | a, c'⟩
  · rfl
  · exact each a c' (Read.clears_whole whole c a c' run clear)

/-- What is done with the result is the same in both. -/
theorem mapped (first : Alike tag n r r') (next : α → Read β) :
    Alike tag n (r >>= next) (r' >>= next) := by
  intro c clear
  rw [Read.run_bind, Read.run_bind, first c clear]

/-- Counting a level is the same in both. -/
theorem nested (alike : Alike tag n r r') : Alike tag n r.nested r'.nested := by
  intro c clear
  have inner := alike (c.retrace .down) clear
  unfold Read.nested
  rw [inner]

/-- One level down, if there is one. -/
theorem descend {deeper deeper' : Option (Read α)} {next : Read α → Read β}
    (below : Option.Rel (fun f g : Read α => Alike tag 1 f g ∧ g.parse.Whole 1) deeper deeper')
    (each : ∀ f g : Read α, Alike tag 1 f g → g.parse.Whole 1 → Alike tag n (next f) (next g)) :
    Alike tag n (Read.descend deeper next) (Read.descend deeper' next) := by
  cases below with
  | none => exact refl _
  | some both => exact nested (each _ _ both.1 both.2)

/-- Alike reads, repeated, need that many times the values. -/
theorem repeated (first : Alike tag i r r') (whole : r'.parse.Whole i) (n : Nat) (done : List α) :
    Alike tag (i * n) (Read.repeated r n done) (Read.repeated r' n done) := by
  induction n generalizing done with
  | zero => exact refl _
  | succ n ih =>
    rw [Nat.mul_succ, Nat.add_comm]
    exact first.bind whole fun a => ih (a :: done)

end Reads

/-! ### Runs into a destination -/

section Runs

variable {r : Read α} {next next' : α → Cursor → Decoded} {first first' : Cursor → Decoded}
  {then' then'' : Datum → Cursor → Decoded}

/-- The same read, and then runs that are alike before what it leaves. -/
theorem afterRead {left : α → Nat} {fault : Datum} (clears : r.Clears tag n left)
    (each : ∀ a, Alike tag (left a) (next a) (next' a)) :
    Alike tag n (afterRead r fault next) (afterRead r fault next') := by
  intro c clear
  unfold Decoded.afterRead
  rcases run : r c with ⟨f | a, c'⟩
  · rfl
  · exact each a c' (clears c a c' run clear)

/-- What is done with the result of a read is the same in both. -/
theorem mappedRead {r' : Read α} {fault : Datum} (alike : Alike tag n r r')
    (next : α → Cursor → Decoded) :
    Alike tag n (Decoded.afterRead r fault next) (Decoded.afterRead r' fault next) := by
  intro c clear
  unfold Decoded.afterRead
  rw [alike c clear]

/-- Alike runs that take complete values, and then alike ones with what those leave. -/
theorem afterRun {lefts : Datum → Datum} (alike : Alike tag i first first')
    (whole : (Decoded.parse first').Whole i)
    (each : ∀ x, Alike tag j (then' x) (then'' x)) :
    Alike tag (i + j) (afterRun first lefts then') (afterRun first' lefts then'') := by
  intro c clear
  unfold Decoded.afterRun
  rw [alike c (clear.le (Nat.le_add_right i j))]
  rcases run : first' c with ⟨f | u, x, c'⟩
  · rfl
  · have parsed : Decoded.parse first' c = some (x, c') := by rw [Decoded.parse, run]
    obtain ⟨used, took, complete, -⟩ := whole c x c' parsed
    rw [took] at clear
    exact each x c' (clear.behind complete)

/-- What is done with the result is the same in both. -/
theorem mappedRun {lefts : Datum → Datum} (alike : Alike tag n first first')
    (then' : Datum → Cursor → Decoded) :
    Alike tag n (Decoded.afterRun first lefts then') (Decoded.afterRun first' lefts then') := by
  intro c clear
  unfold Decoded.afterRun
  rw [alike c clear]

/-- What is noted along the way is no part of the input. -/
theorem retrace (alike : Alike tag n first first') (f : Trace → Trace) :
    Alike tag n (fun c => first (c.retrace f)) fun c => first' (c.retrace f) :=
  fun c clear => alike (c.retrace f) clear

/-- Nor is the level. -/
theorem nestedRun (alike : Alike tag n first first') :
    Alike tag n (Decoded.nested first) (Decoded.nested first') := by
  intro c clear
  have inner := alike (c.retrace .down) clear
  unfold Decoded.nested
  rw [inner]

end Runs

end Alike

/-! ## 3. Dynamic values

A dynamic value asks the registry for the tag of an extension, in its own bytes or further down.
Before a clear value it asks for no tag in which the registries differ. -/

/-- Another registry has the same bindings under all tags but one. -/
def Registry.AgreesOff (r r' : Registry) (tag : Int8) : Prop :=
  ∀ t, t ≠ tag → r'.forTag? t = r.forTag? t

namespace Value

open Read Parse

variable {tag : Int8} {r r' : Registry}

/-- The raw and the rich form of an extension depend on its tag's binding alone. -/
theorem ofExt_agrees (agrees : r.AgreesOff r' tag) {tag' : Int8} (other : tag' ≠ tag)
    (payload : List UInt8) : ofExt r' tag' payload = ofExt r tag' payload := by
  unfold ofExt
  rw [agrees tag' other]

/-- An extension that comes next is read alike. -/
theorem alike_extension (agrees : r.AgreesOff r' tag) {b : UInt8} {h : Header} {c : Cursor}
    {rest : List UInt8} (here : c.rest = b :: rest) (header : Header.ofByte b = h)
    (clear : Clear tag 1 c.rest) :
    (takeHeader >>= fun _ => extBody .dynamic b h >>= fun e => ofExcept (ofExt r' e.1 e.2)) c =
      (takeHeader >>= fun _ => extBody .dynamic b h >>= fun e => ofExcept (ofExt r e.1 e.2)) c := by
  subst header
  obtain ⟨position, bytes, known⟩ := c
  obtain rfl : bytes = b :: rest := here
  change (extBody .dynamic b (Header.ofByte b) >>= _) _ =
    (extBody .dynamic b (Header.ofByte b) >>= _) (Cursor.advance ⟨position, b :: rest, known⟩ 1)
  rw [run_bind, run_bind]
  rcases run : extBody .dynamic b (Header.ofByte b) (Cursor.advance ⟨position, b :: rest, known⟩ 1)
    with ⟨f | ⟨tag', payload⟩, c'⟩
  · rfl
  · obtain ⟨used, took, holds, -⟩ := sound_extBody .dynamic b _ _ _ _ (parse_eq_some.2 run)
    obtain rfl : rest = used ++ c'.rest := took
    dsimp only
    rw [ofExt_agrees agrees (clear.tag_ne holds)]

/-- One entry is read alike, if a value is. -/
theorem alike_readEntry {deeper deeper' : Read Value} (alike : Alike tag 1 deeper' deeper)
    (whole : deeper.parse.Whole 1) :
    Alike tag 2 (readEntry deeper') (readEntry deeper) := by
  refine Alike.after clears_checkKey fun _ => ?_
  refine Alike.bind (i := 1) (j := 1) alike whole fun k => ?_
  exact Alike.bind (i := 1) (j := 0) alike whole fun v => .refl _

/-- An entry takes two values. -/
theorem whole_readEntry {deeper : Read Value} (whole : deeper.parse.Whole 1) :
    (readEntry deeper).parse.Whole 2 := by
  unfold readEntry
  simp only [parse_bind, parse_pure]
  exact whole_checkKey (whole.bind fun k => whole.map)

/-- The header that comes next, with what is done in either case. -/
theorem alike_peek {next next' : UInt8 × Header → Read Value}
    (each : ∀ b rest c, c.rest = b :: rest → Clear tag 1 c.rest →
      next (b, Header.ofByte b) c = next' (b, Header.ofByte b) c) :
    Alike tag 1 (peekHeader >>= next) (peekHeader >>= next') := by
  intro c clear
  rw [run_bind, run_bind]
  rcases run : peekHeader c with ⟨f | ⟨b, h⟩, c'⟩
  · rfl
  · obtain ⟨rfl, header, rest, here⟩ := run_peekHeader (parse_eq_some.2 run)
    obtain rfl : h = Header.ofByte b := header
    exact each b rest c' here clear

/-- **One value is read alike, if those one level down are.** -/
theorem alike_readStep (agrees : r.AgreesOff r' tag) {deeper deeper' : Option (Read Value)}
    (below : Option.Rel (fun f g : Read Value => Alike tag 1 f g ∧ g.parse.Whole 1)
      deeper' deeper) :
    Alike tag 1 (readStep r' deeper') (readStep r deeper) := by
  unfold readStep
  simp only [forTag?_ofExt]
  refine alike_peek fun b rest c here clear => ?_
  dsimp only
  generalize header : Header.ofByte b = h
  cases h with
  | fixExt | ext => exact alike_extension agrees here header clear
  | fixArray | array =>
    refine Alike.after (clears_opens (sound_arrayLength .dynamic)) (fun length => ?_) c clear
    refine (Alike.descend below fun f g alike whole => ?_).mapped _
    exact alike.repeated whole _ []
  | fixMap | map =>
    refine Alike.after (clears_opens (sound_mapLength .dynamic)) (fun length => ?_) c clear
    refine (Alike.descend below fun f g alike whole => ?_).mapped _
    exact (alike_readEntry alike whole).repeated (whole_readEntry whole) _ []
  | _ => rfl

/-- **Values are read alike under registries that differ in the tag.** -/
theorem alike_read (agrees : r.AgreesOff r' tag) (n : Nat) :
    Alike tag 1 (read r' n) (read r n) := by
  induction n with
  | zero => exact alike_readStep agrees .none
  | succ n ih => exact alike_readStep agrees (.some ⟨ih, (levels_read r n).whole⟩)

end Value

/-! ## 4. Lists, tuples and maps

Everything that a collection holds is read one level down, by readers that are alike there if the
registries agree on the types that it mentions. -/

namespace InPlace

open Parse Read Decoded Datum

variable {cx : Context} {r : Registry} {tag : Int8} {t : Ty} {zero d : Datum}

/-- Two readers of one type are alike, and the second takes one complete value. -/
structure Beside (tag : Int8) (f g : InPlace) : Prop where
  alike : ∀ d, Alike tag 1 (f d) (g d)
  whole : ∀ d, (parse (g d)).Whole 1

/-- Either there is a level left for both runs, or for none. -/
theorem alike_descend {β : Type} {R : β → β → Prop} {deeper deeper' : Option β} {n : Nat}
    {next next' : β → Cursor → Decoded} (below : Option.Rel R deeper deeper')
    (each : ∀ f g, R f g → Alike tag n (next f) (next' g)) (left : Datum) :
    Alike tag n (Decoded.descend deeper left next) (Decoded.descend deeper' left next') := by
  cases below with
  | none => exact .refl _
  | some h => exact (each _ _ h).nestedRun

/-- As many elements as were announced. -/
theorem alike_elements {elem elem' : InPlace} (beside : Beside tag elem elem') (n : Nat)
    (done : List Datum) :
    Alike tag n (elements elem zero n done) (elements elem' zero n done) := by
  induction n generalizing done with
  | zero => exact .refl _
  | succ n ih =>
    rw [elements_succ, elements_succ, Nat.add_comm]
    exact Alike.afterRun (beside.alike zero) (beside.whole zero) fun x => ih (x :: done)

/-- A list needs one clear value, and its elements are inside of that. -/
theorem alike_list {deeper deeper' : Option InPlace}
    (below : Option.Rel (Beside tag) deeper deeper') :
    Alike tag 1 (list deeper zero d) (list deeper' zero d) := by
  rw [list_eq, list_eq]
  refine Alike.afterRead (clears_opens (sound_arrayLength .array)) fun length => ?_
  cases length with
  | none => exact .refl _
  | some n =>
    refine alike_descend below (fun f g beside => ?_) _
    rw [Option.getD_some, Nat.one_mul]
    exact alike_elements beside n []

/-- Bytes may come as bytes or as elements. -/
theorem alike_byteList {deeper deeper' : Option InPlace}
    (below : Option.Rel (Beside tag) deeper deeper') :
    Alike tag 1 (byteList deeper zero d) (byteList deeper' zero d) := by
  rw [byteList_eq, byteList_eq]
  refine Alike.afterRead clears_peekHeader fun bh => ?_
  split
  · exact .refl _
  · exact alike_list below

/-- Two readers of all types are alike for those on which the registries agree. -/
structure BesideEach (cx : Context) (r : Registry) (tag : Int8) (f g : Ty → InPlace) : Prop where
  alike : ∀ t, cx.AgreesOn r t → ∀ d, Alike tag 1 (f t d) (g t d)
  whole : ∀ t d, (parse (g t d)).Whole 1

/-- Readers that are alike for every type are so for one. -/
theorem BesideEach.beside {f g : Ty → InPlace} (each : BesideEach cx r tag f g)
    (agrees : cx.AgreesOn r t) : Beside tag (f t) (g t) :=
  ⟨each.alike t agrees, each.whole t⟩

variable {deeper deeper' : Option (Ty → InPlace)}
  (below : Option.Rel (BesideEach cx r tag) deeper deeper')
include below

/-- And so are those one level down. -/
theorem below_of (agrees : cx.AgreesOn r t) :
    Option.Rel (Beside tag) (deeper.map fun f => f t) (deeper'.map fun f => f t) := by
  cases below with
  | none => exact .none
  | some each => exact .some (each.beside agrees)

/-- A list, of bytes or of anything else. -/
theorem alike_sequence (agrees : cx.AgreesOn r t) :
    Alike tag 1 (sequence deeper t zero d) (sequence deeper' t zero d) := by
  rw [sequence_eq, sequence_eq]
  split
  · exact alike_byteList (below_of below agrees)
  · exact alike_list (below_of below agrees)

/-- A fixed array is a list first. -/
theorem alike_array (agrees : cx.AgreesOn r t) (n : Nat) :
    Alike tag 1 (array deeper n t zero d) (array deeper' n t zero d) := by
  rw [array_eq, array_eq]
  refine Alike.afterRead clears_tryNil fun nil => ?_
  cases nil with
  | true => exact .refl _
  | false => exact (alike_sequence below agrees).mappedRun _

omit below in
/-- Part by part, each of its own type. -/
theorem alike_parts {f g : Ty → InPlace} (each : BesideEach cx r tag f g) (fresh : Ty → Datum)
    {ts : List Ty} (agrees : ∀ t ∈ ts, cx.AgreesOn r t) (ds : List Datum) :
    Alike tag ts.length (parts fresh f ts ds) (parts fresh g ts ds) := by
  induction ts generalizing ds with
  | nil => exact .refl _
  | cons t ts ih =>
    obtain ⟨first, rest⟩ := List.forall_mem_cons.1 agrees
    rw [parts_cons, parts_cons]
    rw [List.length_cons, Nat.add_comm]
    refine Alike.afterRun (each.alike t first _) (each.whole t _) fun x => ?_
    exact (ih rest ds.tail).mappedRun _

/-- A tuple has as many parts as it announces, or ends before them. -/
theorem alike_tuple (fresh : Ty → Datum) {ts : List Ty} (agrees : ∀ t ∈ ts, cx.AgreesOn r t) :
    Alike tag 1 (tuple deeper fresh ts d) (tuple deeper' fresh ts d) := by
  rw [tuple_eq, tuple_eq]
  refine Alike.afterRead (clears_opens (sound_arrayLength .array)) fun length => ?_
  cases length with
  | none => exact .refl _
  | some n =>
    dsimp only
    split
    · rename_i same
      rw [Option.getD_some, Nat.one_mul, same]
      exact alike_descend below (fun f g each => alike_parts each fresh agrees _) _
    · exact .refl _

omit below in
/-- A map takes two values for each entry. -/
theorem alike_bindings {order : MapOrder} {key key' value value' : InPlace}
    (keys : Beside tag key key') (values : Beside tag value value') (keyZero valueZero : Datum)
    (n : Nat) (done : List (Datum × Datum)) :
    Alike tag (2 * n) (bindings order key value keyZero valueZero n done)
      (bindings order key' value' keyZero valueZero n done) := by
  induction n generalizing done with
  | zero => exact .refl _
  | succ n ih =>
    rw [bindings_succ, bindings_succ]
    refine Alike.afterRead clears_checkKey fun _ => ?_
    rw [show 2 * (n + 1) = 1 + (1 + 2 * n) by omega]
    refine Alike.afterRun (keys.alike _) (keys.whole _) fun k => ?_
    exact Alike.afterRun (values.alike _) (values.whole _) fun v => ih _

/-- A map needs one clear value, and its entries are inside of that. -/
theorem alike_map (order : MapOrder) {kt vt : Ty} (keys : cx.AgreesOn r kt)
    (values : cx.AgreesOn r vt) (keyZero valueZero : Datum) :
    Alike tag 1 (map deeper order kt vt keyZero valueZero d)
      (map deeper' order kt vt keyZero valueZero d) := by
  rw [map_eq, map_eq]
  refine Alike.afterRead (clears_opens (sound_mapLength .map)) fun length => ?_
  cases length with
  | none => exact .refl _
  | some n =>
    exact alike_descend below
      (fun f g each => alike_bindings (each.beside keys) (each.beside values) _ _ n []) _

omit below

/-! ## 5. Extensions

A destination of an extension's type asks for the tag's binding and for its host.  The tag is clear,
so both registries give the same, be it a binding or none. -/

theorem receive_under {tag' : Int8} (same : r.forTag? tag' = cx.registry.forTag? tag') (host : Host)
    (payload : List UInt8) :
    receive (cx.under r) host tag' payload = receive cx host tag' payload := by
  unfold receive
  rw [show (cx.under r).registry.forTag? tag' = _ from same]
  rfl

/-- **An extension that is read has another tag, so its binding is the same.** -/
theorem alike_extension (agrees : cx.registry.AgreesOff r tag) (host : Host) :
    Alike tag 1 (extension (cx.under r) host d) (extension cx host d) := by
  rw [extension_eq, extension_eq]
  intro c clear
  unfold afterRead
  rcases run : Read.ext .ext c with ⟨f | _ | ⟨tag', payload⟩, c'⟩
  · rfl
  · rfl
  · obtain ⟨used, took, holds, -⟩ := holds_ext .ext _ _ _ (parse_eq_some.2 run)
    obtain ⟨b, body, rfl, carries⟩ := holds tag' payload rfl
    rw [took] at clear
    dsimp only
    rw [receive_under (agrees tag' (clear.tag_ne carries))]

/-- A clock time is a timestamp's extension. -/
theorem alike_clockTime (agrees : cx.registry.AgreesOff r tag) :
    Alike tag 1 (clockTime (cx.under r) d) (clockTime cx d) := by
  rw [clockTime_eq, clockTime_eq]
  exact ((alike_extension agrees .timestamp).retrace _).mappedRun _

/-! ## 6. Records

The layout does not depend on the registry.  What a record is read as does: the registries have to
agree on whether a binding claims it, as they do for each type that is mentioned. -/

section Records

variable {id : RecordId} {f g : Ty → InPlace} (each : BesideEach cx r tag f g)
  (agrees : cx.AgreesOn r (.record id))
include each agrees

/-- A value for a slot is of the type of its field, which the record mentions. -/
theorem alike_intoSlot (s : Slot) (d : Datum) :
    Alike tag 1 (intoSlot (cx.under r) f id s d) (intoSlot cx g id s d) := by
  unfold intoSlot
  rw [Context.catalog_under]
  rcases found : cx.catalog.reach s.name id s.path d with ⟨_ | ⟨t, x⟩, d'⟩
  · exact .refl _
  · exact (each.alike t (agrees.mono fun _ => .reach found) x).mappedRun _

/-- A value that belongs to no slot is skipped, with no look at any registry. -/
theorem alike_slotOrSkip (d : Datum) (found : Option Slot) :
    Alike tag 1 (slotOrSkip (cx.under r) f id d found) (slotOrSkip cx g id d found) := by
  cases found with
  | none => exact .refl _
  | some s =>
    rw [slotOrSkip, slotOrSkip, slot_eq, slot_eq, Context.catalog_under]
    split
    · refine Alike.afterRead clears_tryNil fun nil => ?_
      cases nil with
      | true => exact .refl _
      | false => exact alike_intoSlot each agrees s d
    · exact alike_intoSlot each agrees s d

/-- Value by value. -/
theorem alike_slots (n : Nat) (ss : List Slot) (d : Datum) :
    Alike tag n (slots (cx.under r) f id n ss d) (slots cx g id n ss d) := by
  induction n generalizing ss d with
  | zero => exact .refl _
  | succ n ih =>
    rw [slots_succ, slots_succ, Nat.add_comm]
    exact Alike.afterRun (alike_slotOrSkip each agrees d _) (whole_slotOrSkip each.whole d _)
      fun d => ih ss.tail d

/-- Entry by entry, of which each takes two values. -/
theorem alike_namedSlots (layout : Layout) (n : Nat) (d : Datum) :
    Alike tag (2 * n) (namedSlots (cx.under r) f id layout n d)
      (namedSlots cx g id layout n d) := by
  induction n generalizing d with
  | zero => exact .refl _
  | succ n ih =>
    rw [namedSlots_succ, namedSlots_succ, show 2 * (n + 1) = 1 + (1 + 2 * n) by omega]
    refine Alike.afterRead (clears_whole (whole_slotNamed layout)) fun found => ?_
    exact Alike.afterRun (alike_slotOrSkip each agrees d found)
      (whole_slotOrSkip each.whole d found) ih

/-- The fields of a record, in either mode. -/
theorem alike_fields (d : Datum) :
    Alike tag 1 (fields (cx.under r) f id d) (fields cx g id d) := by
  cases mode : cx.mode with
  | positional =>
    have mode' : (cx.under r).mode = .positional := mode
    rw [fields_positional mode, fields_positional mode']
    refine Alike.afterRead (clears_opens (sound_arrayLength .record)) fun length => ?_
    cases length with
    | none => exact .refl _
    | some n =>
      rw [Option.getD_some, Nat.one_mul]
      exact alike_slots each agrees n _ d
  | named =>
    have mode' : (cx.under r).mode = .named := mode
    rw [fields_named mode, fields_named mode']
    refine Alike.afterRead (clears_opens (sound_mapLength .record)) fun length => ?_
    cases length with
    | none => exact .refl _
    | some n => exact alike_namedSlots each agrees _ n d

end Records

include below in
/-- **A record is read alike**: through a binding under both registries, or by its fields under
both. -/
theorem alike_record {id : RecordId} (tags : cx.registry.AgreesOff r tag)
    (agrees : cx.AgreesOn r (.record id)) :
    Alike tag 1 (record (cx.under r) deeper id d) (record cx deeper' id d) := by
  have same : ((cx.under r).hasBinding (.record id) || (cx.catalog.decl id).form == .external) =
      (cx.hasBinding (.record id) || (cx.catalog.decl id).form == .external) := by
    rw [agrees.hasBinding (.record id)]
  cases bound : cx.hasBinding (.record id) || (cx.catalog.decl id).form == .external with
  | true =>
    rw [record_bound bound, record_bound (same.trans bound)]
    exact alike_extension tags _
  | false =>
    rw [record_eq bound, record_eq (same.trans bound)]
    exact (alike_descend below (fun f g each => alike_fields each agrees d) d).retrace _

end InPlace

/-! ## 7. All types

The induction is on the levels, and on each level on the type.  The levels of both registries'
readers go down together. -/

namespace Datum

open Parse Read Decoded InPlace Catalog

variable {cx : Context} {r : Registry} {tag : Int8}

/-- A type is read alike, if all types are one level down. -/
theorem alike_read_of (tags : cx.registry.AgreesOff r tag) {n : Nat}
    (below : Option.Rel (BesideEach cx r tag) (oneDown (cx.under r) n) (oneDown cx n)) :
    ∀ t, cx.AgreesOn r t → ∀ d, Alike tag 1 (read (cx.under r) n t d) (read cx n t d)
  | .bool, _, d | .number _, _, d | .text, _, d | .bytes, _, d => by
    rw [read_eq, read_eq, readStep, readStep]
    exact .refl _
  | .dynamic, _, d => by
    rw [read_dynamic, read_dynamic]
    exact (Value.alike_read tags n).mappedRead _
  | .timestamp, _, d => by
    rw [read_eq, read_eq, readStep, readStep]
    exact alike_extension tags _
  | .clockTime, _, d => by
    rw [read_eq, read_eq, readStep, readStep]
    exact alike_clockTime tags
  | .list t, agrees, d => by
    rw [read_eq, read_eq, readStep, readStep]
    exact alike_sequence below (agrees.mono fun _ => .list)
  | .array length t, agrees, d => by
    rw [read_eq, read_eq, readStep, readStep]
    exact alike_array below (agrees.mono fun _ => .array) length
  | .tuple ts, agrees, d => by
    rw [read_eq, read_eq, readStep, readStep]
    exact alike_tuple below _ fun t part => agrees.mono fun _ => .tuple part
  | .option t, agrees, d => by
    rw [read_option, read_option]
    refine Alike.afterRead clears_tryNil fun nil => ?_
    cases nil with
    | true => exact .refl _
    | false => exact (alike_read_of tags below t (agrees.mono fun _ => .option) _).mappedRun _
  | .box t, agrees, d => by
    rw [read_box, read_box]
    exact alike_read_of tags below t (agrees.mono fun _ => .box) d
  | .map order kt vt, agrees, d => by
    rw [read_eq, read_eq, readStep, readStep]
    exact alike_map below order (agrees.mono fun _ => .key) (agrees.mono fun _ => .value) _ _
  | .record id, agrees, d => by
    rw [read_eq, read_eq, readStep, readStep]
    exact alike_record below tags agrees

/-- **A value in which no extension has the tag is read alike under registries that differ in the
tag and in hosts that the type does not mention.** -/
theorem alike_read (tags : cx.registry.AgreesOff r tag) (n : Nat) {t : Ty}
    (agrees : cx.AgreesOn r t) (d : Datum) :
    Alike tag 1 (read (cx.under r) n t d) (read cx n t d) := by
  induction n generalizing t d with
  | zero => exact alike_read_of tags .none t agrees d
  | succ n ih =>
    have each : BesideEach cx r tag (read (cx.under r) n) (read cx n) :=
      ⟨fun t agrees d => ih agrees d, whole_read cx n⟩
    exact alike_read_of (n := n + 1) tags (.some each) t agrees d

end Datum

end MessagePack
