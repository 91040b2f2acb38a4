import MessagePack.Proofs.Datum.Order
import MessagePack.Proofs.Decode.Frame
import MessagePack.Proofs.Record.Typing
/-!
# Reading keeps types

A destination of a type is left as one of that type, whatever is read into it and wherever that
fails: what is replaced is replaced by a datum of the type, what is kept was one before, and what
comes into being on the way is a zero.  Bindings are trusted to give data of the type of their host;
the timestamp's does.

Main statement: `Datum.ofType_read`.
-/

namespace MessagePack

open Catalog

/-! ## 1. Bindings

A binding is code from outside, and nothing stops it from giving data that its host cannot hold.
Reading keeps types only if it does not, which is what `Registry.Typed` asks for.  The one binding
that is there from the start gives timestamps. -/

/-- The type whose data bindings of the host carry; none if no type asks for the host. -/
def Host.type? : Host → Option Ty
  | .timestamp => some .timestamp
  | .record id => some (.record id)
  | .other _ => none

/-- Every binding gives data of the type of its host. -/
def Registry.Typed (r : Registry) (c : Catalog) : Prop :=
  ∀ tag b, r.forTag? tag = some b → ∀ t, b.host.type? = some t →
    ∀ payload x, b.decode payload = .ok x → c.OfType t x

/-- The timestamp's binding gives timestamps, and it is the only one at first. -/
theorem Registry.typed_initial (c : Catalog) : Registry.initial.Typed c := by
  intro tag b found t asks payload x decoded
  -- one entry is found, or none
  have timestamp : b = .timestamp := by
    simp only [forTag?, initial, insert, List.lookup_cons, List.lookup_nil] at found
    split at found
    · exact (Option.some.inj found).symm
    · cases found
  subst timestamp
  cases asks
  simp only [Binding.timestamp] at decoded
  split at decoded
  · cases decoded
    exact .timestamp _
  · cases decoded

/-! ## 2. Results of reads

What is read by itself, before it is put anywhere, is of a type if every result of the read is.
`Read.Gives` says so of any property, and is kept by what reads are composed of. -/

namespace Read

variable {α β : Type} {r : Read α} {next : α → Read β} {P : α → Prop} {Q : β → Prop}

/-- Every result of the read has the property. -/
def Gives (r : Read α) (P : α → Prop) : Prop := ∀ c a c', r c = (.ok a, c') → P a

/-- What is returned has the property if the result has. -/
theorem gives_return {a : α} (holds : P a) : (pure a : Read α).Gives P := by
  rintro c _ _ ⟨⟩
  exact holds

/-- Of two reads after one another the results of the second count, given those of the first. -/
theorem Gives.bind (first : r.Gives P) (each : ∀ a, P a → (next a).Gives Q) :
    (r >>= next).Gives Q := by
  intro c b last run
  rw [run_bind] at run
  rcases e : r c with ⟨f | a, mid⟩
  · rw [e] at run
    cases run
  · rw [e] at run
    exact each a (first c a mid e) mid b last run

theorem gives_true (r : Read α) : r.Gives fun _ => True := fun _ _ _ _ => trivial

/-- What comes out of narrowing is what the number narrows to. -/
theorem gives_narrow (t : NumType) (kind : Kind) (n : Number) :
    (narrow t kind n).Gives fun x => n.narrow? t = some x := by
  unfold narrow
  cases n.narrow? t with
  | none => nofun
  | some x => exact gives_return rfl

end Read

/-- A narrowed number is one of its type. -/
theorem Number.ofType_narrow {c : Catalog} {n : Number} {t : NumType} {x : Narrowed}
    (narrowed : n.narrow? t = some x) : c.OfType (.number t) (.ofNarrowed x) := by
  cases t with
  | single =>
    cases narrowed
    exact .single _
  | double =>
    cases narrowed
    exact .double _
  | uint w | int w =>
    obtain ⟨i, fits, rfl⟩ := Option.map_eq_some_iff.1 narrowed
    exact .whole (Option.filter_eq_some_iff.1 fits).2

namespace InPlace

open Decoded

variable {cx : Context} {r : Ty → InPlace} {t : Ty} {d x zero : Datum} {c : Cursor}

/-- What the reader leaves is of the type if what was there is. -/
def KeepsTypes (c : Catalog) (r : Ty → InPlace) : Prop :=
  ∀ t d cursor, c.OfType t d → c.OfType t (r t d cursor).dest

/-- What is assigned in the end is of the type, or nothing is assigned. -/
theorem ofType_replace {r : Read Datum} (typed : cx.catalog.OfType t d)
    (gives : r.Gives (cx.catalog.OfType t)) : cx.catalog.OfType t (replace r d c).dest := by
  rw [replace_eq]
  exact afterRead_dest typed fun x c' run => gives c x c' (Read.parse_eq_some.1 run)

/-- A payload is handed to the binding of its tag only if that is the host's own. -/
theorem ofType_receive (typed : cx.registry.Typed cx.catalog) {host : Host} {tag : Int8}
    {payload : List UInt8} (asks : host.type? = some t)
    (given : receive cx host tag payload = .ok x) : cx.catalog.OfType t x := by
  unfold receive at given
  split at given
  · cases given
  · rename_i b found
    split at given
    · rename_i own
      exact typed tag b found t (own ▸ asks) payload x given
    · cases given

/-! ## 3. Lists, tuples and maps

Collections are emptied before they are read, so that what stood there need not be of their type.
Arrays and tuples are not, and keep the type of what stood there.  All of them hold what was read so
far when a fault ends it, so each step has to leave something of the type. -/

section Collections

variable {elem : InPlace} {deeper : Option (Ty → InPlace)}

/-- The elements read so far make a list, wherever reading stops. -/
theorem ofType_elements (each : ∀ c, cx.catalog.OfType t (elem zero c).dest) (n : Nat)
    {done : List Datum} (read : ∀ x ∈ done, cx.catalog.OfType t x) :
    cx.catalog.OfType (.list t) (elements elem zero n done c).dest := by
  have before : cx.catalog.OfType (.list t) (.seq done.reverse) :=
    .list fun x mem => read x (List.mem_reverse.1 mem)
  -- the element in which reading stops is kept too, with what was read of it
  induction n generalizing done c with
  | zero => exact before
  | succ n ih =>
    rw [elements_succ]
    refine afterRun_dest before fun c' _ => ?_
    have longer := List.forall_mem_cons.2 ⟨each c, read⟩
    exact ih longer (.list fun x mem => longer x (List.mem_reverse.1 mem))

/-- A list holds nothing if no elements are announced or no level is left for them. -/
theorem ofType_list {deeper : Option InPlace}
    (each : ∀ r, deeper = some r → ∀ c, cx.catalog.OfType t (r zero c).dest) :
    cx.catalog.OfType (.list t) (list deeper zero d c).dest := by
  have empty : cx.catalog.OfType (.list t) (.seq []) := .emptyList
  rw [list_eq]
  refine afterRead_dest empty fun length c' _ => ?_
  cases length with
  | none => exact empty
  | some n =>
    cases deeper with
    | none => exact empty
    | some r => exact ofType_elements (each r rfl) n (List.forall_mem_nil _)

/-- Bytes that are taken at once are elements in the range of a byte. -/
theorem ofType_bytes (bs : List UInt8) :
    cx.catalog.OfType (.list .byte) (.seq (bs.map fun b => .int b.toNat)) := by
  refine .list fun x mem => ?_
  obtain ⟨b, -, rfl⟩ := List.mem_map.1 mem
  refine .whole (Number.holds_uint.2 ⟨Int.natCast_nonneg _, ?_⟩)
  have lt := b.toNat_lt
  show (b.toNat : Int) < (0x100 : Nat)
  omega

/-- The elements below are kept of their types. -/
def KeepsBelow (c : Catalog) (deeper : Option (Ty → InPlace)) : Prop :=
  ∀ r, deeper = some r → KeepsTypes c r

/-- A list of bytes may come as bytes, any other comes element by element. -/
theorem ofType_sequence (below : KeepsBelow cx.catalog deeper)
    (typed : cx.catalog.OfType (.list t) d) :
    cx.catalog.OfType (.list t) (sequence deeper t (cx.catalog.initial t) d c).dest := by
  have each : ∀ r, deeper.map (fun r => r t) = some r →
      ∀ c, cx.catalog.OfType t (r (cx.catalog.initial t) c).dest := by
    intro r known c
    obtain ⟨f, found, rfl⟩ := Option.map_eq_some_iff.1 known
    exact below f found t _ c (cx.catalog.ofType_initial t)
  rw [sequence_eq]
  split
  · rename_i bytes
    -- only bytes are of the kind of bytes
    obtain rfl : t = .byte := by
      unfold Ty.sequenceKind at bytes
      split at bytes
      · rfl
      · cases bytes
    rw [byteList_eq]
    refine afterRead_dest typed fun bh c' _ => ?_
    split
    · exact afterRead_dest .emptyList fun bs c'' _ => ofType_bytes _
    · exact ofType_list each
  · exact ofType_list each

/-- A fixed array is filled whole, with fresh elements or with as many as it has, or it is left as
it was. -/
theorem ofType_array (below : KeepsBelow cx.catalog deeper) {n : Nat}
    (typed : cx.catalog.OfType (.array n t) d) :
    cx.catalog.OfType (.array n t) (array deeper n t (cx.catalog.initial t) d c).dest := by
  rw [array_eq]
  refine afterRead_dest typed fun nil c' _ => ?_
  split
  · -- a nil stands for fresh elements
    refine .array_of List.length_replicate fun x mem => ?_
    rw [List.eq_of_mem_replicate mem]
    exact cx.catalog.ofType_initial t
  · refine afterRun_dest typed fun c'' _ => ?_
    have read : cx.catalog.OfType (.list t)
        (sequence deeper t (cx.catalog.initial t) (.seq []) c').dest :=
      ofType_sequence below .emptyList
    -- a list of another length is thrown away
    generalize (sequence deeper t (cx.catalog.initial t) (.seq []) c').dest = x at read ⊢
    split
    · rename_i length
      cases read with
      | list each => exact .array_of length each
    · exact typed

/-- Part by part each is kept of its type, those that are not reached are as they were. -/
theorem ofType_parts (keeps : KeepsTypes cx.catalog r) {ts : List Ty} {ds : List Datum}
    (typed : List.Forall₂ cx.catalog.OfType ts ds) :
    cx.catalog.OfType (.tuple ts) (parts cx.catalog.initial r ts ds c).dest := by
  induction typed generalizing c with
  | nil => exact OfType.tuple_iff.2 ⟨[], rfl, .nil⟩
  | @cons t y ts ys first rest ih =>
    rw [parts_cons]
    have part := keeps t y c first
    refine afterRun_dest (OfType.tuple_iff.2 ⟨_, rfl, .cons part rest⟩) fun c' _ => ?_
    obtain ⟨xs, read, each⟩ := OfType.tuple_iff.1 (ih (c := c'))
    have after : cx.catalog.OfType (.tuple (t :: ts)) (.seq ((r t y c).dest ::
        (parts cx.catalog.initial r ts ys c').dest.items)) := by
      rw [read]
      exact OfType.tuple_iff.2 ⟨_, rfl, .cons part each⟩
    exact afterRun_dest after fun _ _ => after

/-- A tuple keeps its type, be it read or left as it was because of its length. -/
theorem ofType_tuple (below : KeepsBelow cx.catalog deeper) {ts : List Ty}
    (typed : cx.catalog.OfType (.tuple ts) d) :
    cx.catalog.OfType (.tuple ts) (tuple deeper cx.catalog.initial ts d c).dest := by
  rw [tuple_eq]
  refine afterRead_dest typed fun length c' _ => ?_
  cases length with
  | none => exact typed
  | some n =>
    dsimp only
    split
    · cases deeper with
      | none => exact typed
      | some r =>
        obtain ⟨ds, rfl, each⟩ := OfType.tuple_iff.1 typed
        exact ofType_parts (below r rfl) each
    · exact typed

/-- The entries bound so far make a map, wherever reading stops. -/
theorem ofType_bindings {order : MapOrder} {kt vt : Ty} {key value : InPlace}
    {keyZero valueZero : Datum} (keys : ∀ c, cx.catalog.OfType kt (key keyZero c).dest)
    (values : ∀ c, cx.catalog.OfType vt (value valueZero c).dest) (n : Nat)
    {done : List (Datum × Datum)} (typed : cx.catalog.OfType (.map order kt vt) (.map done)) :
    cx.catalog.OfType (.map order kt vt)
      (bindings order key value keyZero valueZero n done c).dest := by
  induction n generalizing done c with
  | zero => exact typed
  | succ n ih =>
    rw [bindings_succ]
    refine afterRead_dest typed fun _ mid _ => ?_
    -- an entry is bound when both its key and its value are read
    refine afterRun_dest typed fun last _ => afterRun_dest typed fun _ _ => ih ?_
    cases typed with
    | map keysDone valuesDone =>
      have each := order.forall_insert (keys mid) (values last)
        fun e mem => ⟨keysDone e mem, valuesDone e mem⟩
      exact .map (fun e mem => (each e mem).1) fun e mem => (each e mem).2

/-- A map is emptied first, so what stood there does not matter. -/
theorem ofType_map (below : KeepsBelow cx.catalog deeper) {order : MapOrder} {kt vt : Ty} :
    cx.catalog.OfType (.map order kt vt)
      (map deeper order kt vt (cx.catalog.initial kt) (cx.catalog.initial vt) d c).dest := by
  have empty : cx.catalog.OfType (.map order kt vt) (.map []) := .emptyMap
  rw [map_eq]
  refine afterRead_dest empty fun length c' _ => ?_
  cases length with
  | none => exact empty
  | some n =>
    cases deeper with
    | none => exact empty
    | some r =>
      exact ofType_bindings (fun c => below r rfl kt _ c (cx.catalog.ofType_initial kt))
        (fun c => below r rfl vt _ c (cx.catalog.ofType_initial vt)) n empty

end Collections

/-! ## 4. Extensions

An extension replaces its destination by what the binding gives.  A clock time is read by way of a
timestamp. -/

/-- An extension leaves what its binding gives, or what stood there. -/
theorem ofType_extension (bindings : cx.registry.Typed cx.catalog) {host : Host}
    (asks : host.type? = some t) (typed : cx.catalog.OfType t d) :
    cx.catalog.OfType t (extension cx host d c).dest := by
  rw [extension_eq]
  refine afterRead_dest typed fun e c' _ => ?_
  rcases e with _ | ⟨tag, payload⟩
  · exact typed
  · cases given : receive cx host tag payload with
    | ok x =>
      simp only [given]
      exact ofType_receive bindings asks given
    | error f =>
      simp only [given]
      exact typed

/-- A clock time is left as it was if the clock cannot name the timestamp. -/
theorem ofType_clockTime (typed : cx.catalog.OfType .clockTime d) :
    cx.catalog.OfType .clockTime (clockTime cx d c).dest := by
  rw [clockTime_eq]
  refine afterRun_dest typed fun c' _ => ?_
  generalize (extension cx .timestamp _ _).dest.asTimestamp = time
  cases time.toClockTime? with
  | some a => exact .clockTime a
  | none => exact typed

/-! ## 5. Records

Fields are reached through embedded records, which may come into being on the way.  A record that
comes into being is a fresh one, and what a fresh record holds is of its fields' types
(`Catalog.ofType_initial`).  So a record stays of its type even if its field's own value turns out
to be broken. -/

section Records

variable {id : RecordId}

/-- A value for a slot changes the field at the end of the slot's path; any other value changes
nothing. -/
theorem ofType_slotOrSkip (keeps : KeepsTypes cx.catalog r) (found : Option Slot)
    (typed : cx.catalog.OfType (.record id) d) :
    cx.catalog.OfType (.record id) (slotOrSkip cx r id d found c).dest := by
  cases found with
  | none =>
    rw [slotOrSkip, skipping_eq]
    exact afterRead_dest typed fun _ _ _ => typed
  | some s =>
    have into : ∀ c, cx.catalog.OfType (.record id) (intoSlot cx r id s d c).dest := by
      intro c
      -- following the path keeps the type, and so does what is put at its end
      obtain ⟨way, ends⟩ := typed.reach s.name s.path
      unfold intoSlot
      rcases run : cx.catalog.reach s.name id s.path d with ⟨f | ⟨t, x⟩, left⟩ <;>
        rw [run] at way ends
      · exact way
      · obtain ⟨fits, puts⟩ := ends _ rfl
        have put := puts _ (keeps t x c fits)
        exact afterRun_dest put fun _ _ => put
    rw [slotOrSkip, slot_eq]
    split
    · -- a nil for a field that is absent is dropped
      refine afterRead_dest typed fun nil c' _ => ?_
      split
      · exact typed
      · exact into c'
    · exact into c

/-- Value by value, in the order of the layout. -/
theorem ofType_slots (keeps : KeepsTypes cx.catalog r) (n : Nat) (ss : List Slot)
    (typed : cx.catalog.OfType (.record id) d) :
    cx.catalog.OfType (.record id) (slots cx r id n ss d c).dest := by
  induction n generalizing ss d c with
  | zero => exact typed
  | succ n ih =>
    rw [slots_succ]
    have filled := ofType_slotOrSkip keeps ss.head? typed (c := c)
    exact afterRun_dest filled fun _ _ => ih ss.tail filled

/-- Entry by entry, in the order of the input. -/
theorem ofType_namedSlots (keeps : KeepsTypes cx.catalog r) (layout : Layout) (n : Nat)
    (typed : cx.catalog.OfType (.record id) d) :
    cx.catalog.OfType (.record id) (namedSlots cx r id layout n d c).dest := by
  induction n generalizing d c with
  | zero => exact typed
  | succ n ih =>
    rw [namedSlots_succ]
    refine afterRead_dest typed fun found c' _ => ?_
    have entered := ofType_slotOrSkip keeps found typed (c := c')
    exact afterRun_dest entered fun _ _ => ih entered

/-- A record that goes by its fields, in either mode. -/
theorem ofType_fields (keeps : KeepsTypes cx.catalog r) (typed : cx.catalog.OfType (.record id) d) :
    cx.catalog.OfType (.record id) (fields cx r id d c).dest := by
  cases mode : cx.mode with
  | positional =>
    rw [fields_positional mode]
    refine afterRead_dest typed fun length c' _ => ?_
    cases length with
    | none => exact typed
    | some n => exact ofType_slots keeps n _ typed
  | named =>
    rw [fields_named mode]
    refine afterRead_dest typed fun length c' _ => ?_
    cases length with
    | none => exact typed
    | some n => exact ofType_namedSlots keeps _ n typed

/-- A record that is claimed is its binding's, any other goes by its fields. -/
theorem ofType_record {deeper : Option (Ty → InPlace)} (bindings : cx.registry.Typed cx.catalog)
    (below : KeepsBelow cx.catalog deeper) (typed : cx.catalog.OfType (.record id) d) :
    cx.catalog.OfType (.record id) (record cx deeper id d c).dest := by
  cases bound : cx.hasBinding (.record id) || (cx.catalog.decl id).form == .external with
  | true =>
    rw [record_bound bound]
    exact ofType_extension bindings rfl typed
  | false =>
    rw [record_eq bound]
    cases deeper with
    | none => exact typed
    | some r => exact ofType_fields (below r rfl) typed

end Records

end InPlace

/-! ## 6. All types

The induction is on the levels that are left, and on one level on the type: what options and boxes
hold is read on the level of the option or the box itself. -/

namespace Datum

open InPlace Decoded

variable {cx : Context} {n : Nat}

/-- One level, if the types one level down are kept. -/
theorem ofType_read_of (bindings : cx.registry.Typed cx.catalog)
    (below : KeepsBelow cx.catalog (oneDown cx n)) : ∀ (t : Ty) (d : Datum) (c : Cursor),
    cx.catalog.OfType t d → cx.catalog.OfType t (read cx n t d c).dest
  | .bool, d, c, typed => by
    rw [read_eq, readStep]
    exact ofType_replace typed ((Read.gives_true _).bind fun _ _ => Read.gives_return (.bool _))
  | .number t, d, c, typed => by
    rw [read_eq, readStep]
    refine ofType_replace typed ((Read.gives_true _).bind fun m _ => ?_)
    exact (Read.gives_narrow t t.kind m).bind fun x narrowed =>
      Read.gives_return (Number.ofType_narrow narrowed)
  | .text, d, c, typed => by
    rw [read_eq, readStep]
    exact ofType_replace typed ((Read.gives_true _).bind fun _ _ => Read.gives_return (.text _))
  | .bytes, d, c, typed => by
    rw [read_eq, readStep]
    exact ofType_replace typed ((Read.gives_true _).bind fun _ _ => Read.gives_return (.bytes _))
  | .dynamic, d, c, typed => by
    rw [read_dynamic]
    exact afterRead_dest typed fun v _ _ => .dynamic v
  | .timestamp, d, c, typed => by
    rw [read_eq, readStep]
    exact ofType_extension bindings rfl typed
  | .clockTime, d, c, typed => by
    rw [read_eq, readStep]
    exact ofType_clockTime typed
  | .list t, d, c, typed => by
    rw [read_eq, readStep]
    exact ofType_sequence below typed
  | .array length t, d, c, typed => by
    rw [read_eq, readStep]
    exact ofType_array below typed
  | .tuple ts, d, c, typed => by
    rw [read_eq, readStep]
    exact ofType_tuple below typed
  | .option t, d, c, typed => by
    rw [read_option]
    refine afterRead_dest typed fun nil c' _ => ?_
    -- an empty option is filled with something fresh before it is read into
    have held : cx.catalog.OfType t (d.held?.getD (cx.catalog.initial t)) := by
      cases inside : d.held? with
      | none => exact cx.catalog.ofType_initial t
      | some x => exact typed.held inside
    have read := ofType_read_of bindings below t _ c' held
    split
    · exact .absent
    · exact afterRun_dest (.present read) fun _ _ => .present read
  | .box t, d, c, typed => by
    rw [read_box]
    exact .box (ofType_read_of bindings below t d c typed.unbox)
  | .map order kt vt, d, c, _ => by
    rw [read_eq, readStep]
    exact ofType_map below
  | .record id, d, c, typed => by
    rw [read_eq, readStep]
    exact ofType_record bindings below typed

/-- **Reading keeps types**, whether it succeeds or not. -/
theorem ofType_read (bindings : cx.registry.Typed cx.catalog) (n : Nat) (t : Ty) (d : Datum)
    (c : Cursor) (typed : cx.catalog.OfType t d) : cx.catalog.OfType t (read cx n t d c).dest := by
  induction n generalizing t d c with
  | zero => exact ofType_read_of bindings (fun r none' => by cases none') t d c typed
  | succ n ih =>
    refine ofType_read_of bindings (fun r known => ?_) t d c typed
    cases known
    exact ih

/-- So what is read one level down keeps its types, if there is a level. -/
theorem keepsTypes_oneDown (bindings : cx.registry.Typed cx.catalog) {r : Ty → InPlace}
    (level : oneDown cx n = some r) : KeepsTypes cx.catalog r := by
  cases n with
  | zero => cases level
  | succ n =>
    cases level
    exact ofType_read bindings n

end Datum

end MessagePack
