import MessagePack.Proofs.Datum.Order
import MessagePack.Proofs.Encode.ByType
import MessagePack.Proofs.RoundTrip.Value
/-!
# Data come back part by part

`cx.Restores t x y` says that what is written for `x` as a `t` is one complete value, and that
reading it by the same type into a fresh destination gives `y`, at any level that leaves room for
its nesting.  It is closed under every way of building types but records; what comes back of a
whole is built from what comes back of its parts.

Main statements: `Context.Restores.list` and its siblings, one for each way of building types.
-/

namespace MessagePack

/-- Sequences are written as bytes or as an array. -/
theorem Ty.sequenceKind_array {t : Ty} (other : t.sequenceKind ≠ .bin) :
    t.sequenceKind = .array := by
  unfold sequenceKind at other ⊢
  split
  · exact (other rfl).elim
  · rfl

/-- Written and read again as a `t`, the datum `x` comes back as `y`. -/
structure Context.Restores (cx : Context) (t : Ty) (x y : Datum) : Prop where
  /-- What is written is one complete value. -/
  complete : ∀ {bs}, (x.script cx t).Puts bs → ∃ k, Complete k 1 bs
  /-- What may be a key of a map owes no other values. -/
  flat : ∀ {bs}, (x.script cx t).Puts bs → (cx.wireKind t x).isContainer = false → Flat bs
  takes : ∀ {bs n}, (x.script cx t).Puts bs → Complete n 1 bs →
    (Decoded.parse (Datum.read cx n t (cx.catalog.initial t))).Takes bs y

namespace Context.Restores

open Datum InPlace Decoded Parse

variable {cx : Context} {t : Ty} {x y d : Datum} {bs : List UInt8} {n : Nat}

/-! ## 1. Scalars

A scalar is put under one header or another, and every reader takes any header of the family.  So
what is left to see is that the number, or the payload, is the one that was put. -/

/-- A value that owes no others, and that is taken at every level. -/
theorem of_flat (flat : ∀ {bs}, (x.script cx t).Puts bs → Flat bs)
    (takes : ∀ {bs n}, (x.script cx t).Puts bs →
      (parse (read cx n t (cx.catalog.initial t))).Takes bs y) : cx.Restores t x y :=
  ⟨fun puts => ⟨0, (flat puts).complete 0⟩, fun puts _ => flat puts, fun puts _ => takes puts⟩

/-- A truth value comes back. -/
theorem bool (b : Bool) : cx.Restores .bool (.bool b) (.bool b) := by
  refine of_flat ?_ ?_
  · intro bs puts
    rw [script] at puts
    obtain rfl := (Script.puts_put _).1 puts
    exact .of_header (Header.stands_bool b) rfl ⟨rfl, rfl⟩
  · intro bs n puts
    rw [script] at puts
    obtain rfl := (Script.puts_put _).1 puts
    rw [parse_read_bool]
    exact (Read.takes_bool b).map

/-- A number under a header that spells it. -/
theorem number {t : NumType} {h : Header} {body : List UInt8} {m : Number} {a : Narrowed}
    (put : (Script.number t x).Puts (h.toByte :: body)) (spells : h.Spells body m)
    (fits : m.narrow? t = some a) : cx.Restores (.number t) x (ofNarrowed a) := by
  refine of_flat ?_ ?_
  · intro bs puts
    rw [script] at puts
    obtain rfl := puts.eq.trans put.eq.symm
    exact Value.flat_number spells
  · intro bs n puts
    rw [script] at puts
    obtain rfl := puts.eq.trans put.eq.symm
    rw [parse_read_number, ← List.append_nil (h.toByte :: body)]
    exact (Read.takes_number t.kind spells).bind (Value.takes_narrow fits).map

/-- A whole number in the range of its type comes back, whatever header it was put under. -/
theorem whole {t : NumType} {i : Int} (fits : t.holds i = true) :
    cx.Restores (.number t) (.int i) (.int i) := by
  have unsigned : 0 ≤ i → i < 2 ^ 64 → ∃ (h : Header) (body : List UInt8),
      (Script.uint i.toNat).Puts (h.toByte :: body) ∧
        h.Spells body (.uint (UInt64.ofNat i.toNat)) ∧
        (Number.uint (UInt64.ofNat i.toNat)).narrow? t = some (.whole i) := by
    intro low high
    obtain ⟨h, body, put, spells⟩ := Script.uint_spells (n := i.toNat) (by omega)
    refine ⟨h, body, put, spells, Number.narrow?_whole ?_ fits⟩
    simp only [Number.truncate?, Option.some.injEq, UInt64.toNat_ofNat']
    omega
  cases t with
  | uint w =>
    obtain ⟨low, high⟩ := Number.holds_uint.1 fits
    have room : (w.span : Int) ≤ 2 ^ 64 := by cases w <;> decide
    obtain ⟨h, body, put, spells, back⟩ := unsigned low (by omega)
    exact number (t := .uint w) (x := .int i) put spells back
  | int w =>
    obtain ⟨low, high⟩ := Number.holds_int.1 fits
    have room : (w.span : Int) ≤ 2 ^ 64 := by cases w <;> decide
    rcases Int.lt_or_le i 0 with negative | positive
    · obtain ⟨h, body, put, spells⟩ := Script.int_spells negative (by omega)
      refine number (t := .int w) (x := .int i) put spells (Number.narrow?_whole ?_ fits)
      simp only [Number.truncate?, Option.some.injEq]
      exact Int64.toInt_ofInt_of_le (by omega) (by omega)
    · obtain ⟨h, body, put, spells, back⟩ := unsigned positive (by omega)
      have same : Script.int i = Script.uint i.toNat := by rw [Script.int, if_pos positive]
      rw [← same] at put
      exact number (t := .int w) (x := .int i) put spells back
  | single | double => cases fits

/-- A float of 32 bits comes back, a signalling one that is no number quiet. -/
theorem single (a : Single) :
    cx.Restores (.number .single) (.single a) (.single a.widen.narrow) := by
  obtain ⟨body, put, spells⟩ := Script.single_spells a
  exact number (t := .single) (x := .single a) put spells rfl

/-- One of 64 bits comes back as it is. -/
theorem double (a : Double) : cx.Restores (.number .double) (.double a) (.double a) := by
  obtain ⟨body, put, spells⟩ := Script.double_spells a
  exact number (t := .double) (x := .double a) put spells rfl

/-- A text comes back. -/
theorem text (s : String) : cx.Restores .text (.text s) (.text s) := by
  refine of_flat ?_ ?_
  · intro bs puts
    rw [script] at puts
    exact Script.flat_text puts
  · intro bs n puts
    rw [script] at puts
    obtain ⟨h, body, e, rfl⟩ := Script.puts_announced.1 puts
    obtain ⟨-, holds⟩ := Family.text_announces e
    rw [parse_read_text]
    exact (Read.takes_text (Family.stands_header? e) holds (textOfUtf8?_utf8Bytes s)).map

/-- What is put for bytes owes no values and is read as these bytes. -/
theorem takes_bin {payload : List UInt8} (puts : (Script.bin payload).Puts bs) :
    ∃ (h : Header) (body : List UInt8), h.isBin = true ∧ h.Stands ∧ bs = h.toByte :: body ∧
      Flat bs ∧ (Read.raw .bin).parse.Takes bs (some payload) := by
  obtain ⟨h, body, e, rfl⟩ := Script.puts_announced.1 puts
  obtain ⟨bin, holds⟩ := Family.bin_announces e
  have stands := Family.stands_header? e
  exact ⟨h, _, bin, stands, rfl, .of_header stands holds.flat holds.owes,
    Read.takes_raw .bin stands holds⟩

/-- Bytes come back. -/
theorem bytes (b : List UInt8) : cx.Restores .bytes (.bytes b) (.bytes b) := by
  refine of_flat ?_ ?_
  · intro bs puts
    rw [script] at puts
    obtain ⟨_, _, -, -, -, flat, -⟩ := takes_bin puts
    exact flat
  · intro bs n puts
    rw [script] at puts
    obtain ⟨_, _, -, -, -, -, takes⟩ := takes_bin puts
    rw [parse_read_bytes]
    exact takes.map (g := fun bytes => Datum.bytes (bytes.getD []))

/-! ## 2. Extensions and dynamic values

What a binding puts is one extension under its own tag, and what it gets back is that extension's
payload.  Whether the payload gives the datum back is the binding's affair. -/

/-- What is put as an extension of a binding's tag is read through that binding. -/
theorem takes_extension {b : Binding} {payload : List UInt8}
    (tagged : cx.registry.forTag? b.tag = some b) (decodes : b.decode payload = .ok y)
    (puts : (Script.ext b.tag payload).Puts bs) :
    Flat bs ∧ (parse (extension cx b.host d)).Takes bs y := by
  refine ⟨Script.flat_ext puts, ?_⟩
  obtain ⟨h, body, e, rfl⟩ := Script.puts_ext.1 puts
  have holds := Family.ext_announces e b.tag
  have stands := Family.stands_header? e
  have bound : bound? cx b.host b.tag payload = some y := by
    simp only [bound?, receive, tagged, if_true, decodes]
    rfl
  rw [parse_extension, ← List.append_nil (h.toByte :: _)]
  refine (Read.takes_ext .ext stands holds).bind ?_
  simp only [bound]
  exact takes_pure y

/-- A timestamp comes back, since its binding gives back what it puts. -/
theorem timestamp (con : cx.registry.Consistent) (a : Timestamp) :
    cx.Restores .timestamp (.timestamp a) (.timestamp a) := by
  have tagged : cx.registry.forTag? Binding.timestampTag = some .timestamp :=
    (con.byHost con.timestamp).2
  have decodes : Binding.timestamp.decode a.payload = .ok (.timestamp a) := by
    simp only [Binding.timestamp, Timestamp.ofPayload_payload]
  have taken : ∀ {bs n}, ((Datum.timestamp a).script cx .timestamp).Puts bs →
      Flat bs ∧ (parse (read cx n .timestamp (cx.catalog.initial .timestamp))).Takes bs
        (.timestamp a) := by
    intro bs n puts
    rw [script, encodeExtension, con.timestamp] at puts
    rw [read_eq, readStep]
    exact takes_extension tagged decodes puts
  exact of_flat (fun puts => (taken (n := 0) puts).1) fun puts => (taken puts).2

/-- A datum of a host type whose binding writes one extension of its own tag and makes the datum of
the payload again. -/
theorem bound (con : cx.registry.Consistent) {id : RecordId} {b : Binding} {payload : List UInt8}
    (claims : cx.registry.forHost? (.record id) = some b)
    (encodes : b.encode x = Script.ext b.tag payload) (decodes : b.decode payload = .ok y) :
    cx.Restores (.record id) x y := by
  obtain ⟨host, tagged⟩ := con.byHost claims
  have claimed : (cx.hasBinding (.record id) || (cx.catalog.decl id).form == .external) = true := by
    rw [hasBinding, claims]
    rfl
  have taken : ∀ {bs n}, (x.script cx (.record id)).Puts bs →
      Flat bs ∧ (parse (read cx n (.record id) (cx.catalog.initial (.record id)))).Takes bs y := by
    intro bs n puts
    rw [script_bound cx x claimed, encodeExtension, claims] at puts
    simp only [encodes] at puts
    rw [read_eq, readStep, parse_record_bound claimed, ← host]
    exact takes_extension tagged decodes puts
  exact of_flat (fun puts => (taken (n := 0) puts).1) fun puts => (taken puts).2

/-- A dynamic value comes back settled, if no binding is in the way of its raw extensions. -/
theorem dynamic (con : cx.registry.Consistent) {v : Value} (raw : v.Raw cx.registry) :
    cx.Restores .dynamic (.dynamic v) (.dynamic v.settled) := by
  constructor
  · intro bs puts
    rw [script] at puts
    exact ⟨v.depth, Value.complete_script con v puts⟩
  · intro bs puts kind
    rw [script] at puts
    exact (Value.takes_leaf con kind puts).1
  · intro bs n puts nests
    rw [script] at puts
    rw [parse_read_dynamic]
    exact (Value.takes_read con v raw puts nests).map

/-! ## 3. Runs of parts

Parts stand one after another, each one complete, so that where one ends the next begins.  The
induction is on the parts that are still to be read. -/

/-- What is put for several data, one after another, is as many complete values. -/
theorem complete_all {ps : List (Ty × Datum × Datum)}
    (each : ∀ p ∈ ps, cx.Restores p.1 p.2.1 p.2.2)
    (puts : (Script.all (ps.map fun p => p.2.1.script cx p.1)).Puts bs) :
    ∃ k, Complete k ps.length bs := by
  rw [← Nat.one_mul ps.length]
  exact Script.complete_each (fun p hp _ => (each p hp).complete) puts

/-- The parts of a tuple are read one after another. -/
theorem takes_parts {ps : List (Ty × Datum × Datum)}
    (each : ∀ p ∈ ps, cx.Restores p.1 p.2.1 p.2.2)
    (puts : (Script.all (ps.map fun p => p.2.1.script cx p.1)).Puts bs)
    (nests : Complete n ps.length bs) :
    (parse (parts cx.catalog.initial (read cx n) (ps.map (·.1))
      (Ty.initialEach (cx.catalog.initials cx.catalog.records.length) (ps.map (·.1))))).Takes bs
      (.seq (ps.map (·.2.2))) := by
  induction ps generalizing bs with
  | nil =>
    cases puts
    exact takes_pure _
  | cons p ps ih =>
    have here := each p (by simp)
    have behind := fun q hq => each q (List.mem_cons_of_mem _ hq)
    -- the first part's bytes end where its value does
    obtain ⟨u, v, hu, hv, rfl⟩ := Script.puts_append.1 puts
    obtain ⟨k, whole⟩ := here.complete hu
    rw [List.length_cons, Nat.add_comm] at nests
    obtain ⟨first, later⟩ := nests.of_append whole
    simp only [List.map_cons, Ty.initialEach]
    rw [parse_parts_cons]
    exact (here.takes hu first).bind (ih behind hv later).map

variable {ps : List (Datum × Datum)}

/-- The elements of a list as parts of one type. -/
theorem each_part (each : ∀ p ∈ ps, cx.Restores t p.1 p.2) :
    ∀ q ∈ ps.map fun p => (t, p), cx.Restores q.1 q.2.1 q.2.2 := by
  intro q hq
  obtain ⟨p, hp, rfl⟩ := List.mem_map.1 hq
  exact each p hp

/-- The elements of a list are read one after another. -/
theorem takes_elements (each : ∀ p ∈ ps, cx.Restores t p.1 p.2) (done : List Datum)
    (puts : (Script.all ((ps.map (·.1)).map (script cx t))).Puts bs)
    (nests : Complete n ps.length bs) :
    (parse (elements (read cx n t) (cx.catalog.initial t) ps.length done)).Takes bs
      (.seq (done.reverse ++ ps.map (·.2))) := by
  induction ps generalizing bs done with
  | nil =>
    cases puts
    rw [List.map_nil, List.append_nil]
    exact takes_pure _
  | cons p ps ih =>
    have here := each p (by simp)
    have behind := fun q hq => each q (List.mem_cons_of_mem _ hq)
    obtain ⟨u, v, hu, hv, rfl⟩ := Script.puts_append.1 puts
    obtain ⟨k, whole⟩ := here.complete hu
    rw [List.length_cons, Nat.add_comm] at nests
    obtain ⟨first, later⟩ := nests.of_append whole
    rw [List.length_cons, parse_elements_succ]
    refine (here.takes hu first).bind ?_
    have rest := ih behind (p.2 :: done) hv later
    rwa [List.reverse_cons, List.append_assoc] at rest

/-! ## 4. Lists and arrays

A list is the header of an array with the number of its elements, and the elements one level down.
The level is there, because what was put nests no deeper than reading goes. -/

/-- Elements that are put at once, each as it is put alone. -/
theorem effect_uniform {u : Uniform} {items : List Datum} {f : Datum → List UInt8}
    (flat : u.puts.flatten = (items.map f).flatten)
    (each : ∀ x : Datum, (x.script cx t).Puts (f x)) :
    (Script.uniform u).effect = (Script.all (items.map (script cx t))).effect := by
  refine (Script.puts_all.2 ⟨fun s hs => ?_, ?_⟩).symm
  · obtain ⟨x, -, rfl⟩ := List.mem_map.1 hs
    exact (each x).self
  · rw [flat, List.map_map]
    congr 1
    exact List.map_congr_left fun x _ => (each x).eq

/-- Two puts for each element are one. -/
theorem flatten_pairs {α β : Type} (xs : List α) (first second : α → List β) :
    (xs.flatMap fun x => [first x, second x]).flatten =
      (xs.map fun x => first x ++ second x).flatten := by
  induction xs with
  | nil => rfl
  | cons x xs ih =>
    rw [List.flatMap_cons, List.flatten_append, ih, List.map_cons, List.flatten_cons]
    simp

/-- Elements of one width are put as any others are. -/
theorem puts_sequence (array : t.sequenceKind = .array) {items : List Datum} :
    (Script.sequence t items (items.map (script cx t))).Puts bs ↔
      (Script.header .array items.length ++ Script.all (items.map (script cx t))).Puts bs := by
  unfold Script.sequence
  split
  · cases array
  · have same : (Script.uniform (.bools (items.map asBool))).effect =
        (Script.all (items.map (script cx .bool))).effect :=
      effect_uniform (f := fun x => [(Header.bool x.asBool).toByte])
        (by rw [Uniform.puts, List.map_map]; rfl) fun x => by rw [script]; rfl
    unfold Script.Puts
    rw [Script.effect_append, Script.effect_append, same]
  · have same : (Script.uniform (.singles (items.map asSingle))).effect =
        (Script.all (items.map (script cx (.number .single)))).effect :=
      effect_uniform (f := fun x => [Header.single.toByte] ++ bigEndian 4 x.asSingle.bits.toNat)
        (by rw [Uniform.puts, flatten_pairs, List.map_map]; rfl) fun x => by rw [script]; rfl
    unfold Script.Puts
    rw [Script.effect_append, Script.effect_append, same]
  · have same : (Script.uniform (.doubles (items.map asDouble))).effect =
        (Script.all (items.map (script cx (.number .double)))).effect :=
      effect_uniform (f := fun x => [Header.double.toByte] ++ bigEndian 8 x.asDouble.bits.toNat)
        (by rw [Uniform.puts, flatten_pairs, List.map_map]; rfl) fun x => by rw [script]; rfl
    unfold Script.Puts
    rw [Script.effect_append, Script.effect_append, same]
  · rfl

/-- What is put for a sequence of elements that are not bytes: an array of as many values. -/
theorem sequence_cases (array : t.sequenceKind = .array)
    (each : ∀ p ∈ ps, cx.Restores t p.1 p.2)
    (puts : (Script.sequence t (ps.map (·.1)) ((ps.map (·.1)).map (script cx t))).Puts bs) :
    ∃ (h : Header) (body inside : List UInt8), bs = h.toByte :: (body ++ inside) ∧ h.Stands ∧
      h.isArray = true ∧ h.Owes body ps.length ∧ (∃ k, Complete k ps.length inside) ∧
      (Script.all ((ps.map (·.1)).map (script cx t))).Puts inside := by
  obtain ⟨h, body, v, rfl, stands, isArray, own, hv⟩ :=
    Script.puts_array ((puts_sequence array).1 puts)
  rw [List.length_map] at own
  have whole := complete_all (each_part each) (by
    rw [List.map_map] at hv ⊢
    exact hv)
  rw [List.length_map] at whole
  exact ⟨h, body, v, rfl, stands, isArray, own, whole, hv⟩

/-- What was put for a list of anything but bytes is read element by element. -/
theorem takes_sequence (array : t.sequenceKind = .array)
    (each : ∀ p ∈ ps, cx.Restores t p.1 p.2)
    (puts : (Script.sequence t (ps.map (·.1)) ((ps.map (·.1)).map (script cx t))).Puts bs)
    (nests : Complete n 1 bs) :
    (parse (sequence (oneDown cx n) t (cx.catalog.initial t) d)).Takes bs
      (.seq (ps.map (·.2))) := by
  obtain ⟨h, body, inside, rfl, stands, isArray, own, -, hv⟩ := sequence_cases array each puts
  obtain ⟨m, rfl, inner⟩ :=
    (Complete.deep_iff stands (Header.isContainer_of_isArray isArray) own).1 nests
  rw [parse_sequence, if_neg (by rw [array]; decide), parse_list]
  refine (Read.takes_arrayLength .array stands isArray own).bind (u := h.toByte :: body) ?_
  exact (takes_elements each [] hv inner).nested

/-- A list comes back if its elements do. -/
theorem list (array : t.sequenceKind = .array) (each : ∀ p ∈ ps, cx.Restores t p.1 p.2) :
    cx.Restores (.list t) (.seq (ps.map (·.1))) (.seq (ps.map (·.2))) := by
  constructor
  · intro bs puts
    rw [script_list] at puts
    obtain ⟨h, body, inside, rfl, stands, isArray, own, ⟨k, inner⟩, -⟩ :=
      sequence_cases array each puts
    exact ⟨k + 1, .of_deep stands (Header.isContainer_of_isArray isArray) own inner⟩
  · intro bs puts kind
    change t.sequenceKind.isContainer = false at kind
    rw [array] at kind
    cases kind
  · intro bs n puts nests
    rw [script_list] at puts
    rw [read_eq, readStep]
    exact takes_sequence array each puts nests

/-- So does a fixed array, which has the length that was put. -/
theorem array (array : t.sequenceKind = .array) (each : ∀ p ∈ ps, cx.Restores t p.1 p.2) :
    cx.Restores (.array ps.length t) (.seq (ps.map (·.1))) (.seq (ps.map (·.2))) := by
  constructor
  · intro bs puts
    rw [script_array] at puts
    obtain ⟨h, body, inside, rfl, stands, isArray, own, ⟨k, inner⟩, -⟩ :=
      sequence_cases array each puts
    exact ⟨k + 1, .of_deep stands (Header.isContainer_of_isArray isArray) own inner⟩
  · intro bs puts kind
    change t.sequenceKind.isContainer = false at kind
    rw [array] at kind
    cases kind
  · intro bs n puts nests
    rw [script_array] at puts
    rw [read_eq, readStep]
    have read := takes_sequence (d := .seq []) array each puts nests
    obtain ⟨h, body, inside, rfl, stands, isArray, -, -, -⟩ := sequence_cases array each puts
    have other : h.toByte ≠ Header.nil.toByte :=
      stands.toByte_ne_nil (by rintro rfl; cases isArray)
    rw [parse_array]
    refine Read.takes_tryNil_other other ?_
    rw [if_neg (by decide), ← List.append_nil (h.toByte :: _)]
    refine read.bind ?_
    rw [if_pos (by rw [items, List.length_map])]
    exact takes_pure _

/-! ## 5. Lists and arrays of bytes -/

theorem takes_byteSequence {b : List UInt8}
    (puts : (Script.sequence .byte (b.map fun u => .int u.toNat)
      ((b.map fun u => .int u.toNat).map (script cx .byte))).Puts bs) :
    ∃ (h : Header) (body : List UInt8), h.Stands ∧ h.isBin = true ∧ bs = h.toByte :: body ∧
      Flat bs ∧ ∀ deeper zero d,
        (parse (sequence deeper .byte zero d)).Takes bs (.seq (b.map fun u => .int u.toNat)) := by
  have same : ((b.map fun u => Datum.int u.toNat).map fun d => UInt8.ofNat d.asInt.toNat) = b := by
    rw [List.map_map]
    conv => rhs; rw [← List.map_id b]
    exact List.map_congr_left fun u _ => by simp [asInt]
  simp only [Script.sequence, same] at puts
  obtain ⟨h, body, isBin, stands, rfl, flat, takes⟩ := takes_bin puts
  refine ⟨h, body, stands, isBin, rfl, flat, fun deeper zero d => ?_⟩
  rw [parse_sequence, if_pos (show Ty.byte.sequenceKind = .bin from rfl), parse_byteList]
  refine Read.takes_peekHeader stands ?_
  rw [if_pos (by simp [holdsBytes, isBin])]
  exact takes.map (g := fun bytes => Datum.seq ((bytes.getD []).map fun b => .int b.toNat))

/-- A list of bytes is put as bytes and taken at once. -/
theorem byteList (b : List UInt8) :
    cx.Restores (.list .byte) (.seq (b.map fun u => .int u.toNat))
      (.seq (b.map fun u => .int u.toNat)) := by
  refine of_flat ?_ ?_
  · intro bs puts
    rw [script_list] at puts
    obtain ⟨h, body, -, -, -, flat, -⟩ := takes_byteSequence puts
    exact flat
  · intro bs n puts
    rw [script_list] at puts
    obtain ⟨h, body, -, -, -, -, takes⟩ := takes_byteSequence puts
    rw [read_eq, readStep]
    exact takes _ _ _

/-- So is a fixed array of bytes. -/
theorem byteArray (b : List UInt8) :
    cx.Restores (.array b.length .byte) (.seq (b.map fun u => .int u.toNat))
      (.seq (b.map fun u => .int u.toNat)) := by
  refine of_flat ?_ ?_
  · intro bs puts
    rw [script_array] at puts
    obtain ⟨h, body, -, -, -, flat, -⟩ := takes_byteSequence puts
    exact flat
  · intro bs n puts
    rw [script_array] at puts
    obtain ⟨h, body, stands, isBin, rfl, -, takes⟩ := takes_byteSequence puts
    have other : h.toByte ≠ Header.nil.toByte :=
      stands.toByte_ne_nil (by rintro rfl; cases isBin)
    rw [read_eq, readStep, parse_array]
    refine Read.takes_tryNil_other other ?_
    rw [if_neg (by decide), ← List.append_nil (h.toByte :: _)]
    refine (takes _ _ _).bind ?_
    rw [if_pos (by rw [items, List.length_map])]
    exact takes_pure _

/-! ## 6. Tuples, options and boxes

An option that is present is put as what it holds.  That comes back as an option only if it is not
put as nil, which is why `Context.Restores.present` asks for it. -/

theorem tuple (ps : List (Ty × Datum × Datum)) (each : ∀ p ∈ ps, cx.Restores p.1 p.2.1 p.2.2) :
    cx.Restores (.tuple (ps.map (·.1))) (.seq (ps.map (·.2.1))) (.seq (ps.map (·.2.2))) := by
  have script : (Datum.seq (ps.map (·.2.1))).script cx (.tuple (ps.map (·.1))) =
      .header .array ps.length ++ .all (ps.map fun p => p.2.1.script cx p.1) := by
    rw [script_tuple, items, List.zip_map', List.map_map, List.length_map]
    rfl
  constructor
  · intro bs puts
    rw [script] at puts
    exact Script.complete_array puts fun u inside => complete_all each inside
  · intro bs puts kind
    cases kind
  · intro bs n puts nests
    rw [script] at puts
    obtain ⟨h, body, inside, rfl, stands, isArray, own, hv⟩ := Script.puts_array puts
    obtain ⟨m, rfl, inner⟩ :=
      (Complete.deep_iff stands (Header.isContainer_of_isArray isArray) own).1 nests
    rw [read_eq, readStep, parse_tuple]
    refine (Read.takes_arrayLength .array stands isArray own).bind (u := h.toByte :: body) ?_
    dsimp only
    rw [if_pos (List.length_map _).symm]
    exact (takes_parts each hv inner).nested

/-- An absent option is nil and comes back as that. -/
theorem absent : cx.Restores (.option t) .absent .absent := by
  refine of_flat ?_ ?_
  · intro bs puts
    rw [script_option] at puts
    obtain rfl := (Script.puts_put _).1 puts
    exact .nil
  · intro bs n puts
    rw [script_option] at puts
    obtain rfl := (Script.puts_put _).1 puts
    rw [parse_read_option]
    exact Read.takes_tryNil_nil (takes_pure _)

/-- An option comes back full, unless what it holds is written as nil. -/
theorem present (held : cx.Restores t x y)
    (solid : ¬ (x.script cx t).Puts [Header.nil.toByte]) :
    cx.Restores (.option t) (.present x) (.present y) := by
  constructor
  · intro bs puts
    rw [script_option] at puts
    exact held.complete puts
  · intro bs puts kind
    rw [script_option] at puts
    exact held.flat puts kind
  · intro bs n puts nests
    rw [script_option] at puts
    rw [parse_read_option]
    have read := (held.takes puts nests).map (g := Datum.present)
    obtain ⟨k, whole⟩ := held.complete puts
    cases written : bs with
    | nil => exact (whole.ne_nil written).elim
    | cons b rest =>
      rw [written] at puts whole read
      refine Read.takes_tryNil_other ?_ read
      rintro rfl
      rw [whole.nil_alone] at puts
      exact solid puts

/-- A box is what it holds. -/
theorem box (held : cx.Restores t x y) : cx.Restores (.box t) x y := by
  constructor
  · intro bs puts
    rw [script_box] at puts
    exact held.complete puts
  · intro bs puts kind
    rw [script_box] at puts
    exact held.flat puts kind
  · intro bs n puts nests
    rw [script_box] at puts
    rw [read_box]
    exact held.takes puts nests

/-! ## 7. Maps

A map is read entry by entry, and each entry is put at the end of those before it if the keys come
back in ascending order.  So the keys that come back have to be in the order of the map. -/

section Maps

variable {order : MapOrder} {kt vt : Ty} {es : List ((Datum × Datum) × (Datum × Datum))}

/-- What is put for the entries of a map is two complete values for each. -/
theorem complete_entries
    (each : ∀ e ∈ es, cx.Restores kt e.1.1 e.2.1 ∧ cx.Restores vt e.1.2 e.2.2)
    (puts : (Script.all ((es.map (·.1)).map (entryScript cx kt vt))).Puts bs) :
    ∃ k, Complete k (2 * es.length) bs := by
  rw [List.map_map] at puts
  refine Script.complete_each (fun e he u hu => ?_) puts
  obtain ⟨key, value⟩ := each e he
  obtain ⟨w, w', hw, hw', rfl⟩ := Script.puts_append.1 hu
  exact Complete.exists_append (key.complete (Script.puts_key.1 hw).2) (value.complete hw')

/-- The entries of a map are read one after another, each behind those before it. -/
theorem takes_bindings
    (each : ∀ e ∈ es, cx.Restores kt e.1.1 e.2.1 ∧ cx.Restores vt e.1.2 e.2.2)
    (done : List (Datum × Datum))
    (ascending : (done ++ es.map (·.2)).Pairwise fun a b => order.IsAfter b.1 a.1)
    (puts : (Script.all ((es.map (·.1)).map (entryScript cx kt vt))).Puts bs)
    (nests : Complete n (2 * es.length) bs) :
    (parse (bindings order (read cx n kt) (read cx n vt) (cx.catalog.initial kt)
      (cx.catalog.initial vt) es.length done)).Takes bs (.map (done ++ es.map (·.2))) := by
  -- each entry goes behind the ones that were read, since its key is after theirs
  induction es generalizing bs done with
  | nil =>
    cases puts
    rw [List.map_nil, List.append_nil]
    exact takes_pure _
  | cons e es ih =>
    obtain ⟨key, value⟩ := each e (by simp)
    have behind := fun q hq => each q (List.mem_cons_of_mem _ hq)
    obtain ⟨kv, v, hkv, hv, rfl⟩ := Script.puts_append.1 puts
    obtain ⟨u, w, hu, hw, rfl⟩ := Script.puts_append.1 hkv
    obtain ⟨flatKind, hu⟩ := Script.puts_key.1 hu
    obtain ⟨i, first⟩ := key.complete hu
    obtain ⟨j, second⟩ := value.complete hw
    have pair := (first.mono (Nat.le_max_left i j)).append (second.mono (Nat.le_max_right i j))
    rw [List.length_cons, Nat.mul_succ, Nat.add_comm] at nests
    obtain ⟨both, later⟩ := nests.of_append pair
    obtain ⟨inKey, inValue⟩ := both.of_append (m := 1) (n := 1) first
    have last : order.insert e.2.1 e.2.2 done = done ++ [e.2] := by
      refine order.insert_last ?_
      intro a ha
      exact (List.pairwise_append.1 ascending).2.2 a ha e.2 (by simp)
    have rest := ih behind (done ++ [e.2]) (by rwa [List.append_assoc]) hv later
    rw [List.append_assoc] at rest
    rw [List.length_cons, parse_bindings_succ, List.append_assoc]
    refine Read.takes_checkKey (key.flat hu flatKind) ?_
    refine (key.takes hu inKey).bind ((value.takes hw inValue).bind ?_)
    rw [last]
    exact rest

/-- A map comes back if its entries do, in the same order. -/
theorem map (es : List ((Datum × Datum) × (Datum × Datum)))
    (each : ∀ e ∈ es, cx.Restores kt e.1.1 e.2.1 ∧ cx.Restores vt e.1.2 e.2.2)
    (ascending : (es.map (·.2)).Pairwise fun a b => order.IsAfter b.1 a.1) :
    cx.Restores (.map order kt vt) (.map (es.map (·.1))) (.map (es.map (·.2))) := by
  constructor
  · intro bs puts
    rw [script_map, entries, List.length_map] at puts
    exact Script.complete_map puts fun u inside => complete_entries each inside
  · intro bs puts kind
    cases kind
  · intro bs n puts nests
    rw [script_map, entries, List.length_map] at puts
    obtain ⟨h, body, inside, rfl, stands, isMap, own, hv⟩ := Script.puts_map puts
    obtain ⟨m, rfl, inner⟩ :=
      (Complete.deep_iff stands (Header.isContainer_of_isMap isMap) own).1 nests
    rw [read_eq, readStep, parse_map]
    refine (Read.takes_mapLength .map stands isMap own).bind (u := h.toByte :: body) ?_
    exact (takes_bindings each [] ascending hv inner).nested

end Maps

end Context.Restores

/-! ## 8. Whole operations -/

/-- What is restored is decoded from what was written, if it nests no deeper than decoding goes. -/
theorem Codec.decode_of_restores {c : Codec} {mode : Mode} {t : Ty} {x y : Datum} {bs : List UInt8}
    (back : (c.context mode).Restores t x y) (written : (c.encode t x mode).1 = .ok bs)
    (nests : Complete maxDepth 1 bs) : ((c.encode t x mode).2.decode t bs mode).1 = .ok y := by
  refine decode_of_takes ?_
  rw [encode, conclude, context_rememberAll, catalog_rememberAll]
  exact back.takes (encode_eq_ok.1 written) nests

end MessagePack
