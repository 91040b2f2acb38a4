import MessagePack.Codec
import MessagePack.Gallery.Bindings
import MessagePack.Proofs.Encode.Whole
/-!
# Keys of maps

A mapping key must be no array and no map.  The writer refuses a key by the kind it declares, before
anything is put, and the reader refuses it by the first byte it finds.  The two agree, because the
declared kind is a kind of container exactly where the bytes start with the header of one:
`Datum.starts_script`, by recursion on what `Context.wireKind` looks at.

A record that writes itself by hand declares the kind of a record even where a binding claims it.
Such a key is refused although it would be an extension (`Datum.starts_of_not_declares`).
Everywhere else the kind is right.

Main statement: `Codec.keys_agree`.
-/

namespace MessagePack

variable {bs : List UInt8} {cx : Context} {deep : Bool}

/-! ## 1. How a script starts -/

namespace Script

variable {s t : Script}

/-- Whatever the script puts starts with a header, which is that of an array or a map if `deep` says
so and only then. -/
def Starts (s : Script) (deep : Bool) : Prop :=
  ∀ bs, s.Puts bs → ∃ first rest, bs = first :: rest ∧ (Header.ofByte first).isContainer = deep

/-- A script that starts with a header starts as the header says. -/
theorem starts_headed {h : Header} (stands : h.Stands) (body : List UInt8) :
    (headed h body).Starts h.isContainer := by
  rintro bs ⟨⟩
  exact ⟨h.toByte, body, rfl, congrArg _ stands⟩

/-- A header on the wire starts as it says. -/
theorem starts_byte {h : Header} (stands : h.Stands) :
    (put [h.toByte]).Starts h.isContainer := by
  rintro bs ⟨⟩
  exact ⟨h.toByte, [], rfl, congrArg _ stands⟩

/-- What puts values that owe no others starts with no container. -/
theorem Starts.of_flat (flat : ∀ bs, s.Puts bs → Flat bs) : s.Starts false := by
  intro bs puts
  obtain ⟨first, rest, rfl, plain, -⟩ := flat bs puts
  exact ⟨first, rest, rfl, plain⟩

/-- Looking up a layout puts nothing. -/
theorem Starts.consult {id : RecordId} (starts : s.Starts deep) :
    (Script.consult id ++ s).Starts deep := by
  intro bs puts
  obtain ⟨_, u, ⟨⟩, inside, rfl⟩ := puts_append.1 puts
  exact starts _ inside

/-- An array starts as a container, -/
theorem starts_array (n : Nat) (s : Script) : (header .array n ++ s).Starts true := by
  intro bs puts
  obtain ⟨h, body, inside, rfl, stands, array, -, -⟩ := puts_array puts
  exact ⟨h.toByte, body ++ inside, rfl,
    (congrArg _ stands).trans (Header.isContainer_of_isArray array)⟩

/-- so does a map, -/
theorem starts_map (n : Nat) (s : Script) : (header .map n ++ s).Starts true := by
  intro bs puts
  obtain ⟨h, body, inside, rfl, stands, map, -, -⟩ := puts_map puts
  exact ⟨h.toByte, body ++ inside, rfl,
    (congrArg _ stands).trans (Header.isContainer_of_isMap map)⟩

/-- **A number starts with no container**, whatever its size. -/
theorem starts_uint (n : Nat) : (uint n).Starts false := by
  unfold uint
  repeat' split
  · exact starts_byte (Header.stands_posFix _)
  all_goals exact starts_headed (Header.stands_uint _) _

/-- and a whole number does not. -/
theorem starts_int (i : Int) : (int i).Starts false := by
  unfold int
  repeat' split
  · exact starts_uint _
  · exact starts_byte (Header.stands_negFix _)
  all_goals exact starts_headed (Header.stands_int _) _

theorem starts_number (t : NumType) (d : Datum) : (number t d).Starts false := by
  cases t with
  | uint w => exact starts_uint _
  | int w => exact starts_int _
  | single => exact starts_headed Header.stands_single _
  | double => exact starts_headed Header.stands_double _

theorem starts_bin (payload : List UInt8) : (bin payload).Starts false := by
  refine .of_flat fun bs puts => ?_
  obtain ⟨_, _, -, -, -, flat, -⟩ := Context.Restores.takes_bin puts
  exact flat

/-- A sequence of bytes starts as bytes do, and any other as an array. -/
theorem starts_sequence (elem : Ty) (items : List Datum) (scripts : List Script) :
    (sequence elem items scripts).Starts elem.sequenceKind.isContainer := by
  unfold sequence
  split
  · exact starts_bin _
  · exact starts_array _ _
  · exact starts_array _ _
  · exact starts_array _ _
  · rename_i other _ _ _
    have array : elem.sequenceKind = .array := by
      unfold Ty.sequenceKind
      split
      · exact (other rfl).elim
      · rfl
    rw [array]
    exact starts_array _ _

end Script

/-! ## 2. How data and values start -/

open Script

/-- **A dynamic value starts as its kind says.** -/
theorem Value.starts_script (con : cx.registry.Consistent) (one : cx.registry.WritesOne)
    (v : Value) : (v.script cx).Starts v.kind.isContainer := by
  cases v with
  | nil => exact starts_byte Header.stands_nil
  | bool b => exact starts_byte (Header.stands_bool b)
  | int i => exact starts_int _
  | uint u => exact starts_uint _
  | single x => exact starts_headed Header.stands_single _
  | double x => exact starts_headed Header.stands_double _
  | text s => exact .of_flat fun bs => flat_text
  | bin bytes => exact starts_bin _
  | array items => exact starts_array _ _
  | map entries => exact starts_map _ _
  | ext tag payload => exact .of_flat fun bs => flat_ext
  | timestamp t => exact .of_flat fun bs => Context.flat_encodeExtension con one

namespace Context

/-- The record that this type comes down to, if any, does not write itself by hand while a binding
claims it. -/
def DeclaresKind (cx : Context) (t : Ty) : Prop :=
  ∀ id, t.embedded? = some id → (cx.catalog.decl id).form = .manual →
    cx.hasBinding (.record id) = false

variable {id : RecordId}

/-- A record that goes by its fields starts as an array or a map. -/
theorem starts_fields (d : Datum)
    (bound : (cx.hasBinding (.record id) || (cx.catalog.decl id).form == .external) = false) :
    (d.script cx (.record id)).Starts true := by
  cases mode : cx.mode with
  | positional =>
    rw [Datum.script_positional cx d bound mode]
    exact (starts_array _ _).consult
  | named =>
    cases omits : (cx.layout id).neverOmits with
    | true =>
      rw [Datum.script_direct cx d bound mode omits]
      exact (starts_map _ _).consult
    | false =>
      rw [Datum.script_counted cx d bound mode omits]
      exact (starts_map _ _).consult

/-- A record that goes through a binding starts as no container. -/
theorem starts_bound (con : cx.registry.Consistent) (one : cx.registry.WritesOne) (d : Datum)
    (bound : (cx.hasBinding (.record id) || (cx.catalog.decl id).form == .external) = true) :
    (d.script cx (.record id)).Starts false := by
  rw [Datum.script_bound cx d bound]
  exact .of_flat fun bs => flat_encodeExtension con one

end Context

open Context

/-- **What is written for a datum starts with the header of an array or a map exactly where its kind
as a key says so.** -/
theorem Datum.starts_script (con : cx.registry.Consistent) (one : cx.registry.WritesOne)
    {t : Ty} (declares : cx.DeclaresKind t) (d : Datum) :
    (d.script cx t).Starts (cx.wireKind t d).isContainer := by
  fun_induction Context.wireKind cx t d with
  | case1 t d x held ih =>
    rw [script_option, held]
    exact ih declares
  | case2 t d absent =>
    rw [script_option, absent]
    exact starts_byte Header.stands_nil
  | case3 t d ih =>
    rw [script_box]
    exact ih declares
  | case4 id d plain claimed =>
    exact starts_bound con one d (by rw [claimed]; rfl)
  | case5 id d plain free =>
    exact starts_fields d (by rw [Bool.not_eq_true] at free; rw [free, plain]; rfl)
  | case6 id d other =>
    cases form : (cx.catalog.decl id).form with
    | plain => exact (other form).elim
    | manual =>
      rw [Ty.kind, form]
      exact starts_fields d (by rw [declares id rfl form, form]; rfl)
    | external =>
      rw [Ty.kind, form]
      exact starts_bound con one d (by rw [form]; simp)
  | case7 t d noOption noBox noRecord =>
    cases t with
    | bool => rw [script]; exact starts_byte (Header.stands_bool _)
    | number t =>
      rw [script]
      cases t <;> exact starts_number _ d
    | text => rw [script]; exact .of_flat fun bs => flat_text
    | bytes => rw [script]; exact starts_bin _
    | dynamic => rw [script]; exact d.asValue.starts_script con one
    | timestamp => rw [script]; exact .of_flat fun bs => flat_encodeExtension con one
    | clockTime => rw [script]; exact .of_flat fun bs => flat_encodeExtension con one
    | list elem => rw [script_list]; exact starts_sequence _ _ _
    | array n elem => rw [script_array]; exact starts_sequence _ _ _
    | tuple ts => rw [script_tuple]; exact starts_array _ _
    | map order kt vt => rw [script_map]; exact starts_map _ _
    | option t => exact (noOption t rfl).elim
    | box t => exact (noBox t rfl).elim
    | record id => exact (noRecord id rfl).elim

/-- **A claimed record that writes itself by hand starts as no container**, whatever kind it
declares.  Behind options it may be absent, and then nil is written. -/
theorem Datum.starts_of_not_declares (con : cx.registry.Consistent) (one : cx.registry.WritesOne)
    {t : Ty} (hidden : ¬ cx.DeclaresKind t) (d : Datum) : (d.script cx t).Starts false := by
  fun_induction Context.wireKind cx t d with
  | case1 t d x held ih =>
    rw [script_option, held]
    exact ih hidden
  | case2 t d absent =>
    rw [script_option, absent]
    exact starts_byte Header.stands_nil
  | case3 t d ih =>
    rw [script_box]
    exact ih hidden
  | case4 id d plain claimed =>
    exact starts_bound con one d (by rw [claimed]; rfl)
  | case5 id d plain free =>
    -- a record that goes by its fields declares the kind that it is written as
    refine absurd (fun id' same manual => ?_) hidden
    cases same
    rw [plain] at manual
    cases manual
  | case6 id d other =>
    refine starts_bound con one d ?_
    by_contra free
    rw [Bool.not_eq_true, Bool.or_eq_false_iff] at free
    refine hidden fun id' same manual => ?_
    cases same
    exact free.1
  | case7 t d noOption noBox noRecord =>
    -- no other type comes down to a record
    refine absurd (fun id same => ?_) hidden
    cases t with
    | option t => exact (noOption t rfl).elim
    | box t => exact (noBox t rfl).elim
    | record id => exact (noRecord id rfl).elim
    | _ => cases same

/-! ## 3. Both checks -/

/-- The reader's check of a key looks at the next byte alone, and leaves it in place. -/
theorem Read.checkKey_cons (position : Nat) (first : UInt8) (rest : List UInt8)
    (known : Trace) :
    checkKey ⟨position, first :: rest, known⟩ =
      (if (Header.ofByte first).isContainer then .error (.structuralKey first) else .ok (),
        ⟨position, first :: rest, known⟩) := by
  change (if (Header.ofByte first).isContainer then _ else _ : Read Unit) _ = _
  split <;> rfl

/-- The writer's check refuses a key before anything is put, in either pass. -/
theorem Script.run_key_refused {kind : Kind} (refused : kind.isContainer = true) (s : Script)
    (w : Writer) : (Script.key kind s).run w = (.error (.unwritable (.containerKey kind)), w) := by
  rw [Script.key, if_pos refused]
  rfl

namespace Codec

/-- **Writer and reader agree on what may be a mapping key.**  Whatever is put for a key that the
writer takes starts with no array and no map, so the reader's check lets it pass.  A key that the
writer refuses for its kind adds nothing, in either pass, and what the same datum puts as a plain
value, if it can be written at all, starts with an array or a map, so the reader would refuse it as
a key as well.  The writer refuses more than the reader in one case, that of a claimed record that
writes itself by hand: it would be an extension. -/
theorem keys_agree {c : Codec} (reachable : c.Reachable) (one : c.registry.WritesOne) (mode : Mode)
    (kt : Ty) (k : Datum) :
    let cx := c.context mode
    let kind := cx.wireKind kt k
    let plain := k.script cx kt
    (∀ bs, (Script.key kind plain).Puts bs → ∃ first rest, bs = first :: rest ∧
      (Header.ofByte first).isContainer = false ∧ ∀ position tail known,
        Read.checkKey ⟨position, bs ++ tail, known⟩ = (.ok (), ⟨position, bs ++ tail, known⟩)) ∧
    (kind.isContainer = true →
      (∀ w, (Script.key kind plain).run w = (.error (.unwritable (.containerKey kind)), w)) ∧
      (cx.DeclaresKind kt → ∀ bs, plain.Puts bs → ∃ first rest, bs = first :: rest ∧
        (Header.ofByte first).isContainer = true ∧ ∀ position tail known,
          Read.checkKey ⟨position, bs ++ tail, known⟩ =
            (.error (.structuralKey first), ⟨position, bs ++ tail, known⟩)) ∧
      (¬ cx.DeclaresKind kt → ∀ bs, plain.Puts bs → ∃ first rest, bs = first :: rest ∧
        (Header.ofByte first).isContainer = false)) := by
  intro cx kind plain
  have con : cx.registry.Consistent := reachable.consistent.registry
  have hand : ¬ cx.DeclaresKind kt → plain.Starts false := fun hidden =>
    Datum.starts_of_not_declares con one hidden k
  refine ⟨fun bs puts => ?_, fun refused => ⟨Script.run_key_refused refused plain,
    fun declares bs puts => ?_, hand⟩⟩
  · obtain ⟨taken, puts⟩ := Script.puts_key.1 puts
    have starts : plain.Starts false := by
      by_cases declares : cx.DeclaresKind kt
      · have asKind := Datum.starts_script con one declares k
        rwa [taken] at asKind
      · exact hand declares
    obtain ⟨first, rest, rfl, flat⟩ := starts bs puts
    refine ⟨first, rest, rfl, flat, fun position tail known => ?_⟩
    rw [List.cons_append, Read.checkKey_cons, flat]
    rfl
  · obtain ⟨first, rest, rfl, deep⟩ := Datum.starts_script con one declares k bs puts
    rw [refused] at deep
    refine ⟨first, rest, rfl, deep, fun position tail known => ?_⟩
    rw [List.cons_append, Read.checkKey_cons, deep]
    rfl

/-- A record of one number. -/
def oneNumber (name : String) : RecordDecl :=
  { name, fields := [{ name := "id", type := .number (.uint .w32) }] }

/-- Behind an option and a pointer, a record that a binding claims may be a key, and one of the same
shape that none claims may not. -/
theorem keys_agree_claimed :
    let c := ((fresh { records := [oneNumber "Opaque", oneNumber "Clear"] }).register
      (Gallery.claimed 0 5 false)).2
    let cx := c.context .named
    let kt := fun id => Ty.option (.box (.record id))
    let k : Datum := .present (.record [.int 7])
    let bs : List UInt8 := [0xd6, 5, 0, 0, 0, 7]
    c.Reachable ∧ c.registry.WritesOne ∧ (∀ id, cx.DeclaresKind (kt id)) ∧
      (Script.key (cx.wireKind (kt 0) k) (k.script cx (kt 0))).Puts bs ∧
      (∃ first rest, bs = first :: rest ∧ (Header.ofByte first).isContainer = false ∧
        ∀ position tail known, Read.checkKey ⟨position, bs ++ tail, known⟩ =
          (.ok (), ⟨position, bs ++ tail, known⟩)) ∧
      (∀ w, (Script.key (cx.wireKind (kt 1) k) (k.script cx (kt 1))).run w =
        (.error (.unwritable (.containerKey .record)), w)) ∧
      ∀ bs', (k.script cx (kt 1)).Puts bs' → ∃ first rest, bs' = first :: rest ∧
        (Header.ofByte first).isContainer = true ∧ ∀ position tail known,
          Read.checkKey ⟨position, bs' ++ tail, known⟩ =
            (.error (.structuralKey first), ⟨position, bs' ++ tail, known⟩) := by
  intro c cx kt k bs
  have reachable : c.Reachable := .step (.fresh _) (.register _)
  have one : c.registry.WritesOne :=
    writesOne_initial.register (b := Gallery.claimed 0 5 false) fun d bs puts => ⟨5, _, puts⟩
  have declares : ∀ id, cx.DeclaresKind (kt id) := by
    intro id id' _ manual
    rcases id' with _ | _ | id'
    · cases manual
    · cases manual
    · cases manual
  have puts : (Script.key (cx.wireKind (kt 0) k) (k.script cx (kt 0))).Puts bs := by
    refine Script.puts_key.2 ⟨rfl, ?_⟩
    rw [Datum.script_option]
    change ((Datum.record [.int 7]).script cx (.box (.record 0))).Puts bs
    rw [Datum.script_box, Datum.script_bound cx _ rfl]
    rfl
  obtain ⟨taken, -⟩ := keys_agree reachable one .named (kt 0) k
  obtain ⟨-, refused⟩ := keys_agree reachable one .named (kt 1) k
  obtain ⟨unwritten, deep, -⟩ := refused rfl
  exact ⟨reachable, one, declares, puts, taken bs puts, unwritten, deep (declares 1)⟩

end Codec

end MessagePack
