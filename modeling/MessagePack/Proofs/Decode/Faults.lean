import MessagePack.Proofs.Decode.Value
/-!
# The faults of reading dynamic values

Reading a dynamic value looks at a header before it calls the reader for it.  That reader then finds
the header it asks for, and the number behind it fits, so what can go wrong is settled by the input:
`Fault.OfInput` lists it.  Faults of destinations are not among it.

`Read.Ends Q c` says that a read from `c` gives a result of `Q` or such a fault.  Main statement:
`Value.ends_read`.
-/

namespace MessagePack

/-- What can be wrong with an input that is read as a dynamic value, if extensions of one tag alone
have a binding. -/
inductive Fault.OfInput : Fault → Prop
  | unused : OfInput (.format 0xc1 .dynamic)
  | truncated (needed remaining : Nat) : OfInput (.truncated needed remaining)
  | structuralKey {b : UInt8} (container : (Header.ofByte b).isContainer = true) :
      OfInput (.structuralKey b)
  | invalidUtf8 (offset : Nat) : OfInput (.invalidUtf8 offset)
  | tooDeep : OfInput (.tooDeep maxDepth)
  | timestamp (reason : String) : OfInput (.extension Binding.timestampTag reason)
  | trailing (remaining : Nat) : OfInput (.trailing remaining)

namespace Read

variable {α β : Type} {r : Read α} {next : α → Read β} {Q : α → Prop} {R : β → Prop}
  {c : Cursor} {b : UInt8} {rest : List UInt8} {h : Header} {kind : Kind} {n : Nat} {w : Width}

/-! ## 1. Laws -/

/-- The read gives a result of `Q` or a fault of the input. -/
def Ends (r : Read α) (Q : α → Prop) (c : Cursor) : Prop :=
  match r c with
  | (.ok a, _) => Q a
  | (.error f, _) => f.OfInput

/-- What is given holds what it holds. -/
theorem ends_pure {a : α} (holds : Q a) : (Read.pure a).Ends Q c := holds

theorem ends_return {a : α} (holds : Q a) : (Pure.pure a : Read α).Ends Q c := holds

/-- A result that is taken over ends as it is. -/
theorem ends_ofExcept {x : Except Fault α} (ofInput : ∀ {f}, x = .error f → f.OfInput) :
    (ofExcept x).Ends (fun _ => True) c := by
  cases x with
  | error f => exact ofInput rfl
  | ok a => trivial

/-- Reads in a row end where the first does not, or the second does not. -/
theorem Ends.bind (hr : r.Ends Q c) (hn : ∀ a c, Q a → (next a).Ends R c) :
    (r >>= next).Ends R c := by
  unfold Ends at hr ⊢
  rw [run_bind]
  rcases e : r c with ⟨f | a, d⟩
  · rw [e] at hr
    exact hr
  · rw [e] at hr
    exact hn a d hr

/-- Counting a level is not what a fault comes from. -/
theorem Ends.nested (hr : r.Ends Q (c.retrace .down)) : r.nested.Ends Q c := by
  unfold Ends at hr ⊢
  unfold Read.nested
  rcases e : r (c.retrace .down) with ⟨f | a, d⟩ <;> rw [e] at hr <;> exact hr

/-! ## 2. Bytes and headers -/

theorem ends_takeByte : takeByte.Ends (fun _ => True) c := by
  unfold Ends takeByte
  cases c.rest with
  | nil => exact .truncated 1 0
  | cons => trivial

/-- Bytes are missing, or as many as were asked for. -/
theorem ends_takeMany : (takeMany n).Ends (·.length = n) c := by
  unfold Ends takeMany
  dsimp only
  by_cases enough : (c.rest.take n).length = n
  · rw [if_pos enough]
    exact enough
  · rw [if_neg enough]
    exact .truncated _ _

theorem ends_takeUnsigned :
    (takeUnsigned w).Ends (fun n => ∃ bs : List UInt8, bs.length = w.bytes ∧ n = ofBigEndian bs)
      c :=
  ends_takeMany.bind fun bs _ length => ends_return ⟨bs, length, rfl⟩

/-- Looking at the next header settles it for what comes next. -/
theorem ends_peekHeader {next : UInt8 × Header → Read β}
    (each : ∀ b rest, c.rest = b :: rest → (next (b, Header.ofByte b)).Ends R c) :
    (peekHeader >>= next).Ends R c := by
  obtain ⟨position, unread, seen⟩ := c
  cases unread with
  | nil => exact Fault.OfInput.truncated 1 0
  | cons b rest => exact each b rest rfl

/-- The header that is taken is the one that was looked at. -/
theorem ends_takeHeader {next : UInt8 × Header → Read β} (known : c.rest = b :: rest)
    (then' : ∀ c, (next (b, Header.ofByte b)).Ends R c) : (takeHeader >>= next).Ends R c := by
  obtain ⟨position, unread, seen⟩ := c
  obtain rfl : unread = b :: rest := known
  exact then' _

/-! ## 3. Behind a header that was looked at -/

section

variable (known : c.rest = b :: rest)
include known

/-- Under a number's header there is the number that it spells. -/
theorem ends_number (header : (Header.ofByte b).isNumber = true) :
    (number kind).Ends (fun m => ∃ body, (Header.ofByte b).Spells body m) c := by
  unfold number
  refine ends_takeHeader known fun c => ?_
  generalize Header.ofByte b = h at header
  cases h with
  | posFix v => exact ends_return ⟨[], .posFix v⟩
  | negFix k => exact ends_return ⟨[], .negFix k⟩
  | uint w =>
    refine ends_takeUnsigned.bind ?_
    rintro _ c ⟨body, width, rfl⟩
    exact ends_return ⟨body, .uint width⟩
  | int w =>
    refine (Ends.bind ends_takeUnsigned (R := fun i => ∃ bs : List UInt8, bs.length = w.bytes ∧
      i = (ofBigEndian bs : Int).bmod w.span) ?_).bind ?_
    · rintro _ c ⟨body, width, rfl⟩
      exact ends_return ⟨body, width, rfl⟩
    · rintro _ c ⟨body, width, rfl⟩
      exact ends_return ⟨body, .int width⟩
  | single =>
    refine ends_takeUnsigned.bind ?_
    rintro _ c ⟨body, width, rfl⟩
    exact ends_return ⟨body, .single width⟩
  | double =>
    refine ends_takeUnsigned.bind ?_
    rintro _ c ⟨body, width, rfl⟩
    exact ends_return ⟨body, .double width⟩
  | _ => cases header

/-- Where what the header spells fits, a number is narrowed. -/
theorem ends_narrowed {t : NumType} {kind' : Kind} {g : Narrowed → α}
    (header : (Header.ofByte b).isNumber = true)
    (fits : ∀ {body m}, (Header.ofByte b).Spells body m → (m.narrow? t).isSome = true) :
    (number kind >>= fun m => narrow t kind' m >>= fun x => Pure.pure (g x)).Ends
      (fun _ => True) c := by
  refine (ends_number known header).bind ?_
  rintro m c ⟨body, spells⟩
  obtain ⟨x, narrowed⟩ := Option.isSome_iff_exists.1 (fits spells)
  unfold narrow
  rw [narrowed]
  exact trivial

/-- Under the header of a text or a binary there are bytes. -/
theorem ends_raw (header : (Header.ofByte b).isText = true ∨ (Header.ofByte b).isBin = true) :
    (raw kind).Ends (fun _ => True) c := by
  unfold raw
  refine ends_takeHeader known fun c => ?_
  generalize Header.ofByte b = h at header
  cases h with
  | fixText n => exact ends_takeMany.bind fun _ _ _ => trivial
  | text w | bin w =>
    exact ends_takeUnsigned.bind fun n c _ => ends_takeMany.bind fun _ _ _ => trivial
  | _ => rcases header with header | header <;> cases header

/-- Those of a text may be invalid. -/
theorem ends_text (header : (Header.ofByte b).isText = true) :
    text.Ends (fun _ => True) c := by
  have loaded : (raw .text).Ends (fun _ => True) c := ends_raw known (.inl header)
  unfold Ends at loaded ⊢
  unfold text
  split at loaded
  · rename_i bytes d e
    rw [e]
    cases bytes with
    | none => trivial
    | some payload =>
      dsimp only
      -- only here can a text be refused for what it holds
      cases textOfUtf8? payload with
      | none => exact .invalidUtf8 _
      | some s => trivial
  · rename_i f d e
    rw [e]
    exact loaded

theorem ends_arrayLength (header : (Header.ofByte b).isArray = true) :
    (arrayLength kind).Ends (fun _ => True) c := by
  unfold arrayLength
  refine ends_takeHeader known fun c => ?_
  generalize Header.ofByte b = h at header
  cases h with
  | fixArray n => trivial
  | array w => exact ends_takeUnsigned.bind fun _ _ _ => trivial
  | _ => cases header

theorem ends_mapLength (header : (Header.ofByte b).isMap = true) :
    (mapLength kind).Ends (fun _ => True) c := by
  unfold mapLength
  refine ends_takeHeader known fun c => ?_
  generalize Header.ofByte b = h at header
  cases h with
  | fixMap n => trivial
  | map w => exact ends_takeUnsigned.bind fun _ _ _ => trivial
  | _ => cases header

end

theorem ends_extBody (header : h.isExt = true) : (extBody kind b h).Ends (fun _ => True) c := by
  have tagged : ∀ (n : Nat) (c : Cursor), (do let t ← takeByte; let p ← takeMany n
                                              return (t.toInt8, p)
      : Read (Int8 × List UInt8)).Ends (fun _ => True) c := fun n c =>
    ends_takeByte.bind fun t c _ => ends_takeMany.bind fun p c _ => trivial
  unfold extBody
  cases h with
  | fixExt p => exact (ends_pure (Q := fun _ => True) trivial).bind fun n c _ => tagged n c
  | ext w => exact ends_takeUnsigned.bind fun n c _ => tagged n c
  | _ => cases header

theorem ends_checkKey : checkKey.Ends (fun _ => True) c := by
  unfold checkKey
  refine ends_peekHeader fun b rest _ => ?_
  dsimp only
  split
  · rename_i container
    exact .structuralKey container
  · trivial

/-- Any number of times. -/
theorem ends_repeated (each : ∀ c, r.Ends (fun _ => True) c) (n : Nat) (done : List α) :
    (repeated r n done).Ends (fun _ => True) c := by
  induction n generalizing done c with
  | zero => trivial
  | succ n ih =>
    have later : ∀ a c, True → (repeated r n (a :: done)).Ends (fun _ => True) c :=
      fun a c _ => ih (a :: done)
    have whole := (each c).bind later
    exact whole

end Read

namespace Value

open Read

variable {registry : Registry} {deeper : Option (Read Value)} {c : Cursor}

/-! ## 4. Dynamic values -/

theorem ends_readEntry {r : Read Value} (each : ∀ c, r.Ends (fun _ => True) c) :
    (readEntry r).Ends (fun _ => True) c :=
  ends_checkKey.bind fun _ c _ => (each c).bind fun _ c _ => (each c).bind fun _ _ _ => trivial

theorem ends_descend {α : Type} {next : Read Value → Read α}
    (each : ∀ r, deeper = some r → ∀ c, (next r).Ends (fun _ => True) c) :
    (descend deeper next).Ends (fun _ => True) c := by
  cases deeper with
  | none => exact .tooDeep
  | some r => exact (each r rfl _).nested

/-- **A value is read or the input is at fault**, if so it is where a binding refuses a payload. -/
theorem ends_readStep
    (refused : ∀ {tag payload f}, ofExt registry tag payload = .error f → f.OfInput)
    (below : ∀ r, deeper = some r → ∀ c, r.Ends (fun _ => True) c) :
    (readStep registry deeper).Ends (fun _ => True) c := by
  unfold readStep
  refine ends_peekHeader fun b rest known => ?_
  dsimp only
  generalize e : Header.ofByte b = h
  cases h with
  | nil | bool => exact ends_takeHeader known fun _ => trivial
  -- an unsigned number fits the widest unsigned type, so no range is left to miss
  | posFix | uint =>
    refine ends_narrowed known (by rw [e]; rfl) fun spells => ?_
    rw [e] at spells
    cases spells
    rw [Number.narrow?_uint]
    rfl
  | negFix | int =>
    refine ends_narrowed known (by rw [e]; rfl) fun spells => ?_
    rw [e] at spells
    cases spells
    rw [Number.narrow?_int]
    rfl
  | single | double => exact ends_narrowed known (by rw [e]; rfl) fun _ => rfl
  | fixText | text => exact (ends_text known (by rw [e]; rfl)).bind fun _ _ _ => trivial
  | bin => exact (ends_raw known (.inr (by rw [e]; rfl))).bind fun _ _ _ => trivial
  | fixArray | array =>
    refine (ends_arrayLength known (by rw [e]; rfl)).bind fun n c _ => ?_
    refine (ends_descend fun r hr c => ?_).bind fun _ _ _ => trivial
    exact ends_repeated (below r hr) _ _
  | fixMap | map =>
    refine (ends_mapLength known (by rw [e]; rfl)).bind fun n c _ => ?_
    refine (ends_descend fun r hr c => ?_).bind fun _ _ _ => trivial
    exact ends_repeated (fun c => ends_readEntry (below r hr)) _ _
  | fixExt | ext =>
    refine ends_takeHeader known fun c => ?_
    refine (ends_extBody rfl).bind ?_
    rintro ⟨tag, payload⟩ c -
    simp only [forTag?_ofExt]
    exact ends_ofExcept refused
  | unused =>
    obtain rfl : b = Header.unused.toByte := by rw [← e, Header.toByte_ofByte]
    exact .unused

/-- On every level, then. -/
theorem ends_read (refused : ∀ {tag payload f}, ofExt registry tag payload = .error f → f.OfInput)
    (n : Nat) (c : Cursor) : (read registry n).Ends (fun _ => True) c := by
  induction n generalizing c with
  | zero => exact ends_readStep refused nofun
  | succ n ih =>
    refine ends_readStep refused fun r hr => ?_
    cases hr
    exact ih

end Value

end MessagePack
