import MessagePack.Proofs.Decode.Parse
import MessagePack.Proofs.Wire.Announce
import MessagePack.Proofs.Wire.Number
/-!
# Single reads

What each read of one value without parts takes, and that it takes nothing but such values; the same
for the headers of arrays and maps.

Main statements: `Read.takes_number` and its siblings, `Read.sound_number` and its siblings.
-/

namespace MessagePack.Read

open Parse Header

variable {α : Type} {h : Header} {body payload : List UInt8} (kind : Kind) {n : Nat}

/-! ## 1. What is taken -/

theorem takes_bool (b : Bool) : bool.parse.Takes [(Header.bool b).toByte] b := by
  unfold bool
  rw [parse_bind]
  exact takes_header (stands_bool b) (takes_pure b)

/-- A number is taken under whichever header spells it. -/
theorem takes_number {x : Number} (spells : h.Spells body x) :
    (number kind).parse.Takes (h.toByte :: body) x := by
  unfold number
  rw [parse_bind]
  refine takes_header spells.stands ?_
  cases spells with
  | posFix v => exact takes_pure _
  | negFix k => exact takes_pure _
  | uint width =>
    simp only [parse_bind, parse_pure]
    exact (takes_takeUnsigned width).map
  | int width =>
    simp only [parse_bind, parse_pure, takeSigned]
    exact ((takes_takeUnsigned width).map (g := fun n : Nat => (n : Int).bmod _)).map
  | single width =>
    simp only [parse_bind, parse_pure]
    exact (takes_takeUnsigned (w := .w32) width).map
  | double width =>
    simp only [parse_bind, parse_pure]
    exact (takes_takeUnsigned (w := .w64) width).map

/-- A text's or a binary's payload is taken as it stands. -/
theorem takes_raw (stands : h.Stands) (holds : h.Holds body payload) :
    (raw kind).parse.Takes (h.toByte :: body) (some payload) := by
  unfold raw
  rw [parse_bind]
  refine takes_header stands ?_
  cases holds with
  | fixText length =>
    simp only [parse_bind, parse_pure, ← length]
    exact (takes_takeMany _).map
  | text width length | bin width length =>
    simp only [parse_bind, parse_pure]
    refine (takes_takeUnsigned width).bind ?_
    rw [← length]
    exact (takes_takeMany payload).map

/-- How a text is read: as a payload that must be UTF-8. -/
theorem parse_text :
    text.parse = (raw .text).parse >>= fun bytes =>
      match bytes with
      | none => Pure.pure ""
      | some bytes =>
        match textOfUtf8? bytes with
        | some s => Pure.pure s
        | none => failure := by
  funext c
  change parse text c = ((raw .text).parse c).bind _
  unfold parse text
  cases raw .text c with
  | mk outcome c' =>
    cases outcome with
    | error f => rfl
    | ok bytes =>
      cases bytes with
      | none => rfl
      | some bytes =>
        simp only [Option.bind_some]
        cases textOfUtf8? bytes <;> rfl

/-- If it is valid, as a text. -/
theorem takes_text {s : String} (stands : h.Stands) (holds : h.Holds body payload)
    (valid : textOfUtf8? payload = some s) : text.parse.Takes (h.toByte :: body) s := by
  rw [parse_text, ← List.append_nil (h.toByte :: body)]
  refine (takes_raw .text stands holds).bind ?_
  simp only [valid]
  exact takes_pure s

/-- An array's header gives how many elements follow. -/
theorem takes_arrayLength (stands : h.Stands) (array : h.isArray = true) (own : h.Owes body n) :
    (arrayLength kind).parse.Takes (h.toByte :: body) (some n) := by
  unfold arrayLength
  rw [parse_bind]
  refine takes_header stands ?_
  cases h with
  | fixArray k =>
    obtain ⟨rfl, rfl⟩ := own
    exact takes_pure _
  | array w =>
    obtain ⟨width, rfl⟩ := own
    simp only [parse_bind, parse_pure]
    exact (takes_takeUnsigned width).map
  | _ => cases array

/-- A map's header gives how many entries follow, each of two values. -/
theorem takes_mapLength (stands : h.Stands) (map : h.isMap = true) (own : h.Owes body (2 * n)) :
    (mapLength kind).parse.Takes (h.toByte :: body) (some n) := by
  unfold mapLength
  rw [parse_bind]
  refine takes_header stands ?_
  cases h with
  | fixMap k =>
    obtain ⟨rfl, twice⟩ := own
    obtain rfl : n = k := by omega
    exact takes_pure _
  | map w =>
    obtain ⟨width, twice⟩ := own
    obtain rfl : n = ofBigEndian body := by omega
    simp only [parse_bind, parse_pure]
    exact (takes_takeUnsigned width).map
  | _ => cases map

/-- An extension is not read as a text. -/
theorem refuses_text {b : UInt8} (ext : (ofByte b).isExt = true) (body : List UInt8) :
    text.parse.Refuses (b :: body) := by
  have refuses : (raw .text).parse.Refuses (b :: body) := by
    unfold raw
    rw [parse_bind]
    refine refuses_header ?_ body
    cases h : ofByte b <;> rw [h] at ext <;> first | rfl | cases ext
  rw [parse_text, ← List.append_nil (b :: body)]
  exact refuses.bind _ []

/-- An extension is not read as the header of a map. -/
theorem refuses_mapLength {b : UInt8} (ext : (ofByte b).isExt = true) (body : List UInt8) :
    (mapLength kind).parse.Refuses (b :: body) := by
  unfold mapLength
  rw [parse_bind]
  refine refuses_header ?_ body
  cases h : ofByte b <;> rw [h] at ext <;> first | rfl | cases ext

/-- What follows the header of an extension is its tag and its payload. -/
theorem takes_extBody {tag : Int8} (holds : h.HoldsExt body tag payload) (b : UInt8) :
    (extBody kind b h).parse.Takes body (tag, payload) := by
  have tagged : (do let t ← takeByte; let p ← takeMany payload.length; return (t.toInt8, p)
      : Read (Int8 × List UInt8)).parse.Takes (tag.toUInt8 :: payload) (tag, payload) := by
    simp only [parse_bind, parse_pure]
    refine Takes.bind (u := [tag.toUInt8]) (takes_takeByte _) ?_
    exact (takes_takeMany payload).map (g := fun p => (tag, p))
  unfold extBody
  cases holds with
  | fixExt length =>
    rw [parse_bind]
    refine Takes.bind_nil (takes_pure _) ?_
    rwa [← length]
  | ext width length =>
    rw [parse_bind]
    refine (takes_takeUnsigned width).bind ?_
    rwa [← length]

/-- So an extension is taken with both. -/
theorem takes_ext {tag : Int8} (stands : h.Stands) (holds : h.HoldsExt body tag payload) :
    (ext kind).parse.Takes (h.toByte :: body) (some (tag, payload)) := by
  unfold ext
  rw [parse_bind]
  refine takes_header stands ?_
  have inner := (takes_extBody kind holds h.toByte).map (g := some)
  cases holds with
  | fixExt => simpa only [parse_bind, parse_pure] using inner
  | ext => simpa only [parse_bind, parse_pure] using inner

/-! ## 2. Nothing else is taken -/

/-- A header first, and then what belongs to it alone. -/
theorem sound_flat {next : UInt8 × Header → Read α}
    (each : ∀ b h, (next (b, h)).parse.Sound fun v _ => h.isContainer = false ∧ h.Owes v 0) :
    (takeHeader >>= next).parse.Sound fun u _ => Flat u := by
  rw [parse_bind]
  exact sound_header fun b => each b (ofByte b)

/-- What is read as a truth value has no parts. -/
theorem sound_bool : bool.parse.Sound fun u _ => Flat u := by
  refine sound_flat ?_
  intro b h
  cases h with
  | bool | nil => exact sound_pure ⟨rfl, rfl, rfl⟩
  | _ => exact sound_failure

/-- Nor has a number. -/
theorem sound_number : (number kind).parse.Sound fun u _ => Flat u := by
  refine sound_flat ?_
  intro b h
  cases h with
  | posFix | negFix | nil => exact sound_pure ⟨rfl, rfl, rfl⟩
  | uint w =>
    simp only [parse_bind, parse_pure]
    exact (sound_takeUnsigned w).map fun u n h => ⟨rfl, h.1, rfl⟩
  | int w =>
    simp only [parse_bind, parse_pure]
    exact (sound_takeSigned w).map fun u n h => ⟨rfl, h, rfl⟩
  | single =>
    simp only [parse_bind, parse_pure]
    exact (sound_takeUnsigned .w32).map fun u n h => ⟨rfl, h.1, rfl⟩
  | double =>
    simp only [parse_bind, parse_pure]
    exact (sound_takeUnsigned .w64).map fun u n h => ⟨rfl, h.1, rfl⟩
  | _ => exact sound_failure

/-- A number and its narrowing, which consumes nothing. -/
theorem sound_narrowed (kind' : Kind) (t : NumType) {g : Narrowed → α} :
    ((number kind).parse >>= fun m => (narrow t kind' m).parse >>= fun x =>
      Pure.pure (g x)).Sound fun u _ => Flat u := by
  have narrowing : ∀ m : Number, ((narrow t kind' m).parse >>= fun x => Pure.pure (g x)).Sound
      fun u _ => u = [] := by
    intro m
    unfold narrow
    cases m.narrow? t with
    | none => exact sound_failure
    | some x => exact sound_pure rfl
  refine ((sound_number kind).bind narrowing).mono ?_
  rintro u v ⟨front, back, m, rfl, flat, rfl⟩
  rwa [List.append_nil]

/-- A length, then as many bytes and `extra` ones. -/
theorem sound_sized (w : Width) (extra : Nat) :
    ((takeUnsigned w).parse >>= fun n => (takeMany (extra + n)).parse).Sound fun u bs =>
      ∃ size, u = size ++ bs ∧ size.length = w.bytes ∧ bs.length = extra + ofBigEndian size := by
  refine ((sound_takeUnsigned w).bind fun n => sound_takeMany (extra + n)).mono ?_
  rintro u bs ⟨size, rest, n, rfl, ⟨width, rfl⟩, rfl, length⟩
  exact ⟨size, rfl, width, length⟩

/-- A nil, or the header of a text or of bytes with its payload. -/
def Loads (u : List UInt8) : Option (List UInt8) → Prop
  | none => u = [Header.nil.toByte]
  | some payload => ∃ b body, u = b :: body ∧ (ofByte b).Holds body payload

/-- A payload may hold any bytes, but no values. -/
theorem Loads.flat {u : List UInt8} {bytes : Option (List UInt8)} (loads : Loads u bytes) :
    Flat u := by
  cases bytes with
  | none =>
    obtain rfl : u = [Header.nil.toByte] := loads
    exact .nil
  | some payload =>
    obtain ⟨b, body, rfl, holds⟩ := loads
    exact ⟨b, body, rfl, holds.flat, holds.owes⟩

/-- What is read as bytes is a nil, or the payload of a text or of a binary. -/
theorem loads_raw : (raw kind).parse.Sound Loads := by
  unfold raw
  rw [parse_bind]
  refine (sound_header (Q := fun b v bytes =>
    match bytes with
    | none => ofByte b = .nil ∧ v = []
    | some payload => (ofByte b).Holds v payload) fun b => ?_).mono ?_
  · generalize ofByte b = h
    cases h with
    | nil => exact sound_pure ⟨rfl, rfl⟩
    | fixText n =>
      simp only [parse_bind, parse_pure]
      refine (sound_takeMany n).map ?_
      rintro u bs ⟨rfl, length⟩
      exact .fixText length
    -- the size stands before the payload, in as many bytes as the header says
    | text w | bin w =>
      simp only [parse_bind, parse_pure, ← bind_assoc]
      have sized := sound_sized w 0
      simp only [Nat.zero_add] at sized
      refine sized.map ?_
      rintro u payload ⟨size, rfl, width, length⟩
      constructor
      · exact width
      · exact length
    | _ => exact sound_failure
  · rintro u bytes ⟨b, v, rfl, holds⟩
    cases bytes with
    | none =>
      obtain ⟨nil, rfl⟩ := holds
      rw [Loads, ← nil, toByte_ofByte]
    | some payload => exact ⟨b, v, rfl, holds⟩

/-- It has no parts. -/
theorem sound_raw : (raw kind).parse.Sound fun u _ => Flat u :=
  (loads_raw kind).mono fun _ _ loads => loads.flat

/-- What is read as a text is nil or the bytes of that text. -/
theorem loads_text : text.parse.Sound fun u s =>
    ∃ bytes, Loads u bytes ∧ (bytes.getD []) = utf8Bytes s := by
  rw [parse_text]
  refine ((loads_raw .text).bind (Q := fun bytes w s => w = [] ∧ bytes.getD [] = utf8Bytes s)
    fun bytes => ?_).mono ?_
  · cases bytes with
    | none => exact sound_pure ⟨rfl, rfl⟩
    | some payload =>
      dsimp only
      split
      · rename_i s valid
        exact sound_pure ⟨rfl, (utf8Bytes_of_textOfUtf8? valid).symm⟩
      · exact sound_failure
  · rintro u s ⟨v, w, bytes, rfl, loads, rfl, same⟩
    rw [List.append_nil]
    exact ⟨bytes, loads, same⟩

/-- And neither has a text. -/
theorem sound_text : text.parse.Sound fun u _ => Flat u := by
  refine loads_text.mono ?_
  rintro u s ⟨bytes, loads, -⟩
  exact loads.flat

/-- What is read behind the header of an extension is a tag and a payload. -/
theorem sound_extBody (b : UInt8) (h : Header) :
    (extBody kind b h).parse.Sound fun u e => h.HoldsExt u e.1 e.2 := by
  have tagged : ∀ n : Nat, (do let t ← takeByte; let p ← takeMany n; return (t.toInt8, p)
      : Read (Int8 × List UInt8)).parse.Sound fun u e =>
        u = e.1.toUInt8 :: e.2 ∧ e.2.length = n := by
    intro n
    simp only [parse_bind, parse_pure]
    have counted : ∀ t : UInt8, ((takeMany n).parse >>= fun p => Pure.pure (t.toInt8, p)).Sound
        fun u e => e.1 = t.toInt8 ∧ u = e.2 ∧ u.length = n := by
      intro t
      refine (sound_takeMany n).map ?_
      rintro u bs ⟨rfl, length⟩
      exact ⟨rfl, rfl, length⟩
    refine (sound_takeByte.bind counted).mono ?_
    rintro u ⟨tag, payload⟩ ⟨v, w, t, rfl, rfl, rfl, rfl, length⟩
    exact ⟨rfl, length⟩
  unfold extBody
  cases h with
  | fixExt p =>
    rw [parse_bind]
    refine (tagged (extLength p)).mono ?_
    rintro u ⟨tag, payload⟩ ⟨rfl, length⟩
    exact .fixExt length
  | ext w =>
    rw [parse_bind]
    refine ((sound_takeUnsigned w).bind fun n => tagged n).mono ?_
    rintro u ⟨tag, payload⟩ ⟨size, rest, n, rfl, ⟨width, rfl⟩, rfl, length⟩
    exact .ext width length
  | _ => exact sound_failure

/-- A nil or an extension: neither has parts. -/
theorem sound_ext : (ext kind).parse.Sound fun u _ => Flat u := by
  refine sound_flat ?_
  intro b h
  cases h with
  | nil => exact sound_pure ⟨rfl, rfl, rfl⟩
  | _ =>
    simp only [parse_bind, parse_pure]
    exact (sound_extBody kind b _).map fun u e holds => ⟨holds.flat, holds.owes⟩

/-- What is read as an extension is nil or holds this tag and payload. -/
theorem holds_ext : (ext kind).parse.Sound fun u e =>
    ∀ tag payload, e = some (tag, payload) →
      ∃ b v, u = b :: v ∧ (ofByte b).HoldsExt v tag payload := by
  unfold ext
  rw [parse_bind]
  refine (sound_header (Q := fun b v e => ∀ tag payload, e = some (tag, payload) →
    (ofByte b).HoldsExt v tag payload) fun b => ?_).mono ?_
  · dsimp only
    cases ofByte b with
    | nil =>
      refine sound_pure fun tag payload none' => ?_
      cases none'
    | _ =>
      simp only [parse_bind, parse_pure]
      refine (sound_extBody kind b _).map ?_
      rintro u _ holds tag payload ⟨⟩
      exact holds
  · rintro u e ⟨b, v, rfl, holds⟩ tag payload found
    exact ⟨b, v, rfl, holds tag payload found⟩

/-! ## 3. Headers of arrays and maps -/

/-- Nil, or the header of an array or a map that owes `each` values for every item. -/
def Opens (each : Nat) (u : List UInt8) : Option Nat → Prop
  | none => u = [Header.nil.toByte]
  | some n => ∃ b body, u = b :: body ∧ (ofByte b).isContainer = true ∧
      (ofByte b).Owes body (each * n)

/-- What reads a header and a length opens a container. -/
theorem opens_header {each : Nat} {next : UInt8 × Header → Read (Option Nat)}
    (each' : ∀ b h, (next (b, h)).parse.Sound fun v length =>
      match length with
      | none => h = .nil ∧ v = []
      | some n => h.isContainer = true ∧ h.Owes v (each * n)) :
    (takeHeader >>= next).parse.Sound (Opens each) := by
  rw [parse_bind]
  refine (sound_header fun b => each' b (ofByte b)).mono ?_
  rintro u length ⟨b, v, rfl, holds⟩
  cases length with
  | none =>
    obtain ⟨nil, rfl⟩ := holds
    rw [Opens, ← nil, toByte_ofByte]
  | some n => exact ⟨b, v, rfl, holds⟩

/-- An array's length opens that many values. -/
theorem sound_arrayLength : (arrayLength kind).parse.Sound (Opens 1) := by
  refine opens_header ?_
  intro b h
  cases h with
  | nil => exact sound_pure ⟨rfl, rfl⟩
  | fixArray n => exact sound_pure ⟨rfl, rfl, Nat.one_mul _⟩
  | array w =>
    simp only [parse_bind, parse_pure]
    refine (sound_takeUnsigned w).map ?_
    rintro u n ⟨width, rfl⟩
    exact ⟨rfl, width, Nat.one_mul _⟩
  | _ => exact sound_failure

/-- A map's length opens twice as many. -/
theorem sound_mapLength : (mapLength kind).parse.Sound (Opens 2) := by
  refine opens_header ?_
  intro b h
  cases h with
  | nil => exact sound_pure ⟨rfl, rfl⟩
  | fixMap n => exact sound_pure ⟨rfl, rfl, rfl⟩
  | map w =>
    simp only [parse_bind, parse_pure]
    refine (sound_takeUnsigned w).map ?_
    rintro u n ⟨width, rfl⟩
    exact ⟨rfl, width, rfl⟩
  | _ => exact sound_failure

end MessagePack.Read
