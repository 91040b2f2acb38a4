import MessagePack.Proofs.Wire.Header
/-!
# Announced lengths

The header that `Family.header?` picks, with the length behind it, announces what was asked for: so
many items or entries, or a payload of so many bytes.

Main statements: one lemma for each family, `Family.array_announces` and so on.
-/

namespace MessagePack

namespace Header

/-- Headers of arrays. -/
def isArray : Header → Bool
  | .fixArray _ | .array _ => true
  | _ => false

/-- Headers of maps. -/
def isMap : Header → Bool
  | .fixMap _ | .map _ => true
  | _ => false

/-- Headers of bytes. -/
def isBin : Header → Bool
  | .bin _ => true
  | _ => false

/-- Headers of numbers. -/
def isNumber : Header → Bool
  | .posFix _ | .negFix _ | .uint _ | .int _ | .single | .double => true
  | _ => false

/-- An array is a container, -/
theorem isContainer_of_isArray {h : Header} (array : h.isArray = true) : h.isContainer = true := by
  cases h <;> first | rfl | cases array

/-- and so is a map. -/
theorem isContainer_of_isMap {h : Header} (map : h.isMap = true) : h.isContainer = true := by
  cases h <;> first | rfl | cases map

/-- Arrays and maps are the containers. -/
theorem isArray_or_isMap {h : Header} (deep : h.isContainer = true) :
    h.isArray = true ∨ h.isMap = true := by
  cases h <;> first | exact .inl rfl | exact .inr rfl | cases deep

theorem isExt_of_isText {h : Header} (text : h.isText = true) : h.isExt = false := by
  cases h <;> first | rfl | cases text

theorem isText_of_isContainer {h : Header} (deep : h.isContainer = true) : h.isText = false := by
  cases h <;> first | rfl | cases deep

theorem isExt_of_isContainer {h : Header} (deep : h.isContainer = true) : h.isExt = false := by
  cases h <;> first | rfl | cases deep

/-- A map owes a value for each key. -/
theorem Owes.even {h : Header} {body : List UInt8} {owed : Nat} (own : h.Owes body owed)
    (map : h.isMap = true) : ∃ n, owed = 2 * n := by
  cases h with
  | fixMap | map => exact ⟨_, own.2⟩
  | _ => cases map

/-- A header of a text or of bytes announces this payload, which stands at the end of `body`. -/
inductive Holds : Header → List UInt8 → List UInt8 → Prop
  | fixText {n : Fin 32} {payload : List UInt8} (length : payload.length = n) :
      Holds (.fixText n) payload payload
  | text {w : Width} {size payload : List UInt8} (width : size.length = w.bytes)
      (length : payload.length = ofBigEndian size) : Holds (.text w) (size ++ payload) payload
  | bin {w : Width} {size payload : List UInt8} (width : size.length = w.bytes)
      (length : payload.length = ofBigEndian size) : Holds (.bin w) (size ++ payload) payload

/-- A header of an extension announces this tag and payload. -/
inductive HoldsExt : Header → List UInt8 → Int8 → List UInt8 → Prop
  | fixExt {p : Fin 5} {payload : List UInt8} {tag : Int8} (length : payload.length = extLength p) :
      HoldsExt (.fixExt p) (tag.toUInt8 :: payload) tag payload
  | ext {w : Width} {size payload : List UInt8} {tag : Int8} (width : size.length = w.bytes)
      (length : payload.length = ofBigEndian size) :
      HoldsExt (.ext w) (size ++ tag.toUInt8 :: payload) tag payload

variable {h : Header} {body payload : List UInt8} {tag : Int8}

/-- A header that holds a payload owes no value. -/
theorem Holds.owes (holds : h.Holds body payload) : h.Owes body 0 := by
  cases holds with
  | fixText length => exact ⟨length, rfl⟩
  | text width length | bin width length => exact ⟨_, _, rfl, width, length, rfl⟩

/-- A short text is as long as its header says. -/
theorem Holds.length_fixText {n : Fin 32} (holds : (Header.fixText n).Holds body payload) :
    payload.length = n := by
  cases holds with
  | fixText length => exact length

theorem Holds.flat (holds : h.Holds body payload) : h.isContainer = false := by
  cases holds <;> rfl

/-- Nor does one that holds an extension. -/
theorem HoldsExt.owes (holds : h.HoldsExt body tag payload) : h.Owes body 0 := by
  cases holds with
  | fixExt length => exact ⟨by rw [List.length_cons, length, Nat.add_comm], rfl⟩
  | ext width length =>
    exact ⟨_, _, rfl, width, by rw [List.length_cons, length, Nat.add_comm], rfl⟩

theorem HoldsExt.flat (holds : h.HoldsExt body tag payload) : h.isContainer = false := by
  cases holds <;> rfl

theorem HoldsExt.isExt (holds : h.HoldsExt body tag payload) : h.isExt = true := by
  cases holds <;> rfl

end Header

namespace Family

open Header

variable {n : Nat} {h : Header} {body payload : List UInt8}

/-- An array's header announces its elements, -/
theorem array_announces (e : Family.array.header? n = some (h, body)) :
    h.isArray = true ∧ h.Owes body n := by
  rcases header?_cases e with ⟨fixed, rfl⟩ | ⟨w, -, rfl, rfl, lt⟩
  · obtain ⟨_, rfl⟩ := fix?_array fixed
    exact ⟨rfl, rfl, rfl⟩
  · exact ⟨rfl, length_bigEndian _ _, (ofBigEndian_bigEndian_of_lt lt).symm⟩

/-- a map's twice its entries, -/
theorem map_announces (e : Family.map.header? n = some (h, body)) :
    h.isMap = true ∧ h.Owes body (2 * n) := by
  rcases header?_cases e with ⟨fixed, rfl⟩ | ⟨w, -, rfl, rfl, lt⟩
  · obtain ⟨_, rfl⟩ := fix?_map fixed
    exact ⟨rfl, rfl, rfl⟩
  · exact ⟨rfl, length_bigEndian _ _, by rw [ofBigEndian_bigEndian_of_lt lt]⟩

/-- a text's its payload, -/
theorem text_announces (e : Family.text.header? payload.length = some (h, body)) :
    h.isText = true ∧ h.Holds (body ++ payload) payload := by
  rcases header?_cases e with ⟨fixed, rfl⟩ | ⟨w, -, rfl, rfl, lt⟩
  · obtain ⟨_, rfl⟩ := fix?_text fixed
    exact ⟨rfl, .fixText rfl⟩
  · exact ⟨rfl, .text (length_bigEndian _ _) (ofBigEndian_bigEndian_of_lt lt).symm⟩

/-- a binary's too, -/
theorem bin_announces (e : Family.bin.header? payload.length = some (h, body)) :
    h.isBin = true ∧ h.Holds (body ++ payload) payload := by
  rcases header?_cases e with ⟨fixed, rfl⟩ | ⟨w, -, rfl, rfl, lt⟩
  · cases fixed
  · exact ⟨rfl, .bin (length_bigEndian _ _) (ofBigEndian_bigEndian_of_lt lt).symm⟩

/-- and an extension's the payload behind the tag. -/
theorem ext_announces (e : Family.ext.header? payload.length = some (h, body)) (tag : Int8) :
    h.HoldsExt (body ++ tag.toUInt8 :: payload) tag payload := by
  rcases header?_cases e with ⟨fixed, rfl⟩ | ⟨w, -, rfl, rfl, lt⟩
  · obtain ⟨p, rfl, length⟩ := fix?_ext fixed
    exact .fixExt length.symm
  · exact .ext (length_bigEndian _ _) (ofBigEndian_bigEndian_of_lt lt).symm

/-- No length is announced by nil. -/
theorem header_ne_nil {f : Family} (e : f.header? n = some (h, body)) : h ≠ .nil := by
  rcases header?_cases e with ⟨fixed, -⟩ | ⟨w, -, rfl, -⟩
  · cases f with
    | text =>
      obtain ⟨_, rfl⟩ := fix?_text fixed
      nofun
    | bin => cases fixed
    | array =>
      obtain ⟨_, rfl⟩ := fix?_array fixed
      nofun
    | map =>
      obtain ⟨_, rfl⟩ := fix?_map fixed
      nofun
    | ext =>
      obtain ⟨_, rfl, -⟩ := fix?_ext fixed
      nofun
  · cases f <;> nofun

end Family

end MessagePack
