/-!
# Texts as bytes

A text is written as UTF-8, and bytes are a text only when they are valid UTF-8.

Main statement: the bytes of a text are read as that text (`textOfUtf8?_utf8Bytes`).
-/

namespace MessagePack

/-- The UTF-8 bytes of a text. -/
def utf8Bytes (s : String) : List UInt8 := s.toByteArray.data.toList

/-- The text whose UTF-8 bytes these are, if they are valid. -/
def textOfUtf8? (bytes : List UInt8) : Option String := String.fromUTF8? ⟨bytes.toArray⟩

/-- The bytes of a text are read as that text. -/
theorem textOfUtf8?_utf8Bytes (s : String) : textOfUtf8? (utf8Bytes s) = some s := by
  unfold textOfUtf8? utf8Bytes String.fromUTF8?
  rw [Array.toArray_toList]
  exact dif_pos s.isValidUTF8

/-- Bytes that are read as a text are its bytes. -/
theorem utf8Bytes_of_textOfUtf8? {bytes : List UInt8} {s : String}
    (valid : textOfUtf8? bytes = some s) : utf8Bytes s = bytes := by
  unfold textOfUtf8? String.fromUTF8? at valid
  split at valid
  · cases valid
    rfl
  · cases valid

end MessagePack
