/-
Micheline/Text/Utf8.lean

Byte strings and the UTF-8 bytes of a text.  A byte string is a list, so that the
codecs above it are plain list recursion; `Utf8.decode?` inverts `Utf8.encode`.
-/

namespace Micheline

abbrev Bytes := List UInt8

namespace Utf8

def encode (text : String) : Bytes :=
  text.toUTF8.data.toList

/-- The text whose UTF-8 form is `data`, if `data` is valid UTF-8. -/
def decode? (data : Bytes) : Option String :=
  String.fromUTF8? ⟨data.toArray⟩

theorem decode?_encode (text : String) : decode? (encode text) = some text := by
  have h : (⟨(encode text).toArray⟩ : ByteArray) = text.toUTF8 := rfl
  simp only [decode?, h, String.fromUTF8?, String.toUTF8_eq_toByteArray, dif_pos text.isValidUTF8]
  rfl

/-- Only the UTF-8 form of a text decodes to it. -/
theorem decode?_eq_some_iff {data : Bytes} {text : String} :
    decode? data = some text ↔ data = encode text := by
  constructor
  · intro h
    unfold decode? String.fromUTF8? at h
    split at h
    · obtain rfl := Option.some.inj h
      simp [encode, String.fromUTF8]
    · simp at h
  · rintro rfl
    exact decode?_encode text

end Utf8

end Micheline
