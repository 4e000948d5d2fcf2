/-!
# UTF-8

Text as the bytes that a row, a content hash or a JSON string holds.

* `encode` is the UTF-8 form of a text.
* `decode?` reads bytes back and refuses everything that is no UTF-8: stray and missing continuation
  bytes, overlong forms, surrogates and numbers past the last code point.
-/

namespace RowCodec.Utf8

/-- The UTF-8 form of a text. -/
def encode (text : String) : List UInt8 := text.toByteArray.data.toList

/-- The text whose UTF-8 form is given. -/
def decode? (bytes : List UInt8) : Option String := String.fromUTF8? ⟨bytes.toArray⟩

theorem decode?_encode (text : String) : decode? (encode text) = some text := by
  obtain ⟨bytes, valid⟩ := text
  have h : (⟨(encode ⟨bytes, valid⟩).toArray⟩ : ByteArray) = bytes := by
    cases bytes; simp [encode]
  unfold decode? String.fromUTF8?
  rw [h]
  rw [dif_pos (by simpa using valid)]
  rfl

theorem encode_of_decode? {bytes : List UInt8} {text : String} (h : decode? bytes = some text) :
    encode text = bytes := by
  unfold decode? String.fromUTF8? at h
  split at h
  · cases h; simp [encode, String.fromUTF8]
  · cases h

end RowCodec.Utf8
