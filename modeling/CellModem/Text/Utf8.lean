/-!
# Text and its bytes

A serial line carries bytes; the modem's language is text. `bytes` and
`ofBytes?` are the two directions between them, and `ofBytes?_eq_some_iff` says
that each undoes the other: a byte string is the text `s` exactly when it is
the encoding of `s`.
-/

namespace CellModem.Text

/-- The UTF-8 encoding of a text. -/
def bytes (s : String) : List UInt8 :=
  s.toList.flatMap String.utf8EncodeChar

/-- The text that the bytes encode, unless they are not valid UTF-8. -/
def ofBytes? (b : List UInt8) : Option String :=
  String.fromUTF8? b.toByteArray

theorem toByteArray_bytes (s : String) :
    (bytes s).toByteArray = s.toByteArray := by
  have h : s.toList.utf8Encode = s.toByteArray := String.utf8Encode_toList
  rw [← h]
  rfl

theorem data_toByteArray (b : List UInt8) : b.toByteArray.data.toList = b := by
  simp

theorem toByteArray_injective {b c : List UInt8}
    (h : b.toByteArray = c.toByteArray) : b = c := by
  rw [← data_toByteArray b, h, data_toByteArray]

theorem ofBytes?_bytes (s : String) : ofBytes? (bytes s) = some s := by
  simp [ofBytes?, String.fromUTF8?, toByteArray_bytes, s.isValidUTF8,
    String.fromUTF8]

theorem bytes_of_ofBytes? {b : List UInt8} {s : String}
    (h : ofBytes? b = some s) :
    bytes s = b := by
  unfold ofBytes? String.fromUTF8? at h
  split at h
  · injection h with h
    apply toByteArray_injective
    rw [toByteArray_bytes, ← h]
    rfl
  · contradiction

theorem ofBytes?_eq_some_iff {b : List UInt8} {s : String} :
    ofBytes? b = some s ↔ b = bytes s :=
  ⟨fun h => (bytes_of_ofBytes? h).symm, fun h => h ▸ ofBytes?_bytes s⟩

theorem bytes_append (s t : String) : bytes (s ++ t) = bytes s ++ bytes t := by
  simp [bytes, String.toList_append, List.flatMap_append]

theorem length_bytes (s : String) : (bytes s).length = s.utf8ByteSize := by
  have h := congrArg ByteArray.size (toByteArray_bytes s)
  rw [List.size_toByteArray] at h
  exact h

end CellModem.Text
