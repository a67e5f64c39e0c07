/-!
# Text as bytes

Text is stored as its UTF-8 bytes. Bytes that encode no text are refused.
-/

namespace TxnStore.Text

/-- The UTF-8 bytes of a text. -/
def toBytes (s : String) : List UInt8 := s.toByteArray.data.toList

/-- The text whose UTF-8 bytes are given, if there is one. -/
def ofBytes? (bs : List UInt8) : Option String := String.fromUTF8? ⟨bs.toArray⟩

@[simp] theorem ofBytes?_toBytes (s : String) : ofBytes? (toBytes s) = some s := by
  have h : (⟨(toBytes s).toArray⟩ : ByteArray) = s.toByteArray := by simp [toBytes]
  simp [ofBytes?, h, String.fromUTF8?, s.isValidUTF8, String.fromUTF8]

/-- A text has one encoding only. -/
theorem toBytes_of_ofBytes? {bs : List UInt8} {s : String} (h : ofBytes? bs = some s) :
    toBytes s = bs := by
  unfold ofBytes? String.fromUTF8? at h
  split at h
  · cases h; simp [toBytes, String.fromUTF8]
  · cases h

end TxnStore.Text
