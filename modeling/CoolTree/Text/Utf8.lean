/-!
# Text as bytes

A text has one form in UTF-8, and bytes that are valid UTF-8 are the form of one text.
-/

namespace CoolTree.Text

def encodeUtf8 (s : String) : List UInt8 :=
  s.toUTF8.data.toList

/-- The text that bytes stand for, if they are valid. -/
def decodeUtf8? (bytes : List UInt8) : Option String :=
  String.fromUTF8? ⟨bytes.toArray⟩

@[simp] theorem decodeUtf8?_encodeUtf8 (s : String) : decodeUtf8? (encodeUtf8 s) = some s := by
  simp only [decodeUtf8?, encodeUtf8, Array.toArray_toList]
  simp [String.fromUTF8?, String.fromUTF8]
  exact s.isValidUTF8

end CoolTree.Text
