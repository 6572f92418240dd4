/-!
# Sinks

A sink takes bytes as long as it has room. Of a text that does not fit it keeps the bytes that do,
and from then on it is full.
-/

namespace CoolTree

structure Sink where
  held : ByteArray
  /-- How many bytes still fit, if there is a bound. -/
  room : Option Nat

namespace Sink

def ofRoom (room : Option Nat) : Sink :=
  ⟨.empty, room⟩

def fullReason : String :=
  "sink is full"

/-- Writes a text, and says whether all of it fitted. -/
def write : Sink → String → Sink × Bool
  | ⟨held, none⟩, text => (⟨held ++ text.toUTF8, none⟩, true)
  | ⟨held, some room⟩, text =>
    let bytes := text.toUTF8
    if bytes.size ≤ room then (⟨held ++ bytes, some (room - bytes.size)⟩, true)
    else (⟨held ++ bytes.extract 0 room, some 0⟩, false)

/-- The text of bytes without the last `cut`, in whose place a replacement character stands. -/
def textBefore? (bytes : ByteArray) (cut : Nat) : Option String :=
  (String.fromUTF8? (bytes.extract 0 (bytes.size - cut))).map fun text ↦
    if cut = 0 then text else text ++ "\ufffd"

/-- The text a sink holds. A character that has been cut off is shown as a replacement character. -/
def text (s : Sink) : String :=
  ((List.range 4).findSome? (textBefore? s.held)).getD ""

end Sink

end CoolTree
