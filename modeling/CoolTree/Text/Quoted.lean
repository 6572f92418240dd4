import CoolTree.Text.Combining
import CoolTree.Text.Unprintable

/-!
# Quoted text

Text shown between quotes keeps the characters a reader can see. The usual control characters, the
backslash and the quote itself are written with a backslash, and every other character without a
visible shape of its own is written by its code point.
-/

namespace CoolTree.Text

/-- The code point of a character in braces, as in `\u{200b}`. -/
def codePointEscape (c : Char) : List Char :=
  ['\\', 'u', '\x7b'] ++ Nat.toDigits 16 c.toNat ++ ['\x7d']

/-- Whether a character is drawn onto the character before it. The two half-width sound marks of
kana join the character before them as well, but are letters that stand beside it. -/
def isOverlaid (c : Char) : Bool :=
  isCombining c && !(c == '\uff9e' || c == '\uff9f')

/-- One character between quotes of the given kind. -/
def quotedChar (quote : Char) (c : Char) : List Char :=
  if c = '\x00' then ['\\', '0']
  else if c = '\t' then ['\\', 't']
  else if c = '\r' then ['\\', 'r']
  else if c = '\n' then ['\\', 'n']
  else if c = quote ∨ c = '\\' then ['\\', c]
  else if isOverlaid c || isUnprintable c then codePointEscape c
  else [c]

def quoteChar (c : Char) : String :=
  String.ofList ('\'' :: quotedChar '\'' c ++ ['\''])

def quoteString (s : String) : String :=
  String.ofList ('"' :: s.toList.flatMap (quotedChar '"') ++ ['"'])

end CoolTree.Text
