import CoolTree.Text.Alphabetic
import CoolTree.Text.Numeric
import CoolTree.Text.Uppercase

/-!
# Words

A word starts with a letter or an underscore and goes on with letters, numbers and underscores.
Letters and numbers are those of Unicode.
-/

namespace CoolTree.Text

def startsWord (c : Char) : Bool :=
  isAlphabetic c || c == '_'

def continuesWord (c : Char) : Bool :=
  isAlphabetic c || isNumeric c || c == '_'

theorem continuesWord_of_startsWord {c : Char} (h : startsWord c = true) :
    continuesWord c = true := by
  simp only [startsWord, Bool.or_eq_true] at h
  rcases h with h | h <;> simp [continuesWord, h]

end CoolTree.Text
