import CoolTree.Grammar.Language
import CoolTree.Source.Span
import CoolTree.Text.Word

/-!
# Completion

The word in front of the caret is completed to the known words that start with it.
-/

namespace CoolTree.Completion

/-- The words that are completed: reserved words, built-in types, and `self`. -/
def words (l : Language) : List String :=
  l.keywords ++ l.primitiveTypes ++ ["self"]

structure Answer where
  /-- The byte at which the word to complete starts. -/
  start : Nat
  candidates : List String
  deriving DecidableEq, Inhabited

/-- Completes the word that ends at a byte of a line. A byte that is no place in the line stands
for the end of the line. -/
def complete (words : List String) (line : List Char) (caret : Nat) : Answer :=
  let before := (Source.takeBytes? caret line).getD line
  let word := (before.reverse.takeWhile Text.continuesWord).reverse
  { start := Source.byteLength before - Source.byteLength word
    candidates := if word.isEmpty then [] else words.filter fun w ↦ word.isPrefixOf w.toList }

end CoolTree.Completion
