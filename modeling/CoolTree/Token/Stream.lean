import CoolTree.Token.Scan

/-!
# The token stream

A lexer stands at a position of a source text with the text behind it. Reading a token skips the
blanks in front of it and moves the lexer behind it; at the end of the text every further token is
the ending. The tokens of a source are all tokens up to and with the first ending.
-/

namespace CoolTree

theorem Scan.length_closeComment (inside text : List Char) :
    (Scan.closeComment inside text).2.2.length ≤ text.length := by
  fun_induction Scan.closeComment inside text <;> simp_all <;> omega

theorem Body.length_read (text : List Char) : (Body.read text).rest.length ≤ text.length := by
  fun_induction Body.read text <;> simp_all [Body.addEscape, Body.addContent] <;> omega

theorem Scan.length_run_lt {kind : List Char → TokenKind} {belongs : Char → Bool} {c : Char}
    {text : List Char} (h : belongs c = true) :
    (Scan.run kind belongs (c :: text)).rest.length ≤ text.length := by
  simp only [Scan.run, List.dropWhile_cons, h, ↓reduceIte]
  exact List.Sublist.length_le (List.dropWhile_sublist belongs)

theorem Scan.length_first (c : Char) (text : List Char) :
    (Scan.first c text).rest.length ≤ text.length := by
  unfold Scan.first
  split
  · simp only [blockComment, List.length_cons]
    exact Nat.le_succ_of_le (length_closeComment _ _)
  · exact length_run_lt (by decide)
  · exact Body.length_read _
  · simp
  · simp
  · simp
  · split
    · exact length_run_lt ‹_›
    · split
      · exact length_run_lt (Text.continuesWord_of_startsWord ‹_›)
      · split <;> simp

structure Lexer where
  position : Position
  rest : List Char
  deriving DecidableEq, Inhabited

namespace Lexer

def ofSource (source : List Char) : Lexer :=
  ⟨.origin, source⟩

def next (l : Lexer) : Token × Lexer :=
  let gap := l.rest.takeWhile Text.isBlank
  let start := l.position.after gap
  match l.rest.dropWhile Text.isBlank with
  | [] => (⟨gap, start, .ending, []⟩, ⟨start, []⟩)
  | c :: rest =>
    let scan := Scan.first c rest
    (⟨gap, start, scan.kind, scan.text⟩, ⟨start.after scan.text, scan.rest⟩)

theorem length_next {l : Lexer} (h : l.next.1.text ≠ []) :
    l.next.2.rest.length < l.rest.length := by
  have shorter := List.Sublist.length_le (List.dropWhile_sublist Text.isBlank (l := l.rest))
  simp only [next] at h ⊢
  split at h
  · simp at h
  · rename_i c rest equal
    have := Scan.length_first c rest
    simp only [equal, List.length_cons] at shorter ⊢
    omega

/-- The tokens from here on, behind those read so far in reverse. -/
def tokensOnto (read : List Token) (l : Lexer) : List Token :=
  match _step : l.next with
  | (token, after) =>
    if _more : token.text = [] then (token :: read).reverse else tokensOnto (token :: read) after
  termination_by l.rest.length
  decreasing_by simpa [_step] using length_next (l := l) (by simpa [_step] using _more)

/-- The tokens from here on. The last one is the ending. -/
def tokens (l : Lexer) : List Token :=
  l.tokensOnto []

end Lexer

/-- All tokens of a source, comments and the ending included. -/
def Token.ofSource (source : List Char) : List Token :=
  (Lexer.ofSource source).tokens

end CoolTree
