import CoolTree.Proofs.Stream
import Mathlib.Data.List.Infix
import Mathlib.Data.List.TakeWhile

/-!
# Scanning, from the outside

What the scans of a run, of a block comment and of a first token give, told by the text they are
given. A run ends where a character of another kind stands, and a comment ends at the first end
there is. Five pairs of characters are read as one; where none of them starts a text, the first
character alone says what is scanned.
-/

namespace CoolTree

/-- The characters that do not stand behind a mark, since the two would be read as one. -/
def Terminal.continuations : Terminal → List Char
  | .less => ['-', '=']
  | .equal => ['>']
  | .minus => ['-']
  | .leftParen => ['*']
  | _ => []

namespace Text

theorem bounds_of_isDigit {c : Char} (h : c.isDigit = true) : 0x30 ≤ c.toNat ∧ c.toNat ≤ 0x39 := by
  simpa [Char.isDigit, UInt32.le_iff_toNat_le] using h

theorem startsWord_of_isDigit {c : Char} (h : c.isDigit = true) : startsWord c = false := by
  have hhigh := (bounds_of_isDigit h).2
  have halphabetic : isAlphabetic c = false := by
    have hlow : c.toNat < 0x41 := by omega
    exact if_pos hlow
  have hunderscore : c ≠ '_' := by
    rintro rfl
    exact absurd h (by decide)
  simp [startsWord, halphabetic, hunderscore]

theorem continuesWord_of_isDigit {c : Char} (h : c.isDigit = true) : continuesWord c = true := by
  obtain ⟨hlow, hhigh⟩ := bounds_of_isDigit h
  have hnumeric : isNumeric c = true := by
    obtain ⟨rest, hranges⟩ : ∃ rest, numericRanges = (0x30, 0x39) :: rest := ⟨_, rfl⟩
    rw [isNumeric, hranges, Range.covers, if_neg (by omega)]
    simp [hhigh]
  simp [continuesWord, hnumeric]

theorem isBlank_of_isDigit {c : Char} (h : c.isDigit = true) : isBlank c = false := by
  obtain ⟨hlow, hhigh⟩ := bounds_of_isDigit h
  simp only [isBlank, blankRanges, Range.covers]
  simp
  omega

end Text

namespace Scan

section Runs

variable {belongs : Char → Bool} {text behind : List Char}

theorem of_head?_dropWhile {c : Char} (h : c ∈ (text.dropWhile belongs).head?) :
    belongs c = false := by
  have hhead := List.head?_dropWhile_not belongs text
  rw [Option.mem_def.mp h] at hhead
  exact hhead

/-- Runs end where a character of another kind stands. -/
theorem takeWhile_append_of_maximal (htext : ∀ c ∈ text, belongs c = true)
    (hbehind : ∀ c ∈ behind.head?, belongs c = false) :
    (text ++ behind).takeWhile belongs = text := by
  rw [List.takeWhile_append_of_pos htext]
  cases behind with
  | nil => simp
  | cons c behind => simp [hbehind c rfl]

theorem dropWhile_append_of_maximal (htext : ∀ c ∈ text, belongs c = true)
    (hbehind : ∀ c ∈ behind.head?, belongs c = false) :
    (text ++ behind).dropWhile belongs = behind := by
  rw [List.dropWhile_append_of_pos htext]
  cases behind with
  | nil => rfl
  | cons c behind => simp [hbehind c rfl]

theorem run_append_of_maximal (kind : List Char → TokenKind) (htext : ∀ c ∈ text, belongs c = true)
    (hbehind : ∀ c ∈ behind.head?, belongs c = false) :
    run kind belongs (text ++ behind) = ⟨kind text, text, behind⟩ := by
  simp only [run]
  rw [takeWhile_append_of_maximal htext hbehind, dropWhile_append_of_maximal htext hbehind]

theorem length_le_run (kind : List Char → TokenKind) (h : ∀ d ∈ text, belongs d = true)
    (behind : List Char) : text.length ≤ (run kind belongs (text ++ behind)).text.length := by
  simp only [run]
  rw [List.takeWhile_append_of_pos h, List.length_append]
  exact Nat.le_add_right _ _

end Runs

theorem closeComment_cons {c : Char} {text : List Char} (h : ¬ ['*', ')'] <+: c :: text)
    (inside : List Char) : closeComment inside (c :: text) = closeComment (c :: inside) text := by
  rw [closeComment]
  rintro rest rfl rfl
  exact h ⟨rest, rfl⟩

theorem closeComment_of_closed {inside : List Char} (h : ¬ ['*', ')'] <:+: inside ++ ['*'])
    (read behind : List Char) :
    closeComment read (inside ++ (['*', ')'] ++ behind)) =
      (read.reverse ++ inside ++ ['*', ')'], true, behind) := by
  induction inside generalizing read with
  | nil => simp [closeComment]
  | cons c inside ih =>
      rw [List.cons_append, List.infix_cons_iff, not_or] at h
      have hhead : ¬ ['*', ')'] <+: c :: (inside ++ (['*', ')'] ++ behind)) := by
        intro hpre
        apply h.1
        refine List.prefix_of_prefix_length_le hpre ?_ (by simp)
        exact ⟨')' :: behind, by simp⟩
      rw [List.cons_append, closeComment_cons hhead, ih h.2]
      simp

theorem closeComment_of_open {inside : List Char} (h : ¬ ['*', ')'] <:+: inside)
    (read : List Char) : closeComment read inside = (read.reverse ++ inside, false, []) := by
  induction inside generalizing read with
  | nil => simp [closeComment]
  | cons c inside ih =>
      rw [List.infix_cons_iff, not_or] at h
      rw [closeComment_cons h.1, ih h.2]
      simp

/-- A text has a first end of a comment, or none. -/
theorem exists_first_end (text : List Char) :
    (∃ inside behind, text = inside ++ (['*', ')'] ++ behind) ∧ ¬ ['*', ')'] <:+: inside ++ ['*']) ∨
      ¬ ['*', ')'] <:+: text := by
  induction text with
  | nil => exact .inr (by simp)
  | cons c text ih =>
      by_cases hpre : ['*', ')'] <+: c :: text
      · obtain ⟨behind, htext⟩ := hpre
        exact .inl ⟨[], behind, htext.symm, by decide⟩
      · rcases ih with ⟨inside, behind, rfl, hinside⟩ | hnone
        · refine .inl ⟨c :: inside, behind, rfl, ?_⟩
          rw [List.cons_append, List.infix_cons_iff, not_or]
          refine ⟨fun hhead ↦ hpre (hhead.trans ?_), hinside⟩
          exact ⟨')' :: behind, by simp⟩
        · exact .inr fun hinfix ↦ (List.infix_cons_iff.mp hinfix).elim hpre hnone

/-- An end of a comment lies in any beginning of the text that reaches behind it. -/
theorem has_end_of_le {short limit text : List Char} (hshort : short ++ ['*', ')'] <+: text)
    (hlimit : limit <+: text) (hle : short.length + 2 ≤ limit.length) : ['*', ')'] <:+: limit := by
  have hwithin : short ++ ['*', ')'] <+: limit :=
    List.prefix_of_prefix_length_le hshort hlimit (by simpa using hle)
  exact (List.suffix_append short ['*', ')']).isInfix.trans hwithin.isInfix

theorem length_le_blockComment {inside : List Char} (h : ¬ ['*', ')'] <:+: inside)
    (behind : List Char) :
    inside.length + 2 ≤ (blockComment (inside ++ behind)).text.length := by
  rcases exists_first_end (inside ++ behind) with ⟨short, after, htext, hfirst⟩ | hnone
  · rw [htext, blockComment, closeComment_of_closed hfirst []]
    simp only [List.reverse_nil, List.nil_append, List.length_cons, List.length_append,
      List.length_nil]
    by_contra hlt
    have hshort : short ++ ['*', ')'] <+: inside ++ behind := ⟨after, by simp [htext]⟩
    exact h (has_end_of_le hshort (List.prefix_append inside behind) (by omega))
  · rw [blockComment, closeComment_of_open hnone []]
    simp

/-- The pairs of characters that start a comment or a mark of two characters. -/
def joined : List (Char × Char) :=
  [('(', '*'), ('-', '-'), ('<', '-'), ('<', '='), ('=', '>')]

/-- What a character starts that is not read together with the one behind it. -/
def alone (c : Char) (rest : List Char) : Scan :=
  if c.isDigit = true then run (fun _ ↦ .integer) Char.isDigit (c :: rest)
  else if Text.startsWord c = true then run wordKind Text.continuesWord (c :: rest)
  else match single? c with
    | some t => ⟨.terminal t, [c], rest⟩
    | none => ⟨.unknown c, [c], rest⟩

theorem first_of_not_joined {c : Char} {rest : List Char} (hquote : c ≠ '"')
    (hrest : ∀ d ∈ rest.head?, (c, d) ∉ joined) :
    first c rest = alone c rest := by
  have hfree : ∀ d tail, rest = d :: tail → (c, d) ∉ joined := by
    rintro d tail rfl
    exact hrest d rfl
  apply first.eq_7 c rest hquote
  all_goals
    rintro tail rfl htail
    exact hfree _ tail htail (by decide)

theorem mem_starts_of_joined {c d : Char} (h : (c, d) ∈ joined) : c ∈ ['(', '-', '<', '='] := by
  simp only [joined, List.mem_cons, Prod.mk.injEq, List.not_mem_nil, or_false] at h
  rcases h with ⟨rfl, -⟩ | ⟨rfl, -⟩ | ⟨rfl, -⟩ | ⟨rfl, -⟩ | ⟨rfl, -⟩ <;> decide

/-- Characters of a class that has no mark in it start what the class says. -/
theorem first_of_class {belongs : Char → Bool}
    (hmarks : (['(', '-', '<', '=', '"'].any belongs) = false) {c : Char}
    (h : belongs c = true) (rest : List Char) :
    first c rest = alone c rest := by
  have hnot : c ∉ ['(', '-', '<', '=', '"'] := fun hmem ↦
    List.any_eq_false.mp hmarks c hmem h
  apply first_of_not_joined
  · rintro rfl
    exact hnot (by decide)
  · intro d _ hjoined
    have hmem := mem_starts_of_joined hjoined
    exact hnot (List.mem_append_left ['"'] hmem)

theorem first_of_isDigit {c : Char} (h : c.isDigit = true) (rest : List Char) :
    first c rest = run (fun _ ↦ .integer) Char.isDigit (c :: rest) := by
  rw [first_of_class (by decide) h, alone, if_pos h]

theorem first_of_startsWord {c : Char} (h : Text.startsWord c = true) (rest : List Char) :
    first c rest = run wordKind Text.continuesWord (c :: rest) := by
  have hdigit : ¬ c.isDigit = true := by
    intro hdigit
    rw [Text.startsWord_of_isDigit hdigit] at h
    contradiction
  rw [first_of_class (by decide) h, alone, if_neg hdigit, if_pos h]

theorem first_of_single {c : Char} {t : Terminal} (h : single? c = some t) {rest : List Char}
    (hrest : ∀ d ∈ rest.head?, d ∉ t.continuations) : first c rest = ⟨.terminal t, [c], rest⟩ := by
  have hclass : c ≠ '"' ∧ c.isDigit = false ∧ Text.startsWord c = false := by
    unfold single? at h
    split at h <;> first | contradiction | decide
  obtain ⟨hquote, hdigit, hword⟩ := hclass
  have hjoined : ∀ d ∈ rest.head?, (c, d) ∉ joined := by
    intro d hd hmem
    apply hrest d hd
    simp only [joined, List.mem_cons, Prod.mk.injEq, List.not_mem_nil, or_false] at hmem
    rcases hmem with ⟨rfl, rfl⟩ | ⟨rfl, rfl⟩ | ⟨rfl, rfl⟩ | ⟨rfl, rfl⟩ | ⟨rfl, rfl⟩ <;>
      cases h <;> decide
  rw [first_of_not_joined hquote hjoined]
  simp [alone, hdigit, hword, h]

theorem first_of_unknown {c : Char} (hquote : c ≠ '"') (hdigit : c.isDigit = false)
    (hword : Text.startsWord c = false) (hsingle : single? c = none) (rest : List Char) :
    first c rest = ⟨.unknown c, [c], rest⟩ := by
  have hjoined : ∀ d ∈ rest.head?, (c, d) ∉ joined := by
    intro d _ hmem
    have hstart := mem_starts_of_joined hmem
    simp only [List.mem_cons, List.not_mem_nil, or_false] at hstart
    rcases hstart with rfl | rfl | rfl | rfl <;> contradiction
  rw [first_of_not_joined hquote hjoined]
  simp [alone, hdigit, hword, hsingle]

end Scan

end CoolTree
