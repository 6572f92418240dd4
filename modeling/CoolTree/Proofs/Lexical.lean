import CoolTree.Proofs.Bodies
import CoolTree.Proofs.Scanning

/-!
# The lexical grammar

A lexeme is a text that is a token of some kind, told without reading it character by character. It
may say what must not stand behind it, and that is all a lexeme knows of the rest of the source.
Where no lexeme starts, one character is a token of its own. Scanning finds the lexeme a text
starts with, and there is no other. It is also the longest one, whatever may stand behind them.
-/

namespace CoolTree

/-- The kind of a word: the reserved words first, then the primitive types, and of the others those
that start with an uppercase letter name types. -/
inductive Names (word : List Char) : TokenKind → Prop
  | reserved {kind : TokenKind} (known : TokenKind.keyword? (String.ofList word) = some kind) :
      Names word kind
  | primitiveType (unknown : TokenKind.keyword? (String.ofList word) = none)
      (mem : String.ofList word ∈ Grammar.primitiveTypeNames) : Names word .primitiveType
  | typeIdentifier (unknown : TokenKind.keyword? (String.ofList word) = none)
      (not_mem : String.ofList word ∉ Grammar.primitiveTypeNames)
      (upper : word.head?.any Text.isUppercase = true) : Names word .typeIdentifier
  | identifier (unknown : TokenKind.keyword? (String.ofList word) = none)
      (not_mem : String.ofList word ∉ Grammar.primitiveTypeNames)
      (not_upper : word.head?.any Text.isUppercase = false) : Names word .identifier

/-- No digits stand on both sides of the place between two texts. -/
def Parted (ahead behind : List Char) : Prop :=
  ∀ c ∈ ahead.getLast?, ∀ d ∈ behind.head?, c.isDigit = true → d.isDigit = false

/-- A block comment with its end. The end does not overlap the beginning. -/
def IsComment (text : List Char) : Prop :=
  ∃ inside, text = ['(', '*'] ++ (inside ++ ['*', ')'])

/-- A text that is a token of a kind in front of another text. -/
inductive Lexeme : TokenKind → List Char → List Char → Prop
  | mark {t : Terminal} {behind : List Char} (mem : t ∈ Terminal.punctuation)
      (apart : ∀ c ∈ behind.head?, c ∉ t.continuations) :
      Lexeme (.terminal t) t.spelling.toList behind
  | word {kind : TokenKind} {c : Char} {rest behind : List Char} (starts : Text.startsWord c = true)
      (continues : ∀ d ∈ rest, Text.continuesWord d = true)
      (maximal : ∀ d ∈ behind.head?, Text.continuesWord d = false)
      (names : Names (c :: rest) kind) : Lexeme kind (c :: rest) behind
  | integer {text behind : List Char} (ne_nil : text ≠ [])
      (digits : ∀ d ∈ text, d.isDigit = true) (maximal : ∀ d ∈ behind.head?, d.isDigit = false) :
      Lexeme .integer text behind
  | lineComment {inside behind : List Char} (single : '\n' ∉ inside)
      (maximal : ∀ d ∈ behind.head?, d = '\n') : Lexeme .lineComment (['-', '-'] ++ inside) behind
  | comment {text behind : List Char} (closed : IsComment text)
      (shortest : ∀ shorter, IsComment shorter → shorter <+: text ++ behind →
        text.length ≤ shorter.length) : Lexeme (.blockComment true) text behind
  | openComment {inside : List Char} (unclosed : ¬ ['*', ')'] <:+: inside) :
      Lexeme (.blockComment false) (['(', '*'] ++ inside) []
  | string {parts : List BodyPart} {body behind : List Char} {closed : Bool}
      (divides : Body.Divides parts body) (ends : Body.Ends body closed behind) :
      Lexeme (.string parts closed) ('"' :: body ++ if closed then ['"'] else []) behind

/-- What a text can be as a token in front of another one. -/
inductive Lexes : TokenKind → List Char → List Char → Prop
  | lexeme {kind : TokenKind} {text behind : List Char} (lexeme : Lexeme kind text behind) :
      Lexes kind text behind
  | unknown {c : Char} {behind : List Char}
      (none : ∀ kind text behind, Lexeme kind text behind → c ∉ text.head?) :
      Lexes (.unknown c) [c] behind

namespace Names

variable {word : List Char} {kind : TokenKind}

theorem kind_cases (h : Names word kind) :
    (∃ t ∈ Terminal.keywords, t.spelling.toList = word ∧ kind = .terminal t) ∨
      kind ∈ [.selfWord, .primitiveType, .typeIdentifier, .identifier] := by
  cases h with
  | reserved known =>
      unfold TokenKind.keyword? at known
      split at known
      · cases known
        exact .inr (by simp)
      · obtain ⟨t, ht, rfl⟩ := Option.map_eq_some_iff.mp known
        have hspelling : t.spelling = String.ofList word := by
          simpa using List.find?_some ht
        exact .inl ⟨t, List.mem_of_find?_eq_some ht, by simp [hspelling], rfl⟩
  | _ => exact .inr (by simp)

theorem wordKind (word : List Char) : Names word (Scan.wordKind word) := by
  unfold Scan.wordKind
  cases hkeyword : TokenKind.keyword? (String.ofList word) with
  | some kind => exact .reserved hkeyword
  | none =>
      by_cases hmem : String.ofList word ∈ Grammar.primitiveTypeNames
      · simpa [hmem] using primitiveType hkeyword hmem
      · cases hupper : word.head?.any Text.isUppercase with
        | true => simpa [hmem] using typeIdentifier hkeyword hmem hupper
        | false => simpa [hmem] using identifier hkeyword hmem hupper

theorem wordKind_eq (h : Names word kind) : Scan.wordKind word = kind := by
  unfold Scan.wordKind
  cases h with
  | reserved known => simp [known]
  | primitiveType unknown mem => simp [unknown, mem]
  | typeIdentifier unknown not_mem upper => simp [unknown, not_mem, upper]
  | identifier unknown not_mem not_upper => simp [unknown, not_mem, not_upper]

end Names

/-- Of the marks, three have two characters and the others are known by their only one. -/
theorem Terminal.single_of_mem_punctuation {t : Terminal} (h : t ∈ punctuation) :
    t ∈ [assign, lessEqual, arrow] ∨ ∃ c, t.spelling.toList = [c] ∧ Scan.single? c = some t := by
  cases t <;>
    first
    | exact .inr ⟨_, rfl, rfl⟩
    | exact .inl (by decide)
    | exact absurd h (by decide)

theorem IsComment.exists_first {text behind : List Char} (h : IsComment text)
    (shortest : ∀ shorter, IsComment shorter → shorter <+: text ++ behind →
      text.length ≤ shorter.length) :
    ∃ inside, text = ['(', '*'] ++ (inside ++ ['*', ')']) ∧
      ¬ ['*', ')'] <:+: inside ++ ['*'] := by
  obtain ⟨inside, rfl⟩ := h
  refine ⟨inside, rfl, ?_⟩
  rintro ⟨ahead, after, hinside⟩
  have hprefix : ahead ++ ['*', ')'] <+: inside ++ ['*', ')'] := by
    refine ⟨after ++ [')'], ?_⟩
    rw [← List.append_assoc, hinside, List.append_assoc]
    rfl
  have hshort : (['(', '*'] ++ (ahead ++ ['*', ')'])) <+:
      ['(', '*'] ++ (inside ++ ['*', ')']) ++ behind :=
    ((List.prefix_append_right_inj _).mpr hprefix).trans (List.prefix_append _ _)
  have hle := shortest _ ⟨ahead, rfl⟩ hshort
  have hlength := congrArg List.length hinside
  simp only [List.length_append, List.length_cons, List.length_nil] at hle hlength
  omega

/-- What is shorter than a comment does not reach the text behind it, whatever that is. -/
theorem IsComment.shortest_append {text behind : List Char}
    (shortest : ∀ shorter, IsComment shorter → shorter <+: text ++ behind →
      text.length ≤ shorter.length) (after : List Char) :
    ∀ shorter, IsComment shorter → shorter <+: text ++ after → text.length ≤ shorter.length := by
  intro shorter hshorter hprefix
  by_contra hlt
  have hwithin := List.prefix_of_prefix_length_le hprefix (List.prefix_append text after)
    (by omega)
  exact hlt (shortest shorter hshorter (hwithin.trans (List.prefix_append text behind)))

namespace Lexeme

variable {kind : TokenKind} {text behind rest : List Char} {c : Char}

theorem first_mark {t : Terminal} (mem : t ∈ Terminal.punctuation)
    (apart : ∀ d ∈ behind.head?, d ∉ t.continuations)
    (htext : t.spelling.toList ++ behind = c :: rest) :
    Scan.first c rest = ⟨.terminal t, t.spelling.toList, behind⟩ := by
  rcases Terminal.single_of_mem_punctuation mem with hpair | ⟨d, hspelling, hsingle⟩
  · simp only [List.mem_cons, List.not_mem_nil, or_false] at hpair
    rcases hpair with rfl | rfl | rfl <;>
    · obtain ⟨rfl, rfl⟩ := List.cons.inj htext
      rfl
  · rw [hspelling] at htext ⊢
    obtain ⟨rfl, rfl⟩ := List.cons.inj htext
    exact Scan.first_of_single hsingle apart

theorem single_line {inside : List Char} (h : '\n' ∉ inside) :
    ∀ d ∈ ['-', '-'] ++ inside, (d != '\n') = true := by
  intro d hd
  rw [bne_iff_ne]
  rintro rfl
  exact h (by simpa using hd)

theorem first_isDigit (hne : text ≠ []) (h : ∀ d ∈ text, d.isDigit = true)
    (htext : text ++ behind = c :: rest) : c.isDigit = true := by
  obtain ⟨d, text, rfl⟩ := List.exists_cons_of_ne_nil hne
  obtain ⟨rfl, -⟩ := List.cons.inj htext
  exact h d List.mem_cons_self

/-- Scanning a text that starts with a lexeme finds it. -/
theorem first_eq (h : Lexeme kind text behind) (htext : text ++ behind = c :: rest) :
    Scan.first c rest = ⟨kind, text, behind⟩ := by
  cases h with
  | mark mem apart => exact first_mark mem apart htext
  | @word _ d word _ starts continues maximal names =>
      obtain ⟨rfl, rfl⟩ := List.cons.inj htext
      have hclass : ∀ e ∈ d :: word, Text.continuesWord e = true :=
        List.forall_mem_cons.mpr ⟨Text.continuesWord_of_startsWord starts, continues⟩
      have hrun := Scan.run_append_of_maximal Scan.wordKind hclass maximal
      rw [names.wordKind_eq] at hrun
      rw [Scan.first_of_startsWord starts]
      exact hrun
  | integer ne_nil digits maximal =>
      have hdigit := first_isDigit ne_nil digits htext
      rw [Scan.first_of_isDigit hdigit, ← htext, Scan.run_append_of_maximal _ digits maximal]
  | @lineComment inside _ single maximal =>
      obtain ⟨rfl, rfl⟩ := List.cons.inj htext
      have hclass := single_line single
      have hbehind : ∀ d ∈ behind.head?, (d != '\n') = false := by
        intro d hd
        simp [maximal d hd]
      exact Scan.run_append_of_maximal (fun _ ↦ .lineComment) hclass hbehind
  | comment closed shortest =>
      obtain ⟨inside, rfl, hfirst⟩ := closed.exists_first shortest
      obtain ⟨rfl, rfl⟩ := List.cons.inj htext
      have hclose := Scan.closeComment_of_closed hfirst [] behind
      change Scan.blockComment (inside ++ ['*', ')'] ++ behind) = _
      rw [List.append_assoc, Scan.blockComment, hclose]
      rfl
  | @openComment inside unclosed =>
      obtain ⟨rfl, rfl⟩ := List.cons.inj htext
      change Scan.blockComment (inside ++ []) = _
      rw [List.append_nil, Scan.blockComment, Scan.closeComment_of_open unclosed []]
      rfl
  | @string parts body _ closed divides ends =>
      obtain ⟨rfl, rfl⟩ := List.cons.inj htext
      have hread := Body.read_of_ends ends
      rw [← divides.eq_gather, ← List.append_assoc] at hread
      change Scan.string (body ++ _ ++ behind) = _
      rw [Scan.string, hread]
      simp [Body.text, divides.flatMap_text]

theorem ne_nil (h : Lexeme kind text behind) : text ≠ [] := by
  cases h with
  | @mark t => cases t <;> decide
  | integer ne_nil => exact ne_nil
  | comment closed =>
      obtain ⟨inside, rfl⟩ := closed
      simp
  | _ => simp

theorem ne_unknown (h : Lexeme kind text behind) (d : Char) : kind ≠ .unknown d := by
  cases h with
  | word starts continues maximal names =>
      rcases names.kind_cases with ⟨t, -, -, rfl⟩ | hkind
      · simp
      · rintro rfl
        simp at hkind
  | _ => simp

end Lexeme

theorem lexeme_blockComment (rest : List Char) :
    Lexeme (Scan.blockComment rest).kind (Scan.blockComment rest).text
      (Scan.blockComment rest).rest := by
  rcases Scan.exists_first_end rest with ⟨inside, behind, rfl, hfirst⟩ | hnone
  · rw [Scan.blockComment, Scan.closeComment_of_closed hfirst [] behind]
    refine .comment ⟨inside, rfl⟩ ?_
    rintro shorter ⟨short, rfl⟩ hprefix
    by_contra hlt
    have hshort : short ++ ['*', ')'] <+: inside ++ ['*', ')'] ++ behind :=
      (List.prefix_append_right_inj ['(', '*']).mp hprefix
    have hinside : inside ++ ['*'] <+: inside ++ ['*', ')'] ++ behind :=
      ⟨')' :: behind, by simp⟩
    apply hfirst (Scan.has_end_of_le hshort hinside _)
    simp at hlt ⊢
    omega
  · rw [Scan.blockComment, Scan.closeComment_of_open hnone []]
    exact .openComment hnone

theorem lexeme_string (rest : List Char) :
    Lexeme (Scan.string rest).kind (Scan.string rest).text (Scan.string rest).rest :=
  .string (Body.divides_read rest) (Body.ends_read rest)

theorem lexeme_lineComment (rest : List Char) :
    Lexeme .lineComment ('-' :: '-' :: rest.takeWhile (· != '\n'))
      (rest.dropWhile (· != '\n')) := by
  refine .lineComment ?_ ?_
  · intro hmem
    simpa using List.mem_takeWhile_imp hmem
  · intro d hd
    simpa using Scan.of_head?_dropWhile hd

theorem lexeme_word {c : Char} (h : Text.startsWord c = true) (rest : List Char) :
    Lexeme (Scan.wordKind (c :: rest.takeWhile Text.continuesWord))
      (c :: rest.takeWhile Text.continuesWord) (rest.dropWhile Text.continuesWord) :=
  .word h (fun _ ↦ List.mem_takeWhile_imp) (fun _ ↦ Scan.of_head?_dropWhile) (.wordKind _)

theorem lexeme_integer {c : Char} (h : c.isDigit = true) (rest : List Char) :
    Lexeme .integer ((c :: rest).takeWhile Char.isDigit) ((c :: rest).dropWhile Char.isDigit) :=
  .integer (Scan.run_text_ne_nil (fun _ ↦ .integer) h) (fun _ ↦ List.mem_takeWhile_imp)
    fun _ ↦ Scan.of_head?_dropWhile

theorem lexeme_mark {c : Char} {t : Terminal} (h : Scan.single? c = some t) {behind : List Char}
    (hbehind : ∀ d ∈ behind.head?, (c, d) ∉ Scan.joined) : Lexeme (.terminal t) [c] behind := by
  have hmark : t ∈ Terminal.punctuation ∧ t.spelling.toList = [c] ∧
      t.continuations.all (fun d ↦ (c, d) ∈ Scan.joined) = true := by
    unfold Scan.single? at h
    split at h <;> first | contradiction | (cases h; decide)
  obtain ⟨hmem, hspelling, hjoined⟩ := hmark
  rw [← hspelling]
  refine .mark hmem fun d hd hcontinues ↦ hbehind d hd ?_
  simpa using List.all_eq_true.mp hjoined d hcontinues

theorem lexeme_of_joined {c d : Char} (h : (c, d) ∈ Scan.joined) (rest : List Char) :
    Lexeme (Scan.first c (d :: rest)).kind (Scan.first c (d :: rest)).text
      (Scan.first c (d :: rest)).rest := by
  simp only [Scan.joined, List.mem_cons, Prod.mk.injEq, List.not_mem_nil, or_false] at h
  rcases h with ⟨rfl, rfl⟩ | ⟨rfl, rfl⟩ | ⟨rfl, rfl⟩ | ⟨rfl, rfl⟩ | ⟨rfl, rfl⟩
  · exact lexeme_blockComment rest
  · exact lexeme_lineComment rest
  · exact .mark (t := .assign) (by decide) (by simp [Terminal.continuations])
  · exact .mark (t := .lessEqual) (by decide) (by simp [Terminal.continuations])
  · exact .mark (t := .arrow) (by decide) (by simp [Terminal.continuations])

/-- What scanning finds is what the text starts with. -/
theorem lexes_first (c : Char) (rest : List Char) :
    Lexes (Scan.first c rest).kind (Scan.first c rest).text (Scan.first c rest).rest := by
  by_cases hquote : c = '"'
  · subst hquote
    exact .lexeme (lexeme_string rest)
  by_cases hjoined : ∃ d ∈ rest.head?, (c, d) ∈ Scan.joined
  · obtain ⟨d, hd, hjoined⟩ := hjoined
    obtain ⟨tail, rfl⟩ := List.head?_eq_some_iff.mp hd
    exact .lexeme (lexeme_of_joined hjoined tail)
  have hapart : ∀ d ∈ rest.head?, (c, d) ∉ Scan.joined := fun d hd h ↦ hjoined ⟨d, hd, h⟩
  by_cases hdigit : c.isDigit = true
  · rw [Scan.first_of_isDigit hdigit]
    exact .lexeme (lexeme_integer hdigit rest)
  by_cases hword : Text.startsWord c = true
  · have hcontinues := Text.continuesWord_of_startsWord hword
    have hlexeme := lexeme_word hword rest
    rw [Scan.first_of_startsWord hword, Scan.run, List.takeWhile_cons_of_pos hcontinues,
      List.dropWhile_cons_of_pos hcontinues]
    exact .lexeme hlexeme
  rw [Bool.not_eq_true] at hdigit hword
  cases hsingle : Scan.single? c with
  | some t =>
      rw [Scan.first_of_not_joined hquote hapart]
      simpa [Scan.alone, hdigit, hword, hsingle] using Lexes.lexeme (lexeme_mark hsingle hapart)
  | none =>
      -- A lexeme with this first character would be found by scanning, which gives no lexeme.
      have hunknown := Scan.first_of_unknown hquote hdigit hword hsingle
      rw [hunknown]
      refine .unknown fun kind text behind hlexeme hc ↦ ?_
      obtain ⟨tail, rfl⟩ := List.head?_eq_some_iff.mp hc
      have hfound := hlexeme.first_eq (List.cons_append)
      rw [hunknown] at hfound
      exact hlexeme.ne_unknown c (congrArg Scan.kind hfound).symm

theorem Lexes.ne_nil {kind : TokenKind} {text behind : List Char} (h : Lexes kind text behind) :
    text ≠ [] := by
  cases h with
  | lexeme lexeme => exact lexeme.ne_nil
  | unknown none => simp

theorem Scan.head?_first (c : Char) (rest : List Char) : (first c rest).text.head? = some c := by
  have happend := (fits_first c rest).append
  obtain ⟨d, text, htext⟩ := List.exists_cons_of_ne_nil (lexes_first c rest).ne_nil
  rw [htext] at happend ⊢
  rw [(List.cons.inj happend).1, List.head?_cons]

namespace Lexeme

variable {kind : TokenKind} {text behind rest : List Char} {c : Char}

/-- The longest spelling wins: no lexeme that a text starts with is longer than what scanning
finds, whatever that lexeme may stand in front of. -/
theorem length_le_first (h : Lexeme kind text behind) {after : List Char}
    (htext : text ++ after = c :: rest) : text.length ≤ (Scan.first c rest).text.length := by
  cases h with
  | @mark t _ mem apart =>
      rcases Terminal.single_of_mem_punctuation mem with hpair | ⟨d, hspelling, -⟩
      · have happart : ∀ d ∈ after.head?, d ∉ t.continuations := by
          simp only [List.mem_cons, List.not_mem_nil, or_false] at hpair
          rcases hpair with rfl | rfl | rfl <;> simp [Terminal.continuations]
        rw [first_mark mem happart htext]
      · rw [hspelling]
        exact List.length_pos_of_ne_nil (lexes_first c rest).ne_nil
  | @word _ d word _ starts continues maximal names =>
      obtain ⟨rfl, rfl⟩ := List.cons.inj htext
      rw [Scan.first_of_startsWord starts]
      exact Scan.length_le_run _ (List.forall_mem_cons.mpr
        ⟨Text.continuesWord_of_startsWord starts, continues⟩) after
  | integer ne_nil digits maximal =>
      have hdigit := first_isDigit ne_nil digits htext
      rw [Scan.first_of_isDigit hdigit, ← htext]
      exact Scan.length_le_run _ digits after
  | @lineComment inside _ single maximal =>
      obtain ⟨rfl, rfl⟩ := List.cons.inj htext
      exact Scan.length_le_run (fun _ ↦ .lineComment) (single_line single) after
  | comment closed shortest =>
      rw [(comment closed (IsComment.shortest_append shortest after)).first_eq htext]
  | @openComment inside unclosed =>
      obtain ⟨rfl, rfl⟩ := List.cons.inj htext
      exact Scan.length_le_blockComment unclosed after
  | @string parts body _ closed divides ends =>
      obtain ⟨rfl, rfl⟩ := List.cons.inj htext
      cases closed with
      | true =>
          have hends : Body.Ends body true after := ends.of_closed after
          rw [(string divides hends).first_eq rfl]
      | false =>
          -- With another text behind it, an unclosed literal may go on.
          have hle := Body.length_le_read ends.unbroken after
          change _ ≤ (Scan.string (body ++ [] ++ after)).text.length
          rw [List.append_nil, Scan.string]
          simp only [List.length_append, List.length_cons]
          simp
          omega

end Lexeme

namespace Lexes

variable {kind : TokenKind} {text behind rest : List Char} {c : Char}

/-- A text starts with no other token than the one that scanning finds. -/
theorem first_eq (h : Lexes kind text behind) (htext : text ++ behind = c :: rest) :
    Scan.first c rest = ⟨kind, text, behind⟩ := by
  cases h with
  | lexeme lexeme => exact lexeme.first_eq htext
  | @unknown d _ none =>
      obtain ⟨rfl, rfl⟩ := List.cons.inj htext
      have happend := (Scan.fits_first d behind).append
      have hfound := lexes_first d behind
      change Scan.first d behind = _
      generalize Scan.first d behind = s at hfound happend
      obtain ⟨kind, text, rest⟩ := s
      cases hfound with
      | lexeme lexeme =>
          obtain ⟨e, text, rfl⟩ := List.exists_cons_of_ne_nil lexeme.ne_nil
          obtain ⟨rfl, -⟩ := List.cons.inj happend
          exact (none _ _ _ lexeme rfl).elim
      | unknown _ =>
          obtain ⟨rfl, rfl⟩ := List.cons.inj happend
          rfl

/-- No token ends in the middle of a number. -/
theorem parted (h : Lexes kind text behind) : Parted text behind := by
  intro last hlast d hd hdigit
  cases h with
  | @unknown c _ none =>
      obtain rfl : c = last := by simpa using hlast
      have hinteger : Lexeme .integer [c] [] := .integer (by simp) (by simpa) (by simp)
      exact (none _ _ _ hinteger rfl).elim
  | lexeme lexeme =>
      cases lexeme with
      | @mark t _ mem apart =>
          have hmark : t.spelling.toList.getLast?.any Char.isDigit = false := by
            revert mem
            cases t <;> decide
          rw [hlast] at hmark
          simp [hdigit] at hmark
      | word starts continues maximal names =>
          have hstop := maximal d hd
          by_contra hcontinues
          rw [Bool.not_eq_false] at hcontinues
          simp [Text.continuesWord_of_isDigit hcontinues] at hstop
      | integer ne_nil digits maximal => exact maximal d hd
      | lineComment single maximal =>
          rw [maximal d hd]
          decide
      | comment closed shortest =>
          obtain ⟨inside, rfl⟩ := closed
          rw [List.getLast?_append, List.getLast?_append] at hlast
          obtain rfl : ')' = last := by simpa using hlast
          contradiction
      | openComment unclosed => simp at hd
      | @string parts body _ closed divides ends =>
          cases closed with
          | true =>
              rw [List.getLast?_append] at hlast
              obtain rfl : '"' = last := by simpa using hlast
              contradiction
          | false => rcases ends.behind_open rfl d hd with rfl | rfl <;> decide

theorem isDigit_of_integer (h : Lexes .integer text behind) : ∀ d ∈ text, d.isDigit = true := by
  cases h with
  | lexeme lexeme =>
      cases lexeme with
      | integer ne_nil digits maximal => exact digits
      | word starts continues maximal names =>
          rcases names.kind_cases with ⟨t, -, -, hkind⟩ | hkind <;> simp at hkind

end Lexes

end CoolTree
