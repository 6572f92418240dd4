import CoolTree.Proofs.Lexical
import CoolTree.Proofs.Tiling

/-!
# Sources as rows of tokens

A source falls apart into tokens with blank text between them, and each token is what the text from
there on starts with. There is one such row for a source, and the lexer finds it.
-/

namespace CoolTree

namespace Parted

variable {ahead behind gap : List Char}

theorem append_left (h : Parted ahead behind) (hne : ahead ≠ []) (before : List Char) :
    Parted (before ++ ahead) behind := by
  intro c hc
  rw [List.getLast?_append_of_ne_nil before hne] at hc
  exact h c hc

/-- Blank characters are no digits. -/
theorem append_blank (h : Parted ahead (gap ++ behind))
    (hgap : ∀ c ∈ gap, Text.isBlank c = true) : Parted (ahead ++ gap) behind := by
  by_cases hnil : gap = []
  · subst hnil
    rwa [List.append_nil]
  · intro c hc d _ hdigit
    rw [List.getLast?_append_of_ne_nil ahead hnil] at hc
    have hblank := hgap c (List.mem_of_getLast? hc)
    rw [Text.isBlank_of_isDigit hdigit] at hblank
    contradiction

end Parted

/-- A text that stands behind a position, read as tokens. -/
inductive Lexed : Position → List Char → List Token → Prop
  | ending {p : Position} {gap : List Char} (blank : ∀ c ∈ gap, Text.isBlank c = true) :
      Lexed p gap [⟨gap, p.after gap, .ending, []⟩]
  | token {p : Position} {rest : List Char} {ts : List Token} (t : Token)
      (start : t.start = p.after t.gap) (blank : ∀ c ∈ t.gap, Text.isBlank c = true)
      (solid : ∀ c ∈ t.text.head?, Text.isBlank c = false) (lexes : Lexes t.kind t.text rest)
      (tail : Lexed t.stop rest ts) : Lexed p (t.gap ++ (t.text ++ rest)) (t :: ts)

theorem Lexer.lexed_tokens (l : Lexer) : Lexed l.position l.rest l.tokens := by
  apply tokens_induction (motive := Lexed)
  · intro p gap blank
    exact .ending blank
  · intro p gap c rest ts blank solid tail
    have hsolid : ∀ d ∈ (Scan.first c rest).text.head?, Text.isBlank d = false := by
      rw [Scan.head?_first]
      simpa using solid
    rw [← (Scan.fits_first c rest).append]
    exact .token ⟨_, _, _, _⟩ rfl blank hsolid (lexes_first c rest) tail

theorem Token.stop_eq (t : Token) {before : List Char}
    (start : t.start = (Position.origin.after before).after t.gap) :
    t.stop = Position.origin.after (before ++ (t.gap ++ t.text)) := by
  rw [stop, start, Position.after_append, Position.after_append]

namespace Lexed

variable {p : Position} {text : List Char} {ts : List Token}

/-- A text is read in one way only. -/
theorem eq_tokens (h : Lexed p text ts) : ts = (Lexer.mk p text).tokens := by
  induction h with
  | @ending p gap blank =>
      have hend : ∀ c ∈ ([] : List Char).head?, Text.isBlank c = false := by simp
      have htake := Scan.takeWhile_append_of_maximal blank hend
      have hdrop := Scan.dropWhile_append_of_maximal blank hend
      rw [List.append_nil] at htake hdrop
      simp [Lexer.tokens_eq, Lexer.next, htake, hdrop]
  | @token p rest ts t start blank solid lexes tail ih =>
      obtain ⟨c, word, htext⟩ := List.exists_cons_of_ne_nil lexes.ne_nil
      have hhead : ∀ d ∈ (t.text ++ rest).head?, Text.isBlank d = false := by
        rw [htext] at solid ⊢
        exact solid
      have htake := Scan.takeWhile_append_of_maximal blank hhead
      have hdrop := Scan.dropWhile_append_of_maximal blank hhead
      have hcons : t.text ++ rest = c :: (word ++ rest) := by rw [htext, List.cons_append]
      have hnext : (Lexer.mk p (t.gap ++ (t.text ++ rest))).next = (t, ⟨t.stop, rest⟩) := by
        simp only [Lexer.next]
        rw [htake, hdrop, hcons]
        simp only [lexes.first_eq hcons]
        rw [← start]
        rfl
      rw [Lexer.tokens_eq, hnext, if_neg lexes.ne_nil, ← ih]

theorem isBlank_of_mem_gap (h : Lexed p text ts) :
    ∀ t ∈ ts, ∀ c ∈ t.gap, Text.isBlank c = true := by
  induction h with
  | ending blank => simpa using blank
  | token t _ blank _ _ _ ih => exact List.forall_mem_cons.mpr ⟨blank, ih⟩

theorem flatMap_eq (h : Lexed p text ts) : ts.flatMap (fun t ↦ t.gap ++ t.text) = text := by
  induction h with
  | ending blank => simp
  | token t _ _ _ _ _ ih => rw [List.flatMap_cons, ih, List.append_assoc]

theorem lexes_of_mem (h : Lexed p text ts) {source before : List Char}
    (hsource : source = before ++ text) (hp : p = Position.origin.after before)
    (hparted : Parted before text) :
    ∀ t ∈ ts, t.kind ≠ .ending → ∃ ahead behind, source = ahead ++ (t.text ++ behind) ∧
      t.start = Position.origin.after ahead ∧ Lexes t.kind t.text behind ∧
      Parted ahead (t.text ++ behind) := by
  induction h generalizing before with
  | ending blank => simp
  | @token p rest ts t start blank solid lexes tail ih =>
      intro u hu hk
      rcases List.mem_cons.mp hu with rfl | hu
      · refine ⟨before ++ u.gap, rest, ?_, ?_, lexes, hparted.append_blank blank⟩
        · rw [hsource, List.append_assoc]
        · rw [start, hp, Position.after_append]
      · have hrest : source = before ++ (t.gap ++ t.text) ++ rest := by simp [hsource]
        have hbehind : Parted (before ++ (t.gap ++ t.text)) rest := by
          rw [← List.append_assoc]
          exact lexes.parted.append_left lexes.ne_nil _
        exact ih hrest (t.stop_eq (hp ▸ start)) hbehind u hu hk

end Lexed

theorem Token.lexed_ofSource (source : List Char) : Lexed .origin source (ofSource source) :=
  (Lexer.ofSource source).lexed_tokens

theorem Token.lexes_of_mem_ofSource {source : List Char} {t : Token} (ht : t ∈ ofSource source)
    (hk : t.kind ≠ .ending) :
    ∃ ahead behind, source = ahead ++ (t.text ++ behind) ∧ t.start = Position.origin.after ahead ∧
      Lexes t.kind t.text behind ∧ Parted ahead (t.text ++ behind) := by
  have hparted : Parted [] source := by simp [Parted]
  exact (lexed_ofSource source).lexes_of_mem (List.nil_append source).symm rfl hparted t ht hk

theorem Lexed.ofSource_eq {source : List Char} {ts : List Token} (h : Lexed .origin source ts) :
    Token.ofSource source = ts :=
  h.eq_tokens.symm

/-- A text that is one token. -/
theorem Lexes.ofSource_eq {kind : TokenKind} {text : List Char} (h : Lexes kind text [])
    (solid : ∀ c ∈ text.head?, Text.isBlank c = false) :
    Token.ofSource text =
      [⟨[], .origin, kind, text⟩, ⟨[], Position.origin.after text, .ending, []⟩] := by
  let alone : Token := ⟨[], .origin, kind, text⟩
  have hending : Lexed alone.stop [] [⟨[], alone.stop, .ending, []⟩] := .ending (by simp)
  have hlexed := Lexed.token alone rfl (by simp [alone]) solid h hending
  apply Lexed.ofSource_eq
  simpa [alone, Token.stop] using hlexed

/-- The tokens of a source are those of the lexical grammar, and the longest ones: no other row of
tokens reads the source, and where a token starts, no lexeme is longer. -/
theorem Token.lexes_ofSource (source : List Char) (ts : List Token) :
    (Lexed .origin source ts ↔ ofSource source = ts) ∧
      ∀ t ∈ ofSource source, t.kind ≠ .ending → ∃ ahead behind,
        source = ahead ++ (t.text ++ behind) ∧ t.start = Position.origin.after ahead ∧
        Lexes t.kind t.text behind ∧
        (∀ s, t.kind.spelling? = some s → t.text = s.toList) ∧
        (t.kind = .integer → ∀ c ∈ ahead.getLast?, c.isDigit = false) ∧
        ∀ kind text after, Lexeme kind text after → text <+: t.text ++ behind →
          text.length ≤ t.text.length := by
  constructor
  · constructor
    · exact Lexed.ofSource_eq
    · rintro rfl
      exact lexed_ofSource source
  · intro t ht hk
    obtain ⟨ahead, behind, hsource, hstart, hlexes, hparted⟩ :=
      lexes_of_mem_ofSource ht hk
    obtain ⟨c, text, htext⟩ := List.exists_cons_of_ne_nil hlexes.ne_nil
    have hcons : t.text ++ behind = c :: (text ++ behind) := by rw [htext, List.cons_append]
    have hfirst := hlexes.first_eq hcons
    refine ⟨ahead, behind, hsource, hstart, hlexes, ?_, ?_, ?_⟩
    · intro s hs
      exact ((stream_ofSource source).spells t ht).eq_of_spelling? hs
    · intro hinteger d hd
      rw [hinteger] at hlexes
      have hdigit : c.isDigit = true := hlexes.isDigit_of_integer c (by simp [htext])
      by_contra hbefore
      rw [Bool.not_eq_false] at hbefore
      have hafter := hparted d hd c (by simp [htext]) hbefore
      rw [hafter] at hdigit
      contradiction
    · rintro kind lexeme after hlexeme ⟨beyond, hbeyond⟩
      have hle := hlexeme.length_le_first (hbeyond.trans hcons)
      rwa [hfirst] at hle

/-- The end of a comment does not overlap its beginning. -/
theorem Token.lexes_ofSource_less_comment :
    ofSource "<(*)".toList =
        [⟨[], .origin, .terminal .less, ['<']⟩,
          ⟨[], ⟨1, ⟨0, 1⟩⟩, .blockComment false, ['(', '*', ')']⟩,
          ⟨[], ⟨4, ⟨0, 4⟩⟩, .ending, []⟩] ∧
      ∃ ahead behind, "<(*)".toList = ahead ++ (['<'] ++ behind) ∧
        Lexes (.terminal .less) ['<'] behind ∧
        ∀ kind text after, Lexeme kind text after → text <+: ['<'] ++ behind → text.length ≤ 1 := by
  let less : Token := ⟨[], .origin, .terminal .less, ['<']⟩
  let comment : Token := ⟨[], ⟨1, ⟨0, 1⟩⟩, .blockComment false, ['(', '*', ')']⟩
  have hless : Lexes less.kind less.text ['(', '*', ')'] :=
    .lexeme (.mark (t := .less) (by decide) (by simp [Terminal.continuations]))
  have hcomment : Lexes comment.kind comment.text [] :=
    .lexeme (.openComment (by decide : ¬ ['*', ')'] <:+: [')']))
  have hsolid : Text.isBlank '<' = false ∧ Text.isBlank '(' = false := by decide
  have hlexed : Lexed .origin "<(*)".toList [less, comment, ⟨[], ⟨4, ⟨0, 4⟩⟩, .ending, []⟩] :=
    .token less rfl (by simp [less]) (by simp [less, hsolid]) hless
      (.token comment rfl (by simp [comment]) (by simp [comment, hsolid]) hcomment
        (.ending (by simp)))
  have htokens := (lexes_ofSource _ _).1.mp hlexed
  obtain ⟨ahead, behind, hsource, -, hlexes, -, -, hlongest⟩ :=
    (lexes_ofSource "<(*)".toList []).2 less (htokens ▸ List.mem_cons_self) (by decide)
  exact ⟨htokens, ahead, behind, hsource, hlexes, hlongest⟩

end CoolTree
