import CoolTree.Proofs.Lexed

/-!
# Tokens with other blanks between them

What a token is depends on its text and not on the blanks around it. The tokens of a source can be
laid out again with any blanks in front of each of them, as long as something blank keeps two
neighbours apart and a line feed ends a line comment: reading them gives the same kinds again.
A literal or a comment without its end is different. It may go on when something else stands behind
it, so nothing may.
-/

namespace CoolTree

namespace Text

theorem not_covers_of_isBlank {ranges : List Range}
    (hapart : (blankRanges.all fun r ↦
      (List.range' r.1 (r.2 + 1 - r.1)).all fun n ↦ !Range.covers ranges n) = true)
    {c : Char} (h : isBlank c = true) : Range.covers ranges c.toNat = false := by
  obtain ⟨r, hr, hlow, hhigh⟩ := Range.exists_of_covers h
  have hrange := List.all_eq_true.mp hapart r hr
  have hmem : c.toNat ∈ List.range' r.1 (r.2 + 1 - r.1) := by
    apply List.mem_range'_1.mpr
    omega
  simpa using List.all_eq_true.mp hrange c.toNat hmem

theorem continuesWord_of_isBlank {c : Char} (h : isBlank c = true) : continuesWord c = false := by
  have halphabetic : isAlphabetic c = false := not_covers_of_isBlank (by decide +kernel) h
  have hnumeric : isNumeric c = false := not_covers_of_isBlank (by decide +kernel) h
  have hunderscore : c ≠ '_' := by
    rintro rfl
    exact absurd h (by decide)
  simp [continuesWord, halphabetic, hnumeric, hunderscore]

end Text

theorem Terminal.isBlank_of_mem_continuations {t : Terminal} {c : Char}
    (h : c ∈ t.continuations) : Text.isBlank c = false := by
  have hsolid : t.continuations.all (fun c ↦ !Text.isBlank c) = true := by
    cases t <;> decide
  simpa using List.all_eq_true.mp hsolid c h

/-- Tokens that lack their end. -/
def TokenKind.isUnclosed : TokenKind → Bool
  | blockComment closed | string _ closed => !closed
  | _ => false

/-- What can stand behind a token of a kind whatever its text is: nothing or a blank, behind a line
comment nothing or a line feed, and behind a token that lacks its end nothing. -/
structure Separates (kind : TokenKind) (behind : List Char) : Prop where
  blank : ∀ c ∈ behind.head?, Text.isBlank c = true
  feed : kind = .lineComment → ∀ c ∈ behind.head?, c = '\n'
  unclosed : kind.isUnclosed = true → behind = []

namespace Separates

theorem nil (kind : TokenKind) : Separates kind [] :=
  ⟨by simp, by simp, by simp⟩

theorem feed_cons {kind : TokenKind} (h : kind.isUnclosed = false) (behind : List Char) :
    Separates kind ('\n' :: behind) := by
  refine ⟨?_, by simp, by simp [h]⟩
  intro c hc
  obtain rfl : '\n' = c := by simpa using hc
  decide

end Separates

theorem Lexeme.respace {kind : TokenKind} {text behind after : List Char}
    (h : Lexeme kind text behind) (hafter : Separates kind after) : Lexeme kind text after := by
  cases h with
  | mark mem apart =>
      apply Lexeme.mark mem
      intro c hc hcontinues
      have hsolid := Terminal.isBlank_of_mem_continuations hcontinues
      rw [hafter.blank c hc] at hsolid
      contradiction
  | word starts continues maximal names =>
      apply Lexeme.word starts continues _ names
      intro d hd
      exact Text.continuesWord_of_isBlank (hafter.blank d hd)
  | integer ne_nil digits maximal =>
      apply Lexeme.integer ne_nil digits
      intro d hd
      by_contra hdigit
      have hsolid := Text.isBlank_of_isDigit (by simpa using hdigit)
      rw [hafter.blank d hd] at hsolid
      contradiction
  | lineComment single maximal => exact .lineComment single (hafter.feed rfl)
  | comment closed shortest => exact .comment closed (IsComment.shortest_append shortest after)
  | openComment unclosed =>
      obtain rfl := hafter.unclosed rfl
      exact .openComment unclosed
  | @string parts body _ closed divides ends =>
      cases closed with
      | true => exact .string divides (ends.of_closed after)
      | false =>
          obtain rfl := hafter.unclosed rfl
          refine .string divides ⟨ends.unbroken, by simp, fun _ ↦ ⟨rfl, by simp⟩⟩

namespace Lexes

variable {kind : TokenKind} {text behind after : List Char}

theorem respace (h : Lexes kind text behind) (hafter : Separates kind after) :
    Lexes kind text after := by
  cases h with
  | lexeme lexeme => exact .lexeme (lexeme.respace hafter)
  | unknown none => exact .unknown none

theorem fits (h : Lexes kind text behind) :
    (Scan.mk kind text behind).Fits (text ++ behind) := by
  obtain ⟨c, word, htext⟩ := List.exists_cons_of_ne_nil h.ne_nil
  have hcons : text ++ behind = c :: (word ++ behind) := by rw [htext, List.cons_append]
  have hfits := Scan.fits_first c (word ++ behind)
  rwa [h.first_eq hcons, ← hcons] at hfits

theorem ne_ending (h : Lexes kind text behind) : kind ≠ .ending :=
  h.fits.ne_ending

theorem isUnclosed_eq_false (h : Lexes kind text behind) (hbehind : behind ≠ [])
    (hstring : ∀ parts, kind ≠ .string parts false) : kind.isUnclosed = false := by
  have hopen := h.fits.open_rest
  cases kind with
  | blockComment closed =>
      cases closed with
      | true => rfl
      | false => exact (hbehind (hopen rfl)).elim
  | string parts closed =>
      cases closed with
      | true => rfl
      | false => exact (hstring parts rfl).elim
  | _ => rfl

end Lexes

/-- A text in which tokens stand one behind the other, with any blanks in front of each of them
that keep them apart. -/
inductive Respaced : List Token → List Char → Prop
  | ending {t : Token} {gap : List Char} (empty : t.text = [])
      (blank : ∀ c ∈ gap, Text.isBlank c = true) : Respaced [t] gap
  | token {t : Token} {ts : List Token} {gap behind : List Char}
      (blank : ∀ c ∈ gap, Text.isBlank c = true) (separates : Separates t.kind behind)
      (tail : Respaced ts behind) : Respaced (t :: ts) (gap ++ (t.text ++ behind))

theorem Respaced.prepend {ts : List Token} {text gap : List Char} (h : Respaced ts text)
    (hgap : ∀ c ∈ gap, Text.isBlank c = true) : Respaced ts (gap ++ text) := by
  cases h with
  | @ending t before empty blank =>
      apply Respaced.ending empty
      exact List.forall_mem_append.mpr ⟨hgap, blank⟩
  | @token t ts before behind blank separates tail =>
      rw [← List.append_assoc]
      apply Respaced.token _ separates tail
      exact List.forall_mem_append.mpr ⟨hgap, blank⟩

namespace Lexed

variable {p : Position} {text : List Char} {ts : List Token}

theorem solid_of_mem (h : Lexed p text ts) :
    ∀ t ∈ ts, ∀ c ∈ t.text.head?, Text.isBlank c = false := by
  induction h with
  | ending blank => simp
  | token t _ _ solid _ _ ih => exact List.forall_mem_cons.mpr ⟨solid, ih⟩

/-- Tokens that are laid out again are read again, one by one. -/
theorem respace (h : Lexed p text ts) {text' : List Char} (htext : Respaced ts text')
    (p' : Position) :
    ∃ ts', Lexed p' text' ts' ∧ ts'.map Token.kind = ts.map Token.kind ∧
      ts'.map Token.text = ts.map Token.text := by
  induction h generalizing text' p' with
  | ending blank =>
      cases htext with
      | ending empty hgap => exact ⟨_, .ending hgap, rfl, rfl⟩
      | token hgap separates tail => cases tail
  | @token p rest ts t start blank solid lexes tail ih =>
      cases htext with
      | ending empty hgap => exact (lexes.ne_nil empty).elim
      | @token _ _ gap behind hgap separates htail =>
          let t' : Token := ⟨gap, p'.after gap, t.kind, t.text⟩
          obtain ⟨ts', hlexed, hkinds, htexts⟩ := ih htail t'.stop
          have hlexes : Lexes t'.kind t'.text behind := lexes.respace separates
          refine ⟨t' :: ts', .token t' rfl hgap solid hlexes hlexed, ?_, ?_⟩
          · rw [List.map_cons, List.map_cons, hkinds]
          · rw [List.map_cons, List.map_cons, htexts]

end Lexed

namespace Token

/-- The texts of the tokens in front of the ending, with a line feed between neighbours. -/
def joined (ts : List Token) : List Char :=
  ['\n'].intercalate ((ts.filter (·.kind != .ending)).map text)

theorem joined_cons {t u : Token} {ts : List Token} (ht : t.kind ≠ .ending)
    (hu : u.kind ≠ .ending) :
    joined (t :: u :: ts) = t.text ++ ('\n' :: joined (u :: ts)) := by
  simp [joined, ht, hu, List.intercalate_cons_cons]

end Token

theorem Lexed.respaced_joined {p : Position} {text : List Char} {ts : List Token}
    (h : Lexed p text ts) (hclosed : ∀ t ∈ ts, ∀ parts, t.kind ≠ .string parts false) :
    Respaced ts (Token.joined ts) := by
  induction h with
  | ending blank => exact .ending rfl (by simp [Token.joined])
  | @token p rest ts t start blank solid lexes tail ih =>
      obtain ⟨ht, hts⟩ := List.forall_mem_cons.mp hclosed
      have hlater := ih hts
      cases tail with
      | @ending _ gap blank =>
          have halone : Respaced _ ([] ++ (t.text ++ [])) := .token (by simp) (.nil t.kind) hlater
          simpa [Token.joined, lexes.ne_ending] using halone
      | token u _ _ _ hu _ =>
          have hopen := lexes.isUnclosed_eq_false (by simp [hu.ne_nil]) ht
          have hblank : Text.isBlank '\n' = true := by decide
          have hfeed : ∀ c ∈ ['\n'], Text.isBlank c = true := by simp [hblank]
          rw [Token.joined_cons lexes.ne_ending hu.ne_ending, ← List.nil_append (t.text ++ _)]
          apply Respaced.token (by simp) (.feed_cons hopen _)
          exact hlater.prepend hfeed

namespace Token

variable {source : List Char}

/-- A token is read from its text alone. -/
theorem ofSource_text {t : Token} (ht : t ∈ ofSource source) (hk : t.kind ≠ .ending) :
    ofSource t.text = [⟨[], .origin, t.kind, t.text⟩,
      ⟨[], Position.origin.after t.text, .ending, []⟩] := by
  have hsolid := (lexed_ofSource source).solid_of_mem t ht
  obtain ⟨ahead, behind, -, -, hlexes, -⟩ := lexes_of_mem_ofSource ht hk
  exact (hlexes.respace (.nil t.kind)).ofSource_eq hsolid

/-- The kind of a token is told by its text, wherever it stands. -/
theorem kind_eq_of_text_eq {source' : List Char} {t t' : Token} (ht : t ∈ ofSource source)
    (ht' : t' ∈ ofSource source') (htext : t'.text = t.text) : t'.kind = t.kind := by
  have hspells := (stream_ofSource source).spells t ht
  have hspells' := (stream_ofSource source').spells t' ht'
  by_cases hk : t.kind = .ending
  · rw [hk]
    rw [hk] at hspells
    by_contra hk'
    exact hspells'.ne_nil hk' (htext.trans hspells)
  · have hk' : t'.kind ≠ .ending := by
      intro hending
      rw [hending] at hspells'
      exact hspells.ne_nil hk (htext.symm.trans hspells')
    have halone := ofSource_text ht' hk'
    rw [htext, ofSource_text ht hk] at halone
    have hfirst := (List.cons.inj halone).1
    exact (congrArg kind hfirst).symm

/-- Tokens outlive a new layout. Joined by line feeds they are read as the same kinds, with the same
parts of literals, and so are they with any other blanks that keep them apart. It is the text of a
token that says what kind it is, in whatever source it stands. -/
theorem kinds_of_respaced (source : List Char)
    (hclosed : ∀ t ∈ ofSource source, ∀ parts, t.kind ≠ .string parts false) :
    (ofSource (joined (ofSource source))).map kind = (ofSource source).map kind ∧
      (ofSource (joined (ofSource source))).map text = (ofSource source).map text ∧
      (∀ laid, Respaced (ofSource source) laid →
        (ofSource laid).map kind = (ofSource source).map kind ∧
          (ofSource laid).map text = (ofSource source).map text) ∧
      ∀ t ∈ ofSource source, ∀ source', ∀ t' ∈ ofSource source', t'.text = t.text →
        t'.kind = t.kind := by
  have hlexed := lexed_ofSource source
  have hlaid : ∀ laid, Respaced (ofSource source) laid →
      (ofSource laid).map kind = (ofSource source).map kind ∧
        (ofSource laid).map text = (ofSource source).map text := by
    intro laid hrespaced
    obtain ⟨ts, hts, hkinds, htexts⟩ := hlexed.respace hrespaced .origin
    rw [hts.ofSource_eq]
    exact ⟨hkinds, htexts⟩
  obtain ⟨hkinds, htexts⟩ := hlaid _ (hlexed.respaced_joined hclosed)
  refine ⟨hkinds, htexts, hlaid, ?_⟩
  intro t ht source' t' ht' htext
  exact kind_eq_of_text_eq ht ht' htext

/-- Without its comment in between, the first two marks would be one. -/
theorem kinds_of_respaced_marks :
    let source := "<(**)-\"\\n\"12ab--x".toList
    (∀ t ∈ ofSource source, ∀ parts, t.kind ≠ .string parts false) ∧
      joined (ofSource source) = "<\n(**)\n-\n\"\\n\"\n12\nab\n--x".toList ∧
      (ofSource (joined (ofSource source))).map kind =
        [.terminal .less, .blockComment true, .terminal .minus, .string [.escape 'n'] true,
          .integer, .identifier, .lineComment, .ending] := by
  intro source
  have hkinds : (ofSource source).map kind =
      [.terminal .less, .blockComment true, .terminal .minus, .string [.escape 'n'] true,
        .integer, .identifier, .lineComment, .ending] := by decide +kernel
  have hclosed : ∀ t ∈ ofSource source, ∀ parts, t.kind ≠ .string parts false := by
    intro t ht parts hopen
    have hmem := List.mem_map_of_mem (f := kind) ht
    rw [hkinds, hopen] at hmem
    simp at hmem
  exact ⟨hclosed, by decide +kernel, (kinds_of_respaced source hclosed).1.trans hkinds⟩

/-- A literal that broke off behind a backslash goes on when a line feed stands behind it. -/
example :
    (ofSource (joined (ofSource ['"', '\\', '\x00']))).map kind ≠
      (ofSource ['"', '\\', '\x00']).map kind := by
  decide +kernel

end Token

end CoolTree
