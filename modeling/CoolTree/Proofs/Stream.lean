import CoolTree.Token.Stream
import Mathlib.Data.List.TakeWhile

/-!
# What the token stream says about its source

Reading never loses a character: the blanks and the texts of the tokens, one behind the other, are
the source, and each token starts where the text in front of it ends. Everything later modules
need to know about tokens follows from `Stream` by induction.
-/

namespace CoolTree

/-- The texts that a token of a kind can have. -/
def TokenKind.Spells : TokenKind → List Char → Prop
  | .terminal t, text => text = t.spelling.toList
  | .string parts closed, text =>
    text = '"' :: parts.flatMap BodyPart.text ++ (if closed then ['"'] else []) ∧
      ∀ part ∈ parts, part.text ≠ []
  | .ending, text => text = []
  | _, text => text ≠ []

namespace TokenKind

theorem Spells.ne_nil {k : TokenKind} {text : List Char} (h : k.Spells text) (hk : k ≠ .ending) :
    text ≠ [] := by
  cases k with
  | terminal t =>
      have hspelling : t.spelling.toList ≠ [] := by cases t <;> decide
      exact h ▸ hspelling
  | string parts closed =>
      rw [h.1]
      simp
  | ending => exact (hk rfl).elim
  | _ => exact h

theorem Spells.eq_of_spelling? {k : TokenKind} {text : List Char} (h : k.Spells text) {s : String}
    (hs : k.spelling? = some s) : text = s.toList := by
  cases k with
  | terminal t =>
      cases hs
      exact h
  | _ => simp [spelling?] at hs

end TokenKind

namespace Body

theorem flatMap_addContent (text : List Char) (parts : List BodyPart) :
    (BodyPart.addContent text parts).flatMap BodyPart.text =
      text ++ parts.flatMap BodyPart.text := by
  unfold BodyPart.addContent
  split <;> simp [BodyPart.text]

theorem ne_nil_of_mem_addContent {text : List Char} (htext : text ≠ []) {parts : List BodyPart}
    (h : ∀ part ∈ parts, part.text ≠ []) :
    ∀ part ∈ BodyPart.addContent text parts, part.text ≠ [] := by
  intro part hpart
  unfold BodyPart.addContent at hpart
  split at hpart
  · rcases List.mem_cons.mp hpart with rfl | hpart
    · simp [BodyPart.text, htext]
    · exact h part (List.mem_cons_of_mem _ hpart)
  · rcases List.mem_cons.mp hpart with rfl | hpart
    · simpa [BodyPart.text] using htext
    · exact h part hpart

theorem append_addContent (text : List Char) (b : Body) :
    (b.addContent text).text ++ ((if b.closed then ['"'] else []) ++ b.rest) =
      text ++ (b.text ++ ((if b.closed then ['"'] else []) ++ b.rest)) := by
  rw [← List.append_assoc text]
  exact congrArg (· ++ _) (flatMap_addContent text b.parts)

theorem text_read (text : List Char) :
    (read text).text ++ ((if (read text).closed then ['"'] else []) ++ (read text).rest) =
      text := by
  fun_induction read text with
  | case1 | case2 | case3 | case4 | case5 => simp [Body.text, BodyPart.text]
  | case6 c rest _ _ ih => exact congrArg (['\\', c] ++ ·) ih
  | case7 c rest _ _ ih => exact (append_addContent _ _).trans (congrArg (['\\', c] ++ ·) ih)
  | case8 c rest _ _ _ _ _ ih => exact (append_addContent _ _).trans (congrArg ([c] ++ ·) ih)

theorem ne_nil_of_mem_read (text : List Char) : ∀ part ∈ (read text).parts, part.text ≠ [] := by
  fun_induction read text with
  | case1 | case2 | case3 | case4 => simp
  | case5 => simp [BodyPart.text]
  | case6 c rest _ _ ih => simpa [addEscape, BodyPart.text] using ih
  | case7 c rest _ _ ih => exact ne_nil_of_mem_addContent (by simp) ih
  | case8 c rest _ _ _ _ _ ih => exact ne_nil_of_mem_addContent (by simp) ih

end Body

namespace Scan

theorem closeComment_append (inside text : List Char) :
    (closeComment inside text).1 ++ (closeComment inside text).2.2 = inside.reverse ++ text := by
  fun_induction closeComment inside text <;> simp_all

theorem closeComment_open {inside text : List Char} (h : (closeComment inside text).2.1 = false) :
    (closeComment inside text).2.2 = [] := by
  fun_induction closeComment inside text <;> simp_all

theorem run_append (kind : List Char → TokenKind) (belongs : Char → Bool) (text : List Char) :
    (run kind belongs text).text ++ (run kind belongs text).rest = text := by
  simp [run]

theorem run_text_ne_nil (kind : List Char → TokenKind) {belongs : Char → Bool} {c : Char}
    {rest : List Char} (h : belongs c = true) : (run kind belongs (c :: rest)).text ≠ [] := by
  simp [run, h]

theorem spelling_of_single {c : Char} {t : Terminal} (h : single? c = some t) :
    t.spelling.toList = [c] := by
  unfold single? at h
  split at h <;> first | contradiction | (cases h; rfl)

theorem spells_wordKind {word : List Char} (h : word ≠ []) : (wordKind word).Spells word := by
  unfold wordKind TokenKind.keyword?
  split
  · rename_i kind hkind
    split at hkind
    · cases hkind
      exact h
    · obtain ⟨t, ht, rfl⟩ := Option.map_eq_some_iff.mp hkind
      have hspelling : t.spelling = String.ofList word := by
        simpa using List.find?_some ht
      simp [TokenKind.Spells, hspelling]
  · split
    · exact h
    · split <;> exact h

theorem wordKind_ne_ending (word : List Char) : wordKind word ≠ .ending := by
  unfold wordKind TokenKind.keyword?
  split
  · rename_i kind hkind
    rintro rfl
    split at hkind <;> simp at hkind
  · split
    · simp
    · split <;> simp

theorem wordKind_ne_blockComment (word : List Char) (closed : Bool) :
    wordKind word ≠ .blockComment closed := by
  unfold wordKind TokenKind.keyword?
  split
  · rename_i kind hkind
    rintro rfl
    split at hkind <;> simp at hkind
  · split
    · simp
    · split <;> simp

/-- What a scan can be: it takes a text apart, its kind fits, and an unterminated comment leaves
nothing behind. -/
structure Fits (s : Scan) (text : List Char) : Prop where
  append : s.text ++ s.rest = text
  spells : s.kind.Spells s.text
  ne_ending : s.kind ≠ .ending
  open_rest : s.kind = .blockComment false → s.rest = []

theorem fits_blockComment (rest : List Char) : (blockComment rest).Fits ('(' :: '*' :: rest) where
  append := by simpa [blockComment] using closeComment_append [] rest
  spells := by simp [blockComment, TokenKind.Spells]
  ne_ending := by simp [blockComment]
  open_rest := by
    intro h
    exact closeComment_open (by simpa [blockComment] using h)

theorem fits_string (rest : List Char) : (string rest).Fits ('"' :: rest) where
  append := by
    have h := Body.text_read rest
    simpa [string] using h
  spells := by
    refine ⟨?_, Body.ne_nil_of_mem_read rest⟩
    simp [string, Body.text]
  ne_ending := by simp [string]
  open_rest := by simp [string]

theorem fits_run {kind : List Char → TokenKind} {belongs : Char → Bool} {c : Char}
    {rest : List Char} (h : belongs c = true)
    (hspells : ∀ word, word ≠ [] → (kind word).Spells word) (hending : ∀ word, kind word ≠ .ending)
    (hcomment : ∀ word, kind word ≠ .blockComment false) :
    (run kind belongs (c :: rest)).Fits (c :: rest) where
  append := run_append kind belongs (c :: rest)
  spells := hspells _ (run_text_ne_nil kind h)
  ne_ending := hending _
  open_rest := fun h ↦ (hcomment _ h).elim

theorem fits_terminal {t : Terminal} {text : List Char} (rest : List Char)
    (h : t.spelling.toList = text) : (Scan.mk (.terminal t) text rest).Fits (text ++ rest) where
  append := rfl
  spells := h.symm
  ne_ending := by simp
  open_rest := by simp

theorem fits_first (c : Char) (rest : List Char) : (first c rest).Fits (c :: rest) := by
  unfold first
  split
  · exact fits_blockComment _
  · exact fits_run (by decide) (fun _ h ↦ h) (by simp) (by simp)
  · exact fits_string _
  · exact fits_terminal _ rfl
  · exact fits_terminal _ rfl
  · exact fits_terminal _ rfl
  · split
    · exact fits_run ‹_› (fun _ h ↦ h) (by simp) (by simp)
    · split
      · exact fits_run (Text.continuesWord_of_startsWord ‹_›) (fun _ ↦ spells_wordKind)
          wordKind_ne_ending (fun word ↦ wordKind_ne_blockComment word false)
      · split
        · exact fits_terminal _ (spelling_of_single ‹_›)
        · exact ⟨rfl, by simp [TokenKind.Spells], by simp, by simp⟩

end Scan

/-- The tokens of a text that stands behind a position. The ending comes last, and an unterminated
comment leaves nothing to read. -/
inductive Stream : Position → List Char → List Token → Prop
  | ending (p : Position) (gap : List Char) : Stream p gap [⟨gap, p.after gap, .ending, []⟩]
  | token {p : Position} {rest : List Char} {ts : List Token} (t : Token)
      (start : t.start = p.after t.gap) (spells : t.kind.Spells t.text)
      (ne_ending : t.kind ≠ .ending) (open_rest : t.kind = .blockComment false → rest = [])
      (tail : Stream t.stop rest ts) : Stream p (t.gap ++ (t.text ++ rest)) (t :: ts)

namespace Lexer

theorem tokensOnto_eq (read : List Token) (l : Lexer) :
    l.tokensOnto read = read.reverse ++ l.tokens := by
  induction hn : l.rest.length using Nat.strongRecOn generalizing read l with
  | ind n ih =>
      unfold tokens
      rw [tokensOnto.eq_def, tokensOnto.eq_def []]
      by_cases more : l.next.1.text = []
      · simp [more]
      · have shorter := length_next more
        simp only [more, dite_false]
        rw [ih _ (hn ▸ shorter) (l.next.1 :: read) l.next.2 rfl,
          ih _ (hn ▸ shorter) [l.next.1] l.next.2 rfl]
        simp

theorem tokens_eq (l : Lexer) :
    l.tokens = if l.next.1.text = [] then [l.next.1] else l.next.1 :: l.next.2.tokens := by
  unfold tokens
  rw [tokensOnto.eq_def]
  by_cases more : l.next.1.text = []
  · simp [more]
  · simp only [more, dite_false, if_false]
    rw [tokensOnto_eq]
    simp [tokens]

/-- The tokens of a text are found from the front: the blanks in front of it, and if there is more,
what is scanned there. -/
theorem tokens_induction {motive : Position → List Char → List Token → Prop}
    (ending : ∀ p gap, (∀ c ∈ gap, Text.isBlank c = true) →
      motive p gap [⟨gap, p.after gap, .ending, []⟩])
    (token : ∀ p gap c rest ts, (∀ c ∈ gap, Text.isBlank c = true) → Text.isBlank c = false →
      motive ((p.after gap).after (Scan.first c rest).text) (Scan.first c rest).rest ts →
      motive p (gap ++ (c :: rest))
        (⟨gap, p.after gap, (Scan.first c rest).kind, (Scan.first c rest).text⟩ :: ts))
    (l : Lexer) :
    motive l.position l.rest l.tokens := by
  induction hn : l.rest.length using Nat.strongRecOn generalizing l with
  | ind n ih =>
      have hsplit := List.takeWhile_append_dropWhile (p := Text.isBlank) (l := l.rest)
      have hblank : ∀ c ∈ l.rest.takeWhile Text.isBlank, Text.isBlank c = true :=
        fun _ ↦ List.mem_takeWhile_imp
      rw [tokens_eq]
      cases hrest : l.rest.dropWhile Text.isBlank with
      | nil =>
          have hgap : l.rest.takeWhile Text.isBlank = l.rest := by simpa [hrest] using hsplit
          rw [hgap] at hblank
          simpa [next, hrest, hgap] using ending l.position l.rest hblank
      | cons c rest =>
          have hsolid : Text.isBlank c = false := by
            have hhead := List.head?_dropWhile_not Text.isBlank l.rest
            rwa [hrest] at hhead
          have hfits := Scan.fits_first c rest
          have htext := hfits.spells.ne_nil hfits.ne_ending
          have hnext : l.next.1.text ≠ [] := by simpa [next, hrest] using htext
          have htail := ih _ (hn ▸ length_next hnext) l.next.2 rfl
          rw [if_neg hnext, ← hsplit, hrest]
          simp only [next, hrest] at htail ⊢
          exact token _ _ _ _ _ hblank hsolid htail

theorem stream_tokens (l : Lexer) : Stream l.position l.rest l.tokens := by
  apply tokens_induction (motive := Stream)
  · intro p gap _
    exact .ending p gap
  · intro p gap c rest ts _ _ tail
    have hfits := Scan.fits_first c rest
    rw [← hfits.append]
    exact .token ⟨_, _, _, _⟩ rfl hfits.spells hfits.ne_ending hfits.open_rest tail

end Lexer

theorem Token.stream_ofSource (source : List Char) :
    Stream .origin source (Token.ofSource source) :=
  Lexer.stream_tokens (.ofSource source)

end CoolTree
