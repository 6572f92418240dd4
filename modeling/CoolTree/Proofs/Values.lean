import CoolTree.Proofs.Literal

/-!
# Values of string literals

Any text without a NUL character can be written as a literal: a backslash in front of quotes and
backslashes, and an escape sequence for a line feed, keep every character of the text a pair of the
body that means it. No closed literal means a text with a NUL character, so these are all values.
-/

namespace CoolTree

namespace Body

/-- A character as it is written in a body. -/
def escapedChar (c : Char) : List Char :=
  if c = '\\' ∨ c = '"' then ['\\', c] else if c = '\n' then ['\\', 'n'] else [c]

/-- The body that a value is written as. -/
def escaped (value : List Char) : List Char :=
  value.flatMap escapedChar

theorem escapedChar_cases (c : Char) :
    (c = '\\' ∨ c = '"') ∧ escapedChar c = ['\\', c] ∨ c = '\n' ∧ escapedChar c = ['\\', 'n'] ∨
      (c ≠ '\\' ∧ c ≠ '"' ∧ c ≠ '\n') ∧ escapedChar c = [c] := by
  by_cases hpair : c = '\\' ∨ c = '"'
  · exact .inl ⟨hpair, by simp [escapedChar, hpair]⟩
  · by_cases hfeed : c = '\n'
    · exact .inr (.inl ⟨hfeed, by simp [escapedChar, hfeed]⟩)
    · obtain ⟨hback, hquote⟩ := not_or.mp hpair
      exact .inr (.inr ⟨⟨hback, hquote, hfeed⟩, by simp [escapedChar, hpair, hfeed]⟩)

theorem isPair_escapedChar (c : Char) : IsPair (escapedChar c) := by
  obtain ⟨-, hc⟩ | ⟨-, hc⟩ | ⟨hplain, hc⟩ := escapedChar_cases c
  · exact hc ▸ .backslash c
  · exact hc ▸ .backslash 'n'
  · rw [hc]
    exact .single hplain.1

theorem pairValue_escapedChar (c : Char) : pairValue (escapedChar c) = c := by
  obtain ⟨hpair, hc⟩ | ⟨hfeed, hc⟩ | ⟨hplain, hc⟩ := escapedChar_cases c
  · rw [hc]
    rcases hpair with rfl | rfl <;> rfl
  · rw [hc, hfeed]
    rfl
  · rw [hc, pairValue]
    simp

theorem not_mem_breaks_escapedChar {c : Char} (h : c ≠ '\x00') : escapedChar c ∉ breaks := by
  obtain ⟨hpair, hc⟩ | ⟨-, hc⟩ | ⟨hplain, hc⟩ := escapedChar_cases c
  · rw [hc]
    rcases hpair with rfl | rfl <;> decide
  · rw [hc]
    decide
  · rw [hc]
    obtain ⟨-, hquote, hfeed⟩ := hplain
    simp [breaks, hquote, hfeed, h]

/-- Every character of a value is one pair of the body. -/
theorem pairs_escaped (value : List Char) : pairs (escaped value) = value.map escapedChar := by
  induction value with
  | nil => rfl
  | cons c value ih =>
      rw [escaped, List.flatMap_cons, isPair_escapedChar c, ← escaped, ih, List.map_cons]

theorem unescape_escaped (value : List Char) : unescape (escaped value) = value := by
  rw [unescape_eq_map_pairs, pairs_escaped, List.map_map]
  have hvalue : pairValue ∘ escapedChar = id := funext pairValue_escapedChar
  rw [hvalue, List.map_id]

theorem ends_escaped {value : List Char} (h : '\x00' ∉ value) (behind : List Char) :
    Ends (escaped value) true behind where
  unbroken := by
    intro pair hpair
    rw [pairs_escaped] at hpair
    obtain ⟨c, hc, rfl⟩ := List.mem_map.mp hpair
    apply not_mem_breaks_escapedChar
    rintro rfl
    exact h hc
  behind_open := by simp
  lone := by
    intro hlone
    rw [pairs_escaped] at hlone
    obtain ⟨c, -, hc⟩ := List.mem_map.mp hlone
    exact ((isPair_escapedChar c).ne_lone hc).elim

theorem isPair_of_mem_pairs {text pair : List Char} (h : pair ∈ pairs text)
    (hlone : pair ≠ ['\\']) : IsPair pair := by
  induction text using pairs_induction with
  | nil => simp [pairs] at h
  | lone => exact (hlone (List.mem_singleton.mp h)).elim
  | append first rest hfirst ih =>
      rw [hfirst] at h
      rcases List.mem_cons.mp h with rfl | h
      · exact hfirst
      · exact ih h

theorem pairValue_ne_nul {pair : List Char} (hpair : IsPair pair) (h : pair ∉ breaks) :
    pairValue pair ≠ '\x00' := by
  intro hnul
  obtain ⟨c, rfl⟩ | ⟨c, hc, rfl⟩ := hpair.eq_cases
  · rw [pairValue] at hnul
    unfold unescapePair at hnul
    split at hnul <;> simp_all [breaks]
  · have hvalue : pairValue [c] = c := by simp [pairValue]
    rw [hvalue] at hnul
    simp [breaks, hnul] at h

/-- No closed body means a text with a NUL character. -/
theorem Ends.nul_not_mem {body behind : List Char} (h : Ends body true behind) :
    '\x00' ∉ unescape body := by
  rw [unescape_eq_map_pairs]
  intro hmem
  obtain ⟨pair, hpair, hnul⟩ := List.mem_map.mp hmem
  have hlone : pair ≠ ['\\'] := by
    rintro rfl
    exact absurd (h.lone hpair).1 (by simp)
  exact pairValue_ne_nul (isPair_of_mem_pairs hpair hlone) (h.unbroken pair hpair) hnul

end Body

namespace Token

/-- A closed body between quotes is one literal. -/
theorem ofSource_literal {body : List Char} (h : Body.Ends body true []) :
    ofSource ('"' :: body ++ ['"']) =
      [⟨[], .origin, .string (BodyPart.gather (Body.pairs body)) true, '"' :: body ++ ['"']⟩,
        ⟨[], Position.origin.after ('"' :: body ++ ['"']), .ending, []⟩] := by
  have hlexes : Lexes (.string (BodyPart.gather (Body.pairs body)) true)
      ('"' :: body ++ ['"']) [] :=
    .lexeme (.string (Body.divides_gather body) h)
  have hsolid : Text.isBlank '"' = false := by decide
  exact hlexes.ofSource_eq (by simp [hsolid])

theorem exists_value {source : List Char} {t : Token} (ht : t ∈ ofSource source)
    {parts : List BodyPart} (hkind : t.kind = .string parts true) :
    ∃ body, t.text = '"' :: body ++ ['"'] ∧ '\x00' ∉ unescape body := by
  obtain ⟨ahead, behind, -, -, hlexes, -⟩ := lexes_of_mem_ofSource ht (by simp [hkind])
  rw [hkind] at hlexes
  obtain ⟨body, htext, -, hends⟩ := hlexes.exists_body
  exact ⟨body, by simpa using htext, hends.nul_not_mem⟩

/-- The values of closed literals are the texts without a NUL character. Each of them is the value
of the literal that it is written as, which is read as one token. -/
theorem values_of_literals :
    (∀ value, unescape (Body.escaped value) = value) ∧
      (∀ value, '\x00' ∉ value →
        let text := '"' :: Body.escaped value ++ ['"']
        ∃ parts, ofSource text = [⟨[], .origin, .string parts true, text⟩,
          ⟨[], Position.origin.after text, .ending, []⟩]) ∧
      (∀ source, ∀ t ∈ ofSource source, ∀ parts, t.kind = .string parts true →
        ∃ body, t.text = '"' :: body ++ ['"'] ∧ '\x00' ∉ unescape body) ∧
      ∀ value, (∃ source, ∃ t ∈ ofSource source, ∃ parts body, t.kind = .string parts true ∧
        t.text = '"' :: body ++ ['"'] ∧ unescape body = value) ↔ '\x00' ∉ value := by
  have hwritten : ∀ value, '\x00' ∉ value →
      let text := '"' :: Body.escaped value ++ ['"']
      ∃ parts, ofSource text = [⟨[], .origin, .string parts true, text⟩,
        ⟨[], Position.origin.after text, .ending, []⟩] := by
    intro value hvalue
    exact ⟨_, ofSource_literal (Body.ends_escaped hvalue [])⟩
  refine ⟨Body.unescape_escaped, hwritten, fun _ _ ht _ ↦ exists_value ht, fun value ↦ ?_⟩
  constructor
  · rintro ⟨source, t, ht, parts, body, hkind, htext, rfl⟩
    obtain ⟨body', htext', hnul⟩ := exists_value ht hkind
    obtain rfl : body' = body := by simpa using htext'.symm.trans htext
    exact hnul
  · intro hvalue
    obtain ⟨parts, htokens⟩ := hwritten value hvalue
    refine ⟨_, _, htokens ▸ List.mem_cons_self, parts, Body.escaped value, rfl, rfl, ?_⟩
    exact Body.unescape_escaped value

/-- The backslash in front of the closing quote is one of a pair, and so is the one in front of the
letter. -/
theorem values_of_literals_backslashes :
    let value := ['\\', 'n', '"', '\n', '\\']
    let text := '"' :: Body.escaped value ++ ['"']
    text = "\"\\\\n\\\"\\n\\\\\"".toList ∧ unescape (Body.escaped value) = value ∧
      (∃ parts, ofSource text = [⟨[], .origin, .string parts true, text⟩,
        ⟨[], Position.origin.after text, .ending, []⟩]) ∧
      ¬ ∃ source, ∃ t ∈ ofSource source, ∃ parts body, t.kind = .string parts true ∧
        t.text = '"' :: body ++ ['"'] ∧ unescape body = ['\x00'] := by
  intro value text
  obtain ⟨hvalue, hwritten, -, hiff⟩ := values_of_literals
  refine ⟨by decide, hvalue value, hwritten value (by decide), ?_⟩
  rw [hiff]
  decide

end Token

end CoolTree
