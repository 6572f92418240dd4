import CoolTree.Proofs.Lexed

/-!
# String literals

The parts of a string literal and its value are two readings of one body. Both take it in backslash
pairs, so an escape sequence of the one is a pair of the other, and the value of the body is that of
its parts, one behind the other.
-/

namespace CoolTree

namespace Body

variable {parts : List BodyPart} {body behind : List Char} {closed : Bool}

theorem Divides.isEscape_iff (h : Divides parts body) {part : BodyPart} (hpart : part ∈ parts) :
    part.isEscape = true ↔ part.text ∈ escapes := by
  cases part with
  | escape c => exact ⟨fun _ ↦ h.escape c hpart, fun _ ↦ rfl⟩
  | content run =>
      refine ⟨nofun, fun hmem ↦ ?_⟩
      obtain ⟨c, hrun⟩ := exists_eq_of_mem_escapes hmem
      have hpairs : pairs run = [['\\', c]] := by rw [show run = ['\\', c] from hrun]; rfl
      have hfree := h.content run hpart ['\\', c] (by simp [hpairs])
      exact (hfree (hrun ▸ hmem)).elim

theorem Divides.unescape_eq (h : Divides parts body) :
    unescape body = parts.flatMap fun part ↦ unescape part.text := by
  rw [unescape_eq_map_pairs, h.pairs_text, List.map_flatMap]
  simp only [unescape_eq_map_pairs]

theorem exists_unescape_of_isEscape {part : BodyPart} (h : part.isEscape = true) :
    ∃ c, unescape part.text = [c] := by
  cases part with
  | content run => simp [BodyPart.isEscape] at h
  | escape c => exact ⟨unescapePair c, rfl⟩

/-- A body is closed where its last pair is a quote. -/
theorem Ends.closed_iff (h : Ends body closed behind) :
    closed = true ↔
      (pairs (body ++ if closed then ['"'] else [])).getLast? = some ['"'] := by
  cases closed with
  | true =>
      have hwhole : ['\\'] ∉ pairs body := fun hmem ↦ absurd (h.lone hmem).1 (by simp)
      rw [if_pos rfl, pairs_append hwhole, List.getLast?_append]
      simp [pairs]
  | false =>
      simp only [Bool.false_eq_true, if_false, List.append_nil, false_iff]
      intro hlast
      exact h.unbroken _ (List.mem_of_getLast? hlast) (by simp [breaks])

end Body

theorem Lexes.exists_body {parts : List BodyPart} {closed : Bool} {text behind : List Char}
    (h : Lexes (.string parts closed) text behind) :
    ∃ body, text = '"' :: body ++ (if closed then ['"'] else []) ∧ Body.Divides parts body ∧
      Body.Ends body closed behind := by
  cases h with
  | lexeme lexeme =>
      cases lexeme with
      | string divides ends => exact ⟨_, rfl, divides, ends⟩
      | word starts continues maximal names =>
          rcases names.kind_cases with ⟨t, -, -, hkind⟩ | hkind <;> simp at hkind

/-- A string literal is divided into runs and escape sequences, and these and no others are the
escape sequences that its value is read with. It is closed where its last pair is a quote, the
opening one left out, and otherwise breaks off in front of a character that it cannot hold. -/
theorem Token.literal_of_mem_ofSource {source : List Char} {t : Token} (ht : t ∈ ofSource source)
    {parts : List BodyPart} {closed : Bool} (hkind : t.kind = .string parts closed) :
    ∃ body ahead behind,
      source = ahead ++ (t.text ++ behind) ∧ t.start = Position.origin.after ahead ∧
      t.text = '"' :: body ++ (if closed then ['"'] else []) ∧
      parts.flatMap BodyPart.text = body ∧ (∀ part ∈ parts, part.text ≠ []) ∧
      (parts.IsChain fun a b ↦ a.isEscape = true ∨ b.isEscape = true) ∧
      (∀ part ∈ parts, part.isEscape = true ↔ part.text ∈ Body.escapes) ∧
      (Body.pairs body = parts.flatMap fun part ↦ Body.pairs part.text) ∧
      (∀ run, .content run ∈ parts → ∀ pair ∈ Body.pairs run, pair ∉ Body.escapes) ∧
      (closed = true ↔ (Body.pairs t.text.tail).getLast? = some ['"']) ∧
      (closed = false → ∀ c ∈ behind.head?, c = '\n' ∨ c = '\x00') ∧
      (unescape body = parts.flatMap fun part ↦ unescape part.text) ∧
      ∀ part ∈ parts, part.isEscape = true → ∃ c, unescape part.text = [c] := by
  have hne : t.kind ≠ .ending := by simp [hkind]
  obtain ⟨ahead, behind, hsource, hstart, hlexes, -⟩ := lexes_of_mem_ofSource ht hne
  rw [hkind] at hlexes
  obtain ⟨body, htext, hdivides, hends⟩ := hlexes.exists_body
  refine ⟨body, ahead, behind, hsource, hstart, htext, hdivides.flatMap_text, hdivides.ne_nil,
    hdivides.apart, fun part ↦ hdivides.isEscape_iff, hdivides.pairs_text, hdivides.content, ?_,
    hends.behind_open, hdivides.unescape_eq, fun part _ ↦ Body.exists_unescape_of_isEscape⟩
  rw [htext]
  exact hends.closed_iff

/-- Of three backslashes the last one escapes the quote, which then does not close the literal. -/
theorem Token.literal_of_mem_ofSource_open :
    ∃ t ∈ ofSource "\"\\\\\\\"x".toList,
      t.kind = .string [.content ['\\', '\\'], .escape '"', .content ['x']] false ∧
        ∃ body, t.text = '"' :: body ∧ unescape body = ['\\', '"', 'x'] := by
  let body := ['\\', '\\', '\\', '"', 'x']
  let parts : List BodyPart := [.content ['\\', '\\'], .escape '"', .content ['x']]
  let t : Token := ⟨[], .origin, .string parts false, '"' :: body⟩
  have hdivides : Body.Divides parts body := Body.divides_gather body
  have hends : Body.Ends body false [] := ⟨by decide, by simp, by decide⟩
  have hlexes : Lexes t.kind t.text [] := .lexeme (.string hdivides hends)
  have hsolid : Text.isBlank '"' = false := by decide
  have hlexed := Lexed.token t rfl (by simp [t]) (by simp [t, hsolid]) hlexes (.ending (by simp))
  have htokens : ofSource "\"\\\\\\\"x".toList = _ := Lexed.ofSource_eq hlexed
  have ht : t ∈ ofSource "\"\\\\\\\"x".toList := htokens ▸ List.mem_cons_self
  obtain ⟨body, ahead, behind, -, -, htext, -, -, -, -, -, -, -, -, hvalue, -⟩ :=
    literal_of_mem_ofSource ht rfl
  refine ⟨t, ht, rfl, body, ?_, hvalue⟩
  simpa using htext

end CoolTree
