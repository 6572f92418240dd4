import CoolTree.Console.Highlight
import CoolTree.Proofs.Deletion
import CoolTree.Proofs.Lexed

/-!
# Highlighting inserts codes and nothing else

A line is highlighted by copying it in slices: for each token that has a color, what stands between
the last such token and this one, and then the token between its codes. All slices fit the line, and
what comes out is the line with codes at both ends of these tokens. Taking the codes out again gives
back the line, unless it has escape characters of its own.
-/

namespace CoolTree.Highlight

/-- A token as it is shown, with the blanks in front of it. -/
def showToken (t : Token) : List Char :=
  match color? t.kind with
  | none => t.gap ++ t.text
  | some color => t.gap ++ color.code.toList ++ t.text ++ reset.toList

def isColored (line : List Char) : Bool :=
  (Token.ofSource line).any fun t ↦ (color? t.kind).isSome

/-- A line as it is shown, token by token. -/
def highlight (line : List Char) : List Char :=
  (Token.ofSource line).flatMap showToken

namespace Copy

/-- A copy of the text in front of a token, of which a part may be pending. -/
def Shows (s : Copy) (ahead shown : List Char) : Prop :=
  ∃ done pending, ahead = done ++ pending ∧ s.copied = Source.byteLength done ∧
    s.output ++ pending = shown

variable {line ahead shown : List Char} {s : Copy}

theorem step {t : Token} {rest : List Char} (hs : s.Shows ahead shown)
    (hline : line = ahead ++ (t.gap ++ (t.text ++ rest)))
    (hstart : t.start = Position.origin.after (ahead ++ t.gap)) :
    ∃ s', s.step? line t = some s' ∧
      s'.Shows (ahead ++ (t.gap ++ t.text)) (shown ++ showToken t) ∧
      s'.colored = (s.colored || (color? t.kind).isSome) := by
  obtain ⟨done, pending, rfl, hcopied, rfl⟩ := hs
  cases hcolor : color? t.kind with
  | none =>
      refine ⟨s, by simp [step?, hcolor], ?_, by simp⟩
      exact ⟨done, pending ++ (t.gap ++ t.text), by simp, hcopied, by simp [showToken, hcolor]⟩
  | some color =>
      -- What is pending is copied in one slice with the gap of this token.
      have hlow : t.start.offset =
          Source.byteLength done + Source.byteLength (pending ++ t.gap) := by
        simp [hstart, Position.offset_after, Position.origin, Nat.add_assoc]
      have hbetween : Source.slice? line s.copied t.start.offset = some (pending ++ t.gap) := by
        have hsplit : line = done ++ ((pending ++ t.gap) ++ (t.text ++ rest)) := by simp [hline]
        rw [hsplit, hcopied, hlow, Source.slice?_append]
      have htext : Source.slice? line t.start.offset t.stop.offset = some t.text := by
        apply Span.Shows.slice?_eq (s := t.span)
        exact ⟨done ++ pending ++ t.gap, rest, by simp [hline], hstart, rfl⟩
      let colored := color.code.toList ++ t.text ++ reset.toList
      refine ⟨⟨s.output ++ (pending ++ t.gap) ++ colored, t.stop.offset, true⟩, ?_, ?_, by simp⟩
      · simp [step?, hcolor, hbetween, htext, colored]
      · refine ⟨done ++ pending ++ (t.gap ++ t.text), [], by simp, ?_, ?_⟩
        · simp [Token.stop, hstart, Position.offset_after, Position.origin, Nat.add_assoc]
        · simp [showToken, hcolor, colored]

/-- The loop never fails, and it puts out all tokens as they are shown. -/
theorem run {p : Position} {text : List Char} {ts : List Token} (h : Stream p text ts)
    (hs : s.Shows ahead shown) (hline : line = ahead ++ text)
    (hp : p = Position.origin.after ahead) :
    ∃ s', ts.foldlM (step? line) s = some s' ∧
      s'.Shows line (shown ++ ts.flatMap showToken) ∧
      s'.colored = (s.colored || ts.any fun t ↦ (color? t.kind).isSome) := by
  induction h generalizing s ahead shown with
  | ending p gap =>
      -- The ending is a token as well: it has no color, so its gap stays pending.
      let last : Token := ⟨gap, p.after gap, .ending, []⟩
      have hlast : line = ahead ++ (last.gap ++ (last.text ++ [])) := by simp [hline, last]
      obtain ⟨s', hstep, hshows, hcolored⟩ := step hs hlast (by simp [last, hp])
      refine ⟨s', by simpa [last] using hstep, ?_, by simpa [last] using hcolored⟩
      simpa [last, hline] using hshows
  | @token p rest ts t hstart _ _ _ _ ih =>
      obtain ⟨s₁, hstep, hshows, hcolored⟩ := step hs hline (by simp [hstart, hp])
      have hrest : line = ahead ++ (t.gap ++ t.text) ++ rest := by simp [hline]
      have hstop : t.stop = Position.origin.after (ahead ++ (t.gap ++ t.text)) := by
        simp [Token.stop, hstart, hp]
      obtain ⟨s', hrun, hshows', hcolored'⟩ := ih hshows hrest hstop
      refine ⟨s', ?_, ?_, ?_⟩
      · rw [List.foldlM_cons, hstep]
        exact hrun
      · simpa using hshows'
      · rw [hcolored', hcolored, List.any_cons, Bool.or_assoc]

theorem finish?_eq (hs : s.Shows line shown) :
    s.finish? line = some (if s.colored then .changed shown else .unchanged) := by
  obtain ⟨done, pending, rfl, hcopied, rfl⟩ := hs
  cases hcolored : s.colored with
  | false => simp [finish?, hcolored]
  | true =>
      have hslice := Source.slice?_append done pending []
      rw [List.append_nil] at hslice
      simp [finish?, hcolored, hcopied, hslice]

end Copy

theorem answer?_eq (line : List Char) :
    answer? line = some (if isColored line then .changed (highlight line) else .unchanged) := by
  have hstart : Copy.Shows {} [] [] := ⟨[], [], rfl, rfl, rfl⟩
  obtain ⟨s, hrun, hshows, hcolored⟩ :=
    Copy.run (Token.stream_ofSource line) hstart (List.nil_append line).symm rfl
  have hfinish := Copy.finish?_eq hshows
  rw [answer?, hrun]
  simpa [hcolored, isColored, highlight] using hfinish

/-- A code that stands in front of a byte of a line. -/
structure Mark where
  offset : Nat
  code : List Char

/-- Where a token has its codes: its color at the start and the reset at the end. -/
def marks (t : Token) : List Mark :=
  match color? t.kind with
  | none => []
  | some color => [⟨t.start.offset, color.code.toList⟩, ⟨t.stop.offset, reset.toList⟩]

def codesAt (ms : List Mark) (offset : Nat) : List Char :=
  (ms.filter (·.offset == offset)).flatMap Mark.code

/-- A text that starts at an offset, with codes in front of its characters and behind the last
one. -/
def inserted (ms : List Mark) (offset : Nat) : List Char → List Char
  | [] => codesAt ms offset
  | c :: text => codesAt ms offset ++ c :: inserted ms (offset + c.utf8Size) text

section Insertion

variable {ms ns : List Mark} {offset : Nat}

@[simp] theorem codesAt_nil (offset : Nat) : codesAt [] offset = [] := rfl

@[simp] theorem codesAt_append (ms ns : List Mark) (offset : Nat) :
    codesAt (ms ++ ns) offset = codesAt ms offset ++ codesAt ns offset := by
  simp [codesAt]

theorem codesAt_of_ne (h : ∀ m ∈ ms, m.offset ≠ offset) : codesAt ms offset = [] := by
  have hnone : ms.filter (·.offset == offset) = [] := by
    apply List.filter_eq_nil_iff.mpr
    intro m hm
    simpa using h m hm
  rw [codesAt, hnone, List.flatMap_nil]

@[simp] theorem inserted_nil (offset : Nat) (text : List Char) :
    inserted [] offset text = text := by
  induction text generalizing offset with
  | nil => rfl
  | cons c text ih => simp [inserted, ih]

/-- Codes in front of a text stand at its first character. -/
theorem inserted_of_le (h : ∀ m ∈ ms, m.offset ≤ offset) (text : List Char) :
    inserted (ms ++ ns) offset text = codesAt ms offset ++ inserted ns offset text := by
  have hlater : ∀ later, offset < later → codesAt ms later = [] := by
    intro later hlt
    apply codesAt_of_ne
    intro m hm
    have := h m hm
    omega
  have hgone : ∀ later text, offset < later →
      inserted (ms ++ ns) later text = inserted ns later text := by
    intro later text hlt
    induction text generalizing later with
    | nil => simp [inserted, hlater later hlt]
    | cons c text ih => simp [inserted, hlater later hlt, ih (later + c.utf8Size) (by omega)]
  cases text with
  | nil => simp [inserted]
  | cons c text =>
      have hnext : offset < offset + c.utf8Size := Nat.lt_add_of_pos_right c.utf8Size_pos
      simp [inserted, hgone _ text hnext]

/-- Where one text ends and another one starts, the codes of the first one stand first. -/
theorem inserted_append {text : List Char}
    (hms : ∀ m ∈ ms, m.offset ≤ offset + Source.byteLength text)
    (hns : ∀ n ∈ ns, offset + Source.byteLength text ≤ n.offset) (behind : List Char) :
    inserted (ms ++ ns) offset (text ++ behind) =
      inserted ms offset text ++ inserted ns (offset + Source.byteLength text) behind := by
  induction text generalizing offset with
  | nil => exact inserted_of_le hms behind
  | cons c text ih =>
      rw [Source.byteLength_cons, ← Nat.add_assoc] at hms hns ⊢
      have hnone : codesAt ns offset = [] := by
        apply codesAt_of_ne
        intro n hn
        have hle := hns n hn
        have hpos := c.utf8Size_pos
        omega
      simp [inserted, hnone, ih hms hns]

theorem inserted_marks_token (t : Token) :
    inserted (marks t) t.start.offset t.text =
      match color? t.kind with
      | none => t.text
      | some color => color.code.toList ++ t.text ++ reset.toList := by
  have hstop : t.stop.offset = t.start.offset + Source.byteLength t.text :=
    Position.offset_after t.start t.text
  cases hcolor : color? t.kind with
  | none => simp [marks, hcolor]
  | some color =>
      let front : Mark := ⟨t.start.offset, color.code.toList⟩
      let back : Mark := ⟨t.stop.offset, reset.toList⟩
      have hmarks : marks t = [front] ++ ([] ++ [back]) := by simp [marks, hcolor, front, back]
      have hback : inserted ([] ++ [back]) t.start.offset (t.text ++ []) =
          t.text ++ reset.toList := by
        rw [inserted_append (by simp) (by simp [back, hstop])]
        simp [inserted, codesAt, back, hstop]
      rw [hmarks, inserted_of_le (by simp [front]), ← List.append_nil t.text, hback]
      simp [codesAt, front]

theorem bounds_of_mem_marks {t : Token} {m : Mark} (h : m ∈ marks t) :
    t.start.offset ≤ m.offset ∧ m.offset ≤ t.stop.offset := by
  have hle : t.start.offset ≤ t.stop.offset := Position.offset_le_after t.start t.text
  unfold marks at h
  split at h
  · simp at h
  · simp only [List.mem_cons, List.not_mem_nil, or_false] at h
    rcases h with rfl | rfl
    · exact ⟨le_rfl, hle⟩
    · exact ⟨hle, le_rfl⟩

theorem inserted_marks {p : Position} {text : List Char} {ts : List Token}
    (h : Stream p text ts) :
    inserted (ts.flatMap marks) p.offset text = ts.flatMap showToken := by
  induction h with
  | ending p gap => simp [marks, color?, showToken]
  | @token p rest ts t hstart _ _ _ tail ih =>
      have hlow : p.offset + Source.byteLength t.gap = t.start.offset :=
        hstart ▸ (Position.offset_after p t.gap).symm
      have hhigh : t.start.offset + Source.byteLength t.text = t.stop.offset :=
        (Position.offset_after t.start t.text).symm
      have hlater : ∀ m ∈ ts.flatMap marks, t.stop.offset ≤ m.offset := by
        intro m hm
        obtain ⟨u, hu, hmarks⟩ := List.mem_flatMap.mp hm
        exact (tail.le_start u hu).trans (bounds_of_mem_marks hmarks).1
      have hgap : ∀ m ∈ marks t ++ ts.flatMap marks, t.start.offset ≤ m.offset := by
        intro m hm
        rcases List.mem_append.mp hm with hm | hm
        · exact (bounds_of_mem_marks hm).1
        · exact (Position.offset_le_after t.start t.text).trans (hlater m hm)
      have hown : ∀ m ∈ marks t, m.offset ≤ t.stop.offset :=
        fun m hm ↦ (bounds_of_mem_marks hm).2
      calc
        _ = inserted ([] ++ (marks t ++ ts.flatMap marks)) p.offset (t.gap ++ (t.text ++ rest)) :=
          rfl
        _ = t.gap ++ inserted (marks t ++ ts.flatMap marks) t.start.offset (t.text ++ rest) := by
          rw [inserted_append (by simp) (hlow ▸ hgap), inserted_nil, hlow]
        _ = t.gap ++ (inserted (marks t) t.start.offset t.text ++ ts.flatMap showToken) := by
          rw [inserted_append (hhigh ▸ hown) (hhigh ▸ hlater), hhigh, ih]
        _ = showToken t ++ ts.flatMap showToken := by
          rw [inserted_marks_token, showToken]
          cases color? t.kind <;> simp

end Insertion

def Color.all : List Color :=
  [keyword, type, literal, string, comment, error]

def codes : List (List Char) :=
  reset.toList :: Color.all.map fun color ↦ color.code.toList

theorem introduces_codes : Text.Introduces '\x1b' codes where
  exists_cons := by
    have hshape : codes.all (fun code ↦
        code.head? = some '\x1b' && !code.tail.contains '\x1b') = true := by decide
    intro code hcode
    have hcode := List.all_eq_true.mp hshape code hcode
    simp only [Bool.and_eq_true, decide_eq_true_eq, Bool.not_eq_true', List.contains_eq_mem,
      decide_eq_false_iff_not] at hcode
    obtain ⟨tail, rfl⟩ := List.head?_eq_some_iff.mp hcode.1
    exact ⟨tail, rfl, hcode.2⟩
  apart := by decide

theorem code_mem_codes (color : Color) : color.code.toList ∈ codes := by
  cases color <;> decide

/-- A token as it is shown, in single characters and codes. -/
def piecesOf (t : Token) : List (List Char) :=
  t.gap.map ([·]) ++
    match color? t.kind with
    | none => t.text.map ([·])
    | some color => color.code.toList :: t.text.map ([·]) ++ [reset.toList]

theorem flatten_flatMap (ts : List Token) (pieces : Token → List (List Char)) :
    (ts.flatMap pieces).flatten = ts.flatMap fun t ↦ (pieces t).flatten := by
  simp only [List.flatten_eq_flatMap, List.flatMap_assoc]

theorem flatten_map_singleton (text : List Char) : (text.map ([·])).flatten = text := by
  induction text with
  | nil => rfl
  | cons c text ih => simp [ih]

theorem flatten_piecesOf (t : Token) : (piecesOf t).flatten = showToken t := by
  cases hcolor : color? t.kind <;>
    simp [piecesOf, showToken, hcolor, flatten_map_singleton]

theorem singleton_not_mem_codes {c : Char} : [c] ∉ codes := by
  have hlength : codes.all (fun code ↦ code.length ≠ 1) = true := by decide
  intro hmem
  simpa using List.all_eq_true.mp hlength [c] hmem

/-- Without the codes there are the characters of the token. -/
theorem flatten_filter_piecesOf {t : Token} {order : List (List Char)}
    (horder : ∀ code, code ∈ order ↔ code ∈ codes) :
    ((piecesOf t).filter (· ∉ order)).flatten = t.gap ++ t.text := by
  have hplain (text : List Char) :
      (text.map ([·])).filter (fun piece ↦ !decide (piece ∈ order)) = text.map ([·]) := by
    apply List.filter_eq_self.mpr
    intro piece hpiece
    obtain ⟨c, -, rfl⟩ := List.mem_map.mp hpiece
    simp [horder, singleton_not_mem_codes]
  have hreset : reset.toList ∈ order := (horder _).mpr List.mem_cons_self
  cases hcolor : color? t.kind with
  | none => simp [piecesOf, hcolor, hplain, flatten_map_singleton]
  | some color =>
      have hcode : color.code.toList ∈ order := (horder _).mpr (code_mem_codes color)
      simp [piecesOf, hcolor, hplain, hcode, hreset, flatten_map_singleton]

theorem inPieces_piecesOf {t : Token} (hgap : '\x1b' ∉ t.gap) (htext : '\x1b' ∉ t.text) :
    Text.InPieces '\x1b' codes (piecesOf t) := by
  have hplain {text : List Char} (htext : '\x1b' ∉ text) :
      ∀ piece ∈ text.map ([·]), piece ∈ codes ∨ ∃ c, c ≠ '\x1b' ∧ piece = [c] := by
    intro piece hpiece
    obtain ⟨c, hc, rfl⟩ := List.mem_map.mp hpiece
    refine .inr ⟨c, ?_, rfl⟩
    rintro rfl
    exact htext hc
  intro piece hpiece
  rcases List.mem_append.mp hpiece with hpiece | hpiece
  · exact hplain hgap piece hpiece
  · cases hcolor : color? t.kind with
    | none =>
        rw [hcolor] at hpiece
        exact hplain htext piece hpiece
    | some color =>
        simp only [hcolor, List.cons_append, List.mem_cons, List.mem_append, List.not_mem_nil,
          or_false] at hpiece
        rcases hpiece with rfl | hpiece | rfl
        · exact .inl (code_mem_codes color)
        · exact hplain htext piece hpiece
        · exact .inl List.mem_cons_self

theorem foldl_delete_highlight {line : List Char} (hline : '\x1b' ∉ line)
    {order : List (List Char)} (horder : ∀ code, code ∈ order ↔ code ∈ codes) :
    order.foldl (fun text code ↦ Text.delete code text) (highlight line) = line := by
  have hlexed := Token.lexed_ofSource line
  have hmem : ∀ t ∈ Token.ofSource line, ∀ c ∈ t.gap ++ t.text, c ∈ line := by
    intro t ht c hc
    rw [← hlexed.flatMap_eq]
    exact List.mem_flatMap.mpr ⟨t, ht, hc⟩
  have hrow : Text.InPieces '\x1b' codes ((Token.ofSource line).flatMap piecesOf) := by
    intro piece hpiece
    obtain ⟨t, ht, hpiece⟩ := List.mem_flatMap.mp hpiece
    refine inPieces_piecesOf ?_ ?_ piece hpiece
    · exact fun hgap ↦ hline (hmem t ht _ (List.mem_append_left _ hgap))
    · exact fun htext ↦ hline (hmem t ht _ (List.mem_append_right _ htext))
  have hshown : highlight line = ((Token.ofSource line).flatMap piecesOf).flatten := by
    simp only [highlight, flatten_flatMap, flatten_piecesOf]
  rw [hshown, introduces_codes.foldl_delete (fun code ↦ (horder code).mp) hrow]
  conv_rhs => rw [← hlexed.flatMap_eq]
  simp only [List.filter_flatMap, flatten_flatMap, flatten_filter_piecesOf horder]

theorem isColored_eq_false_iff (line : List Char) :
    isColored line = false ↔ ∀ t ∈ Token.ofSource line, color? t.kind = none := by
  simp [isColored]

/-- All slices fit the line. The line comes back as it is where no token has a color, and otherwise
with the codes of the tokens inserted where they start and end. Deleting these codes, in any order,
gives back a line that has no escape characters of its own. -/
theorem inserted_of_line (line : List Char) :
    ∃ answer, answer? line = some answer ∧ answer.text line = highlight line ∧
      highlight line = inserted ((Token.ofSource line).flatMap marks) 0 line ∧
      (answer = .unchanged ↔ ∀ t ∈ Token.ofSource line, color? t.kind = none) ∧
      (isColored line = false ↔ answer = .unchanged) ∧
      ('\x1b' ∉ line → ∀ order : List (List Char), (∀ code, code ∈ order ↔ code ∈ codes) →
        order.foldl (fun text code ↦ Text.delete code text) (highlight line) = line) := by
  have hinserted : highlight line = inserted ((Token.ofSource line).flatMap marks) 0 line :=
    (inserted_marks (Token.stream_ofSource line)).symm
  have hcolored := isColored_eq_false_iff line
  have hdeleted (hline : '\x1b' ∉ line) (order : List (List Char))
      (horder : ∀ code, code ∈ order ↔ code ∈ codes) := foldl_delete_highlight hline horder
  refine ⟨_, answer?_eq line, ?_, hinserted, ?_, ?_, hdeleted⟩
  · cases hany : isColored line with
    | true => rfl
    | false =>
        have hnone : (Token.ofSource line).flatMap marks = [] := by
          apply List.flatMap_eq_nil_iff.mpr
          intro t ht
          simp [marks, hcolored.mp hany t ht]
        simp [Answer.text, hinserted, hnone]
  · rw [← hcolored]
    cases isColored line <;> simp
  · cases isColored line <;> simp

/-- Where one colored token follows another, the reset stands in front of the next color. -/
theorem inserted_of_line_adjacent :
    let line := "1\"é\"#".toList
    let colored := "\x1b[36m1\x1b[0m\x1b[32m\"é\"\x1b[0m\x1b[31m#\x1b[0m".toList
    '\x1b' ∉ line ∧ answer? line = some (.changed colored) ∧
      codes.reverse.foldl (fun text code ↦ Text.delete code text) colored = line := by
  intro line colored
  have hline : '\x1b' ∉ line := by decide
  have hshown : highlight line = colored := by decide +kernel
  have hcolored : isColored line = true := by decide +kernel
  obtain ⟨answer, hanswer, htext, -, -, hunchanged, hdeleted⟩ := inserted_of_line line
  have hchanged : answer = .changed colored := by
    cases answer with
    | unchanged => simp [hcolored] at hunchanged
    | changed text => exact congrArg Answer.changed (htext.trans hshown)
  rw [← hshown]
  refine ⟨hline, ?_, hdeleted hline _ (by simp)⟩
  rw [hanswer, hchanged, hshown]

end CoolTree.Highlight
