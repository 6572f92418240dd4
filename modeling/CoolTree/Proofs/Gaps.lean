import CoolTree.Proofs.Lexed
import CoolTree.Proofs.Lossless
import CoolTree.Proofs.Placement

/-!
# Tokens and gaps tile a source

Between two tokens, in front of the first one and behind the last one there is nothing but blank
characters. Gaps and tokens lie in the source one behind the other, from its start to its end, and
the positions at which they meet are told by the text in front of them.
-/

namespace CoolTree

namespace Lexed

variable {p : Position} {text : List Char} {ts : List Token}

/-- A gap reaches from where the token before it ends to where the next one starts. -/
theorem shows_gap (h : Lexed p text ts) {source before : List Char}
    (hsource : source = before ++ text) (hp : p = Position.origin.after before) {q : Position}
    {t : Token} (hmem : (q, t) ∈ (p :: ts.map Token.stop).zip ts) :
    Span.Shows ⟨q, t.start⟩ source t.gap := by
  induction h generalizing before with
  | @ending p gap blank =>
      obtain ⟨rfl, rfl⟩ : q = p ∧ t = ⟨gap, p.after gap, .ending, []⟩ := by simpa using hmem
      exact ⟨before, [], by simp [hsource], hp, rfl⟩
  | @token p rest ts u start blank solid lexes tail ih =>
      rw [List.map_cons, List.zip_cons_cons] at hmem
      rcases List.mem_cons.mp hmem with heq | hmem
      · cases heq
        exact ⟨before, t.text ++ rest, hsource, hp, start⟩
      · have hrest : source = before ++ (u.gap ++ u.text) ++ rest := by simp [hsource]
        exact ih hrest (u.stop_eq (hp ▸ start)) hmem

theorem getLast?_eq (h : Lexed p text ts) :
    ∃ gap, ts.getLast? = some ⟨gap, p.after text, .ending, []⟩ := by
  induction h with
  | @ending p gap blank => exact ⟨gap, rfl⟩
  | @token p rest ts t start blank solid lexes tail ih =>
      obtain ⟨gap, hlast⟩ := ih
      refine ⟨gap, ?_⟩
      rw [List.getLast?_cons, hlast, Position.after_append, Position.after_append, ← start]
      rfl

end Lexed

/-- The ending stands behind the last character, and all other tokens are of some length. Spans and
the gaps between them follow each other through the whole source, the gaps are blank, and spans are
where their offsets, rows and columns say. -/
theorem Token.tiles_ofSource (source : List Char) :
    (∃ body last, ofSource source = body ++ [last] ∧ last.kind = .ending ∧ last.text = [] ∧
      last.start.offset = Source.byteLength source ∧
      ∀ t ∈ body, t.kind ≠ .ending ∧ t.start.offset < t.stop.offset) ∧
    (ofSource source).Pairwise (fun a b ↦ a.stop.offset ≤ b.start.offset) ∧
    (∀ q t, (q, t) ∈ (Position.origin :: (ofSource source).map stop).zip (ofSource source) →
      Source.slice? source q.offset t.start.offset = some t.gap ∧
        ∀ c ∈ t.gap, Text.isBlank c = true) ∧
    (ofSource source).flatMap (fun t ↦ t.gap ++ t.text) = source ∧
    ∀ t ∈ ofSource source, ∀ piece ∈ ⟨t.span, t.text⟩ :: t.pieces,
      Source.slice? source piece.span.start.offset piece.span.stop.offset = some piece.text ∧
        piece.span.start.Marks source ∧ piece.span.stop.Marks source := by
  have hstream := stream_ofSource source
  have hlexed := lexed_ofSource source
  have hsource : source = [] ++ source := (List.nil_append source).symm
  refine ⟨?_, hstream.pairwise_stop_le_start, ?_, hlexed.flatMap_eq, ?_⟩
  · obtain ⟨body, last, hts, hlast, hbody⟩ := hstream.eq_append_ending
    obtain ⟨gap, hending⟩ := hlexed.getLast?_eq
    obtain rfl : last = ⟨gap, Position.origin.after source, .ending, []⟩ := by
      simpa [hts] using hending
    refine ⟨body, _, hts, rfl, rfl, ?_, fun t ht ↦ ⟨hbody t ht, ?_⟩⟩
    · rw [Position.offset_after, Position.origin, Nat.zero_add]
    · exact hstream.start_lt_stop t (hts ▸ List.mem_append_left _ ht) (hbody t ht)
  · intro q t hmem
    have hshows := hlexed.shows_gap hsource rfl hmem
    exact ⟨hshows.slice?_eq, hlexed.isBlank_of_mem_gap t (List.of_mem_zip hmem).2⟩
  · intro t ht piece hpiece
    have hshows : piece.span.Shows source piece.text := by
      rcases List.mem_cons.mp hpiece with rfl | hpiece
      · exact hstream.shows_of_mem hsource rfl t ht
      · exact Piece.shows_of_mem_pieces ht hpiece
    exact ⟨hshows.slice?_eq, hshows.in_source.1.marks, hshows.in_source.2.marks⟩

/-- Offsets count bytes, and the string literal goes on behind the escaped line feed. -/
theorem Token.tiles_ofSource_continued :
    let source := "é \"\\\n\"".toList
    let t : Token :=
      ⟨[' '], ⟨3, ⟨0, 3⟩⟩, .string [.content ['\\', '\n']] true, ['"', '\\', '\n', '"']⟩
    t ∈ ofSource source ∧ Source.slice? source 4 6 = some ['\\', '\n'] ∧
      (Position.mk 4 ⟨0, 4⟩).Marks source ∧ (Position.mk 6 ⟨1, 0⟩).Marks source ∧
      ∃ body last, ofSource source = body ++ [last] ∧ last.start.offset = 7 := by
  intro source t
  have ht : t ∈ ofSource source := by decide +kernel
  obtain ⟨⟨body, last, hts, -, -, hlast, -⟩, -, -, -, hspans⟩ := tiles_ofSource source
  let part : Piece := ⟨⟨⟨4, ⟨0, 4⟩⟩, ⟨6, ⟨1, 0⟩⟩⟩, ['\\', '\n']⟩
  have hpart : part ∈ t.pieces := by decide
  obtain ⟨hslice, hstart, hstop⟩ := hspans t ht part (List.mem_cons_of_mem _ hpart)
  exact ⟨ht, hslice, hstart, hstop, body, last, hts, hlast⟩

end CoolTree
