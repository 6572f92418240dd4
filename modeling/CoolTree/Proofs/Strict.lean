import CoolTree.Proofs.Packaged
import CoolTree.Proofs.Nesting
import CoolTree.Proofs.Report
import Mathlib.Algebra.Ring.Nat
import Mathlib.Data.List.Induction

/-!
# Strict parsing

Strict parsing gives the tree of a source that has no problems, and the first problem of any other.
The line and the column of a problem come from counting line feeds while the source is read, and
its context is cut out around its first byte. Both are the same place: cutting the source at its
line feeds, the context is the line of that number, and the bytes of the lines in front of it and
of the columns in front of the problem are those in front of its first byte.
-/

namespace CoolTree

namespace Source

/-- The text behind the last line feed. -/
def lastLine (text : List Char) : List Char :=
  (text.reverse.takeWhile (· != '\n')).reverse

/-- A line and a column, both counted from one, with the text of the line, lead to a byte of a
source, which starts a character. -/
structure Locates (source : List Char) (offset line column : Nat) (context : List Char) : Prop where
  one_le_line : 1 ≤ line
  line_eq : (source.splitOn '\n')[line - 1]? = some context
  one_le_column : 1 ≤ column
  column_le : column - 1 ≤ byteLength context
  boundary : ∃ before behind, context = before ++ behind ∧ byteLength before = column - 1
  offset_eq : (((source.splitOn '\n').take (line - 1)).map fun text ↦ byteLength text + 1).sum +
    (column - 1) = offset

theorem byteLength_reverse (text : List Char) : byteLength text.reverse = byteLength text := by
  induction text with
  | nil => rfl
  | cons c text ih =>
      rw [List.reverse_cons, byteLength_append, ih, byteLength_cons, byteLength_cons,
        byteLength_nil]
      omega

theorem lastLine_append_feed (text : List Char) : lastLine (text ++ ['\n']) = [] := by
  rw [lastLine, List.reverse_append]
  rfl

theorem lastLine_append_singleton {c : Char} (h : c ≠ '\n') (text : List Char) :
    lastLine (text ++ [c]) = lastLine text ++ [c] := by
  rw [lastLine, List.reverse_append, List.reverse_singleton, List.singleton_append,
    List.takeWhile_cons_of_pos (by simpa using h), List.reverse_cons, lastLine]

theorem splitOn_feed (text : List Char) :
    ('\n' :: text).splitOn '\n' = [] :: text.splitOn '\n' := by
  rw [List.splitOn_cons_eq_if_modifyHead, if_pos (beq_self_eq_true '\n')]

theorem splitOn_cons {c : Char} (h : c ≠ '\n') {text line : List Char} {lines : List (List Char)}
    (htext : text.splitOn '\n' = line :: lines) :
    (c :: text).splitOn '\n' = (c :: line) :: lines := by
  rw [List.splitOn_cons_eq_if_modifyHead, if_neg (by simpa using h), htext, List.modifyHead_cons]

theorem exists_splitOn (text : List Char) :
    ∃ lines, text.splitOn '\n' = text.takeWhile (· != '\n') :: lines := by
  induction text with
  | nil => exact ⟨[], rfl⟩
  | cons c text ih =>
      obtain ⟨lines, hlines⟩ := ih
      by_cases hc : c = '\n'
      · subst hc
        exact ⟨text.splitOn '\n', splitOn_feed text⟩
      · refine ⟨lines, ?_⟩
        rw [splitOn_cons hc hlines, List.takeWhile_cons_of_pos (by simpa using hc)]

/-- Cutting a source at its line feeds also cuts what stands in front of a place in it. -/
theorem splitOn_append (before : List Char) {behind line : List Char} {lines : List (List Char)}
    (h : behind.splitOn '\n' = line :: lines) :
    ∃ earlier, (before ++ behind).splitOn '\n' = earlier ++ (lastLine before ++ line) :: lines ∧
      earlier.length = before.count '\n' ∧
      (earlier.map fun text ↦ byteLength text + 1).sum + byteLength (lastLine before) =
        byteLength before := by
  induction before using List.reverseRecOn generalizing behind line lines with
  | nil => exact ⟨[], h, rfl, rfl⟩
  | append_singleton before c ih =>
      rw [List.append_assoc, List.singleton_append, List.count_append, byteLength_append]
      by_cases hc : c = '\n'
      · subst hc
        obtain ⟨earlier, hsplit, hlength, hsum⟩ := ih ((splitOn_feed behind).trans (by rw [h]))
        refine ⟨earlier ++ [lastLine before], ?_, ?_, ?_⟩
        · rw [hsplit, lastLine_append_feed]
          simp
        · simp [hlength]
        · rw [lastLine_append_feed]
          have hfeed : byteLength ['\n'] = 1 := rfl
          simp only [List.map_append, List.sum_append, List.map_singleton, List.sum_singleton,
            byteLength_nil, hfeed]
          omega
      · obtain ⟨earlier, hsplit, hlength, hsum⟩ := ih (splitOn_cons hc h)
        refine ⟨earlier, ?_, ?_, ?_⟩
        · rw [hsplit, lastLine_append_singleton hc]
          simp
        · simp [hlength, hc]
        · rw [lastLine_append_singleton hc, byteLength_append]
          omega

/-- The line around a place is found by searching line feeds on both sides of it. -/
theorem locates_lineAround {p : Position} {source : List Char} (h : p.In source) :
    Locates source p.offset p.point.line p.point.displayColumn (lineAround source p.offset) := by
  obtain ⟨before, behind, rfl, rfl⟩ := h
  obtain ⟨hrow, hcolumn⟩ := Position.point_after_origin before
  have hoffset : (Position.origin.after before).offset = byteLength before := by
    rw [Position.offset_after, Position.origin, Nat.zero_add]
  have hlast : byteLength (lastLine before) = (Position.origin.after before).point.column := by
    rw [lastLine, byteLength_reverse, hcolumn]
  have hcontext : lineAround (before ++ behind) (byteLength before) =
      lastLine before ++ behind.takeWhile (· != '\n') := by
    rw [lineAround, dropBytes?_append, takeBytes?, takeBytesOnto?_append]
    rfl
  obtain ⟨lines, hlines⟩ := exists_splitOn behind
  obtain ⟨earlier, hsplit, hlength, hsum⟩ := splitOn_append before hlines
  have hline : (Position.origin.after before).point.line - 1 = earlier.length := by
    rw [Point.line, Nat.add_sub_cancel, hrow, hlength]
  have hdisplay : (Position.origin.after before).point.displayColumn - 1 =
      byteLength (lastLine before) := by
    rw [Point.displayColumn, Nat.add_sub_cancel, hlast]
  rw [hoffset, hcontext]
  constructor
  · exact Nat.le_add_left 1 _
  · rw [hline, hsplit]
    simp
  · exact Nat.le_add_left 1 _
  · rw [hdisplay, byteLength_append]
    exact Nat.le_add_right _ _
  · exact ⟨lastLine before, _, rfl, hdisplay.symm⟩
  · rw [hline, hsplit, hdisplay, List.take_left, hsum]

end Source

namespace Tree

/-- Every problem starts at a place in the source. -/
theorem start_in_of_mem_errors {l : Language} {config : Config} {source : String}
    (hcomments : config.comments = true) {e : SyntaxError}
    (he : e ∈ (parse l config source).errors) : e.span.start.In source.toList := by
  obtain ⟨-, hperm⟩ := accounts_parse l config source
  have hhidden : hiddenErrors config source.toList = [] := if_pos hcomments
  have hsound := sound_parse l config source
  rw [hhidden, List.map_nil, List.append_nil, ← map_span_faults hsound] at hperm
  obtain ⟨c, hc, hspan⟩ := List.mem_map.mp (hperm.mem_iff.mp (List.mem_map_of_mem he))
  have hmem := mem_preorder_of_mem_descendants hsound (List.mem_of_mem_filter hc)
  obtain ⟨hroot, hbelow⟩ := settled_parse l config source
  rw [Node.preorder_eq, ← nodesBelowRoot_eq hsound] at hmem
  rw [← hspan]
  rcases List.mem_cons.mp hmem with h | h
  · exact h ▸ hroot.start
  · exact (hbelow _ h).start

end Tree

/-- Strict parsing gives the tree if it has no problems. Otherwise it fails with the message of a
first problem, the line it starts in, and its place in that line. -/
theorem Parser.strict_of_parse {p q : Parser} {l : Language} (hlanguage : p.setLanguage l = .ok q)
    (source : String) :
    ∃ tree, (q.setConfig {}).parse? source = some tree ∧
      (tree.errors = [] → parseStrict l source = .ok tree) ∧
      ((∃ t, parseStrict l source = .ok t) ↔ tree.errors = []) ∧
      (tree.errors ≠ [] → ∃ e ∈ tree.errors,
        (∀ x ∈ tree.errors, e.span.precedes x.span = true) ∧
          ∃ line column context,
            parseStrict l source =
              .error ⟨.syntaxError e.message line column (String.ofList context), none⟩ ∧
            Source.Locates source.toList e.span.start.offset line column context) := by
  have hlack := lack?_of_setLanguage hlanguage
  refine ⟨Tree.parse l {} source, parse?_of_setLanguage hlanguage {} source, ?_⟩
  cases herrors : (Tree.parse l {} source).errors with
  | nil =>
      have hstrict : parseStrict l source = .ok (Tree.parse l {} source) := by
        simp only [parseStrict, hlack, herrors]
      exact ⟨fun _ ↦ hstrict, iff_of_true ⟨_, hstrict⟩ rfl, fun hne ↦ (hne rfl).elim⟩
  | cons e more =>
      let start := e.span.start
      have hstrict : parseStrict l source = .error ⟨.syntaxError e.message start.point.line
          start.point.displayColumn
          (String.ofList (lineAround source.toList start.offset)), none⟩ := by
        simp only [parseStrict, hlack, herrors, start]
      have hfirst : ∀ x ∈ e :: more, e.span.precedes x.span = true := by
        have hpair := Tree.pairwise_errors l {} source
        rw [herrors] at hpair
        refine List.forall_mem_cons.mpr ⟨?_, (List.pairwise_cons.mp hpair).1⟩
        simp [Span.precedes]
      have hplace : start.In source.toList :=
        Tree.start_in_of_mem_errors rfl (herrors ▸ List.mem_cons_self)
      have hfails : ¬∃ t, parseStrict l source = .ok t := by
        rintro ⟨t, ht⟩
        cases hstrict.symm.trans ht
      have hne : e :: more ≠ [] := List.cons_ne_nil e more
      exact ⟨fun hnil ↦ (hne hnil).elim, iff_of_false hfails hne, fun _ ↦
        ⟨e, List.mem_cons_self, hfirst, _, _, _, hstrict, Source.locates_lineAround hplace⟩⟩

/-- A semicolon that is missing in the second line, behind byte 18. -/
theorem Parser.strict_of_parse_second_line :
    let source := "class A \x7b\n x : Int \x7d;"
    Parser.setLanguage {} .cool = .ok { language := some .cool } ∧
      ∃ tree, (Parser.setConfig { language := some .cool } {}).parse? source = some tree ∧
        tree.errors ≠ [] ∧
        ∃ message line column context,
          parseStrict .cool source =
            .error ⟨.syntaxError message line column (String.ofList context), none⟩ ∧
          Source.Locates source.toList 18 line column context := by
  intro source
  let e : SyntaxError :=
    ⟨.expected (.terminal .semicolon) (.terminal .rightBrace), .emptyAt ⟨18, 1, 8⟩⟩
  have hfound :
      (Tree.fileDraft Language.cool.levels 256 (Tree.arrangement {} source)).state.errors ++
        Tree.commentErrors (Token.ofSource source.toList) = [e] := by
    decide +kernel
  have herrors : (Tree.parse .cool {} source).errors = [e] :=
    List.perm_singleton.mp (hfound ▸ Tree.perm_errors .cool {} source)
  obtain ⟨tree, htree, -, -, hbroken⟩ := strict_of_parse (setLanguage_cool {}) source
  obtain rfl := Option.some.inj htree
  have hne : (Tree.parse .cool {} source).errors ≠ [] := herrors ▸ List.cons_ne_nil e []
  obtain ⟨x, hx, -, line, column, context, hstrict, hlocates⟩ := hbroken hne
  obtain rfl : x = e := List.mem_singleton.mp (herrors ▸ hx)
  exact ⟨setLanguage_cool {}, _, htree, hne, _, line, column, context, hstrict, hlocates⟩

end CoolTree
