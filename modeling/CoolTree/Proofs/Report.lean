import CoolTree.Proofs.Faults
import CoolTree.Proofs.Rooted

/-!
# What is reported with a tree

The problems of a tree are those of its nodes, in the order of the source. Only an unterminated
comment that gets no node is reported without one.
-/

namespace CoolTree

namespace Node

variable {opens : Span → Bool} {inError : Bool}

theorem reportedAll_eq_flatMap (ns : List Node) :
    reportedAll opens inError ns = ns.flatMap (reported opens inError) := by
  induction ns with
  | nil => rfl
  | cons n ns ih => simp [ih]

theorem reported_eq_nil_iff (n : Node) :
    n.reported opens false = [] ↔ n.preorder.any (isFault opens) = false := by
  induction n using Node.induction with
  | step label children ih =>
      rw [reported_eq, any_preorder]
      by_cases herror : (mk label children).isError = true
      · simp [isReported, isFault, herror]
      · rw [Bool.not_eq_true] at herror
        have hself : (mk label children).isReported opens false =
            (mk label children).isFault opens := by
          simp [isReported, isFault]
        rw [hself, herror, reportedAll_eq_flatMap, any_preorders, List.append_eq_nil_iff,
          Bool.or_eq_false_iff, List.flatMap_eq_nil_iff, List.any_eq_false]
        refine and_congr (by simp) (forall₂_congr fun c hc ↦ ?_)
        rw [ih c hc, Bool.not_eq_true]

end Node

namespace Cursor

/-- Whether a problem is reported for the node of a cursor: an error that stands in no error,
something that is not there, or a comment without its end. -/
def isReported (opens : Span → Bool) (c : Cursor) : Bool :=
  c.node.isReported opens (c.parent?.any (·.node.isError))

/-- From a cursor down, problems are reported for the nodes for which its node reports them. -/
theorem Stands.map_span_filter {c : Cursor} (h : c.Stands) (opens : Span → Bool) :
    (c.descendants.filter (isReported opens)).map (·.node.span) =
      c.node.reported opens (c.parent?.any (·.node.isError)) := by
  refine induction (P := fun c ↦ (c.descendants.filter (isReported opens)).map (·.node.span) =
    c.node.reported opens (c.parent?.any (·.node.isError))) h fun c h ih ↦ ?_
  have hbelow : (c.children.flatMap fun k ↦ k.descendants.filter (isReported opens)).map
      (·.node.span) = Node.reportedAll opens c.node.isError c.node.children := by
    rw [Node.reportedAll_eq_flatMap, ← h.map_node_children, List.map_flatMap, List.flatMap_map]
    refine List.flatMap_congr fun k hk ↦ ?_
    rw [ih k hk, h.parent?_of_mem_children hk, Option.any_some]
  rw [h.descendants_eq, List.filter_cons, List.filter_flatMap, Node.reported_eq, ← hbelow,
    isReported]
  split <;> rfl

end Cursor

namespace Span

theorem precedes_trans (a b c : Span) (hab : a.precedes b = true) (hbc : b.precedes c = true) :
    a.precedes c = true := by
  simp only [precedes, Bool.or_eq_true, Bool.and_eq_true, decide_eq_true_eq, beq_iff_eq] at *
  omega

theorem precedes_total (a b : Span) : (a.precedes b || b.precedes a) = true := by
  simp only [precedes, Bool.or_eq_true, Bool.and_eq_true, decide_eq_true_eq, beq_iff_eq]
  omega

end Span

namespace Tree

/-- Whether an unterminated comment stands at a span of the source. -/
def opens (t : Tree) (s : Span) : Bool :=
  (Token.ofSource t.source.toList).any fun u ↦ u.kind == .blockComment false && u.span == s

/-- The nodes for which problems are reported. -/
def faults (t : Tree) : List Cursor :=
  (Cursor.ofTree t).descendants.filter (Cursor.isReported t.opens)

/-- The problems of comments that get no nodes. -/
def hiddenErrors (config : Config) (source : List Char) : List SyntaxError :=
  if config.comments then [] else commentErrors (Token.ofSource source)

theorem map_span_faults {t : Tree} (h : t.arena.Sound [t.top]) :
    t.faults.map (·.node.span) = t.root.reported t.opens false := by
  have hfilter := (Cursor.stands_ofTree h).map_span_filter t.opens
  rwa [Cursor.parent?_ofTree h, Cursor.node_ofTree h] at hfilter

theorem pairwise_errors (language : Language) (config : Config) (source : String) :
    (parse language config source).errors.Pairwise fun a b ↦ a.span.precedes b.span = true := by
  rw [errors_parse]
  exact List.pairwise_mergeSort (fun a b c ↦ Span.precedes_trans a.span b.span c.span)
    (fun a b ↦ Span.precedes_total a.span b.span) _

theorem length_hiddenErrors_le (config : Config) (source : List Char) :
    (hiddenErrors config source).length ≤ 1 := by
  unfold hiddenErrors commentErrors
  split
  · simp
  · rw [List.length_map]
    exact (Token.openLast_ofSource source).length_filter_le

variable (language : Language) (config : Config) (source : String)

theorem opens_span_iff {c : Token} (hc : c ∈ Token.ofSource source.toList)
    (hcomment : c.kind.isComment = true) :
    (parse language config source).opens c.span = true ↔ c.kind = .blockComment false := by
  have hstream := Token.stream_ofSource source.toList
  have hsource : (parse language config source).source = source := rfl
  simp only [opens, hsource, List.any_eq_true, Bool.and_eq_true, beq_iff_eq]
  constructor
  · rintro ⟨u, hu, hopen, hspan⟩
    have hne : u.kind ≠ .ending := by simp [hopen]
    rw [← hstream.eq_of_span_eq hu hc hne (TokenKind.ne_ending_of_isComment hcomment) hspan]
    exact hopen
  · exact fun hopen ↦ ⟨c, hc, hopen, rfl⟩

theorem map_token_arrangement :
    (arrangement config source).items.map (·.token) = Token.significant source.toList := by
  rw [arrangement, Arrangement.map_token, Token.significant]
  unfold parsedTokens
  split
  · rfl
  · rw [List.filter_filter]
    refine List.filter_congr fun t _ ↦ ?_
    cases hsignificant : t.kind.isSignificant with
    | true => simp [TokenKind.IsSignificant.not_comment hsignificant]
    | false => rfl

theorem openLast_parsedTokens :
    Arrangement.OpenLast (parsedTokens config (Token.ofSource source.toList)) := by
  unfold parsedTokens
  split
  · exact Token.openLast_ofSource source.toList
  · intro before t behind hts hopen
    have hmem : t ∈ (Token.ofSource source.toList).filter (!·.kind.isComment) := by
      rw [hts]
      simp
    simp [hopen, TokenKind.isComment] at hmem

theorem quiet_arrangement :
    ∀ item ∈ (arrangement config source).items,
      item.Quiet (parse language config source).opens := by
  intro item hitem
  have hcomment := (Arrangement.isComment_of_mem _).1 item hitem
  have hclosed := (openLast_parsedTokens config source).closed_of_mem item hitem
  refine ⟨hcomment, hclosed, fun c hc ↦ ?_, Arrangement.isSignificant_token item hitem⟩
  have hmem : c ∈ Token.ofSource source.toList := by
    refine mem_of_mem_parsedTokens (Arrangement.mem_of_mem_tokens hitem ?_)
    exact List.mem_append_left _ hc
  rw [← Bool.not_eq_true, opens_span_iff language config source hmem (hcomment c hc)]
  exact hclosed c hc

theorem faults_trailing :
    Node.Flagged (parse language config source).opens
        (Node.ofComments (arrangement config source).trailing) ∧
      Node.reportedAll (parse language config source).opens false
          (Node.ofComments (arrangement config source).trailing) =
        ((parsedTokens config (Token.ofSource source.toList)).filter
          (·.kind == .blockComment false)).map Token.span := by
  have hcomment := (Arrangement.isComment_of_mem
    (parsedTokens config (Token.ofSource source.toList))).2
  rw [← (openLast_parsedTokens config source).filter_trailing]
  refine Node.faults_ofComments hcomment fun c hc ↦ ?_
  have hmem := mem_of_mem_parsedTokens (Arrangement.mem_of_mem_trailing hc)
  rw [opens_span_iff language config source hmem (hcomment c hc)]
  exact ⟨fun hopen ↦ ⟨by rw [hopen]; rfl, hopen⟩, And.right⟩

theorem map_span_commentErrors :
    (commentErrors (Token.ofSource source.toList)).map (·.span) =
      ((parsedTokens config (Token.ofSource source.toList)).filter
        (·.kind == .blockComment false)).map Token.span ++
          (hiddenErrors config source.toList).map (·.span) := by
  unfold parsedTokens hiddenErrors commentErrors
  split
  · simp [Function.comp_def]
  · have hnone : ((Token.ofSource source.toList).filter (!·.kind.isComment)).filter
        (·.kind == .blockComment false) = [] := by
      rw [List.filter_eq_nil_iff]
      intro t ht hopen
      rw [beq_iff_eq] at hopen
      simp [hopen, TokenKind.isComment] at ht
    simp [hnone, Function.comp_def]

theorem perm_errors :
    (parse language config source).errors.Perm
      ((fileDraft language.levels config.maxDepth (arrangement config source)).state.errors ++
        commentErrors (Token.ofSource source.toList)) := by
  rw [← errors_draft, errors_parse]
  exact (List.mergeSort_perm _ _).trans ((List.reverse_perm _).append_right _)

theorem commentErrors_eq_nil_iff {tokens : List Token} :
    commentErrors tokens = [] ↔ ∀ t ∈ tokens, t.kind ≠ .blockComment false := by
  simp [commentErrors]

/-- Nothing is wrong with a source if parsing finds nothing and its comments are terminated. -/
theorem errors_eq_nil_iff_fileDraft :
    (parse language config source).errors = [] ↔
      (fileDraft language.levels config.maxDepth (arrangement config source)).state.errors = [] ∧
        ∀ t ∈ Token.ofSource source.toList, t.kind ≠ .blockComment false := by
  have hperm := perm_errors language config source
  rw [← commentErrors_eq_nil_iff, ← List.append_eq_nil_iff]
  exact ⟨fun h ↦ (h ▸ hperm).nil_eq.symm, fun h ↦ (h ▸ hperm).eq_nil⟩

theorem mem_errors_iff (hcomment : ∀ t ∈ Token.ofSource source.toList, t.kind ≠ .blockComment false)
    {e : SyntaxError} : e ∈ (parse language config source).errors ↔
      e ∈ (fileDraft language.levels config.maxDepth (arrangement config source)).state.errors := by
  rw [(perm_errors language config source).mem_iff, commentErrors_eq_nil_iff.mpr hcomment,
    List.append_nil]

/-- Flags and problems of a tree go by its nodes. -/
theorem accounts_parse :
    Node.Flagged (parse language config source).opens [(parse language config source).root] ∧
      ((parse language config source).errors.map (·.span)).Perm
        ((parse language config source).root.reported (parse language config source).opens false ++
          (hiddenErrors config source.toList).map (·.span)) := by
  let opens := (parse language config source).opens
  let d := fileDraft language.levels config.maxDepth (arrangement config source)
  obtain ⟨-, hflagged, hreported⟩ : Draft.Accounts opens false
      (initialState (arrangement config source).items) d :=
    (built_fileDraft _ _ _).accounts (quiet_arrangement language config source)
  obtain ⟨htrailing, hcomments⟩ := faults_trailing language config source
  have hchildren : (parse language config source).root.children =
      d.nodes.toList ++ Node.ofComments (arrangement config source).trailing :=
    children_root_parse language config source
  have hroot := Node.reported_of_ordinary opens false
    (n := (parse language config source).root) (by rw [root_parse]; rfl) (by rw [root_parse]; rfl)
  constructor
  · refine .singleton ?_ ?_
    · rw [hchildren]
      exact Node.Flagged.append_iff.mpr ⟨hflagged, htrailing⟩
    · rw [hroot.1, root_parse]
      rfl
  · apply ((perm_errors language config source).map _).trans
    rw [hroot.2, hchildren, Node.reportedAll_append, hcomments, List.map_append,
      map_span_commentErrors config, List.append_assoc]
    apply List.Perm.append_right _
    simpa [initialState] using hreported

theorem unopened_parse (h : config.comments = false) :
    Node.Unopened (parse language config source).opens [(parse language config source).root] := by
  let opens := (parse language config source).opens
  let d := fileDraft language.levels config.maxDepth (arrangement config source)
  obtain ⟨hunopened, -, -⟩ : Draft.Accounts opens false
      (initialState (arrangement config source).items) d :=
    (built_fileDraft _ _ _).accounts (quiet_arrangement language config source)
  have htrailing : ∀ c ∈ (arrangement config source).trailing, opens c.span = false := by
    intro c hc
    have hcomment := (Arrangement.isComment_of_mem _).2 c hc
    have hmem := Arrangement.mem_of_mem_trailing hc
    simp [parsedTokens, h, hcomment] at hmem
  have hchildren : (parse language config source).root.children =
      d.nodes.toList ++ Node.ofComments (arrangement config source).trailing :=
    children_root_parse language config source
  refine Node.Unopened.cons_iff.mpr
    ⟨Node.not_isOpen_of_isOrdinary (by rw [root_parse]; rfl), ?_, .nil⟩
  rw [hchildren]
  exact Node.Unopened.append_iff.mpr ⟨hunopened, Node.unopened_ofComments htrailing⟩

end Tree

/-- Flags and problems agree. A node is flagged if an error, something missing or an unterminated
comment is at or below it. The problems, in the order of the source, are those of the missing
nodes, of the unterminated comments and of the errors that stand in no other error, and that of
at most one comment without a node, of which the tree shows nothing. -/
theorem Parser.faults_of_parse {p q : Parser} {l : Language} (hlanguage : p.setLanguage l = .ok q)
    (config : Config) (source : String) :
    ∃ tree, (q.setConfig config).parse? source = some tree ∧
      (∀ c ∈ (Cursor.ofTree tree).descendants, c.node.isFaulty = true ↔
        ∃ x ∈ c.descendants, x.node.isError = true ∨ x.node.isMissing = true ∨
          x.node.isOpen tree.opens = true) ∧
      (tree.errors.map (·.span)).Perm
        (tree.faults.map (·.node.span) ++
          (Tree.hiddenErrors config source.toList).map (·.span)) ∧
      tree.errors.Pairwise (fun a b ↦ a.span.precedes b.span = true) ∧
      (Tree.hiddenErrors config source.toList).length ≤ 1 ∧
      (config.comments = false → ∀ c ∈ (Cursor.ofTree tree).descendants,
        c.node.isOpen tree.opens = false) ∧
      (tree.errors = [] ↔
        tree.root.isFaulty = false ∧ Tree.hiddenErrors config source.toList = []) := by
  let tree := Tree.parse l config source
  obtain ⟨hflagged, hperm⟩ := Tree.accounts_parse l config source
  have hsound := Tree.sound_parse l config source
  refine ⟨tree, ?_, ?_, ?_, Tree.pairwise_errors l config source,
    Tree.length_hiddenErrors_le config source.toList, ?_, ?_⟩
  · simp [parse?, setConfig, language_of_setLanguage hlanguage, tree]
  · intro c hc
    have hstands := (Cursor.stands_ofTree hsound).of_mem_descendants hc
    have hmem := Tree.mem_preorder_of_mem_descendants hsound hc
    rw [hflagged c.node (by simpa using hmem), ← hstands.map_node_descendants, List.any_map,
      List.any_eq_true]
    simp [Node.isFault, or_assoc, tree]
  · rw [Tree.map_span_faults hsound]
    exact hperm
  · intro hcomments c hc
    have hmem := Tree.mem_preorder_of_mem_descendants hsound hc
    exact Tree.unopened_parse l config source hcomments c.node (by simpa using hmem)
  · have hroot := (Node.Flagged.cons_iff.mp hflagged).1
    have hlength := hperm.length_eq
    simp only [List.length_map, List.length_append] at hlength
    rw [hroot, ← Node.reported_eq_nil_iff, ← List.length_eq_zero_iff, hlength,
      Nat.add_eq_zero_iff, List.length_eq_zero_iff, List.length_eq_zero_iff]

theorem Parser.faults_of_parse_open_comment :
    Parser.setLanguage {} .cool = .ok { language := some .cool } ∧
      ∃ tree, (Parser.setConfig { language := some .cool } ⟨1, false⟩).parse? "class (*" =
          some tree ∧
        (tree.errors.map (·.span)).Perm
          (tree.faults.map (·.node.span) ++
            (Tree.hiddenErrors ⟨1, false⟩ "class (*".toList).map (·.span)) :=
  have hlanguage := setLanguage_cool {}
  have ⟨tree, hparse, _, hspans, _⟩ := faults_of_parse hlanguage ⟨1, false⟩ "class (*"
  ⟨hlanguage, tree, hparse, hspans⟩

end CoolTree
