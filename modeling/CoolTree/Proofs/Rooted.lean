import CoolTree.Proofs.Arrangement
import CoolTree.Proofs.Cursors
import CoolTree.Proofs.Showing
import CoolTree.Proofs.Whole

/-!
# The tree of a source

A parse ends with an arena in which the root alone has no parent, and the root is that of the draft
of the file, with the comments behind the last token as its last children.
-/

namespace CoolTree

namespace Workspace

/-- Parsing starts with the comments in front of the first token. -/
theorem shows_start (a : Arrangement) :
    (start a.items a.trailing).Shows [] {} (.blank (Tree.initialState a.items)) := by
  let w : Workspace := ⟨.ofItems a.items, a.trailing, .origin, [], #[], #[]⟩
  obtain ⟨hinput, hreached, herrors, hgrows, hsize, ids, hpending, hids, hsound⟩ := w.queued_fetch
  have hwaiting : w.fetch.pending.toList = ids := hpending
  have hcomments : w.fetch.comments = w.comments := by
    rw [comments, comments, hinput, hgrows.trailing]
  have hlength := congrArg List.length hids
  rw [List.length_map, Node.length_ofComments, ← hwaiting, Array.length_toList] at hlength
  exact {
    input := hinput
    reached := hreached
    errors := herrors
    made := by
      show w.fetch.arena.size = 0 + w.fetch.pending.size
      rw [hsize, hlength]
      rfl
    pending := hwaiting ▸ hcomments ▸ hids
    sound := hwaiting ▸ hsound [] .empty
    fields := rfl
    leading := by simp
    head := by simp
    nodes := rfl }

/-- What is left at the end of a file becomes the root. -/
theorem Shows.root {w : Workspace} {b : Builder} {d : Draft} (h : w.Shows [] b d) (span : Span) :
    let nodes := d.nodes.toList ++ Node.ofComments w.comments
    let r := b.root span w
    r.2.arena.Sound [r.1] ∧ r.2.errors = w.errors ∧ r.2.arena.size = w.arena.size + 1 ∧
      r.2.arena.node r.1 =
        .mk { kind := .sourceFile, span := span, faulty := nodes.any Node.isFaulty } nodes := by
  let ids := b.leading ++ b.children.toList ++ w.pending.toList
  let fields := List.replicate b.leading.length none ++ b.fields.toList ++
    List.replicate w.pending.toList.length none
  let e : Entry :=
    { kind := .sourceFile
      span := span
      children := ids
      fields := fields
      faulty := false || ids.any fun id ↦ (w.arena.entry id).faulty }
  let arena : Arena := (w.arena.adopt w.arena.size ids).push e
  have heq : b.root span w = (w.arena.size, { w with arena := arena }) := rfl
  have hsound : w.arena.Sound ids := h.sound
  have hlt : ∀ i ∈ ids, i < w.arena.size := fun i hi ↦ ((hsound.mem_loose i).mp hi).1
  have hlength : ids.length = fields.length := by simp [ids, fields, h.fields]
  have hnodes : w.arena.nodesIn ids fields = d.nodes.toList ++ Node.ofComments w.comments := by
    rw [Arena.nodesIn_append _ (by simp [h.fields]), Arena.nodesIn_append _ (by simp),
      Arena.nodesIn_replicate _ fun i hi ↦ hlt i (by simp [ids, hi]),
      Arena.nodesIn_replicate _ fun i hi ↦ hlt i (by simp [ids, hi]), h.nodes, h.pending]
  have hfaulty : ids.any (fun id ↦ (w.arena.entry id).faulty) =
      (w.arena.nodesIn ids fields).any Node.isFaulty := w.arena.any_isFaulty_nodesIn hlt hlength
  dsimp only
  rw [heq, ← hnodes, ← hfaulty]
  refine ⟨?_, rfl, by simp [arena], w.arena.node_push_adopt e ids⟩
  exact (List.append_nil ids ▸ hsound).adopt (e := e) rfl hlength.symm rfl

end Workspace

namespace Tree

/-- The tokens that get nodes, arranged. -/
def arrangement (config : Config) (source : String) : Arrangement :=
  .ofTokens (parsedTokens config (Token.ofSource source.toList))

variable (levels : Levels) (maxDepth : Nat) (span : Span) (a : Arrangement)

/-- A file is put together as it is drafted. -/
theorem assemble_eq (h : ∀ item ∈ a.items, item.token.kind ≠ .ending) :
    let d := draft levels maxDepth a
    let r := assemble levels maxDepth span a
    r.2.arena.Sound [r.1] ∧ r.2.errors = d.state.errors ∧ r.2.arena.size = d.state.made + 1 ∧
      r.2.arena.node r.1 =
        .mk { kind := .sourceFile, span := span, faulty := d.nodes.toList.any Node.isFaulty }
          d.nodes.toList := by
  let start := Workspace.start a.items a.trailing
  let file := Phrase.file.build levels (Parsing.expression levels maxDepth) {} start
  obtain ⟨hgrows, hfile⟩ : start.Reaches [] file (fileDraft levels maxDepth a) :=
    (Workspace.shows_start a).build (Workspace.expresses_expression levels maxDepth) .file
  have htrailing : file.2.trailing = a.trailing :=
    hgrows.trailing.trans (Workspace.queued_fetch _).grows.trailing
  have hcomments : file.2.comments = a.trailing := by
    rw [Workspace.comments, hfile.input, items_fileDraft levels maxDepth a h]
    exact htrailing
  obtain ⟨hsound, herrors, hsize, hnode⟩ := hfile.root span
  rw [hcomments, ← toList_nodes_draft] at hnode
  refine ⟨hsound, ?_, ?_, hnode⟩
  · rw [errors_draft, ← hfile.errors]
    exact herrors
  · rw [made_draft, ← hcomments, ← hfile.length_pending, ← hfile.made]
    exact hsize

variable (language : Language) (config : Config) (source : String)

theorem ne_ending_arrangement :
    ∀ item ∈ (arrangement config source).items, item.token.kind ≠ .ending := fun item hitem ↦
  TokenKind.IsSignificant.ne_ending (Arrangement.isSignificant_token item hitem)

/-- Behind the last token the draft of a file ends. -/
theorem items_fileDraft_arrangement :
    (fileDraft levels maxDepth (arrangement config source)).state.input.items = [] :=
  items_fileDraft _ _ _ (ne_ending_arrangement config source)

theorem assemble_arrangement :
    let d := draft language.levels config.maxDepth (arrangement config source)
    let r := assemble language.levels config.maxDepth span (arrangement config source)
    r.2.arena.Sound [r.1] ∧ r.2.errors = d.state.errors ∧ r.2.arena.size = d.state.made + 1 ∧
      r.2.arena.node r.1 =
        .mk { kind := .sourceFile, span := span, faulty := d.nodes.toList.any Node.isFaulty }
          d.nodes.toList :=
  assemble_eq _ _ _ _ (ne_ending_arrangement config source)

theorem sound_parse :
    (parse language config source).arena.Sound [(parse language config source).top] :=
  (assemble_arrangement _ language config source).1

theorem stands_parse : (Cursor.ofTree (parse language config source)).Stands :=
  Cursor.stands_ofTree (sound_parse language config source)

theorem nodeCount_parse : (parse language config source).nodeCount =
    (draft language.levels config.maxDepth (arrangement config source)).state.made + 1 :=
  (assemble_arrangement _ language config source).2.2.1

/-- The problems of a tree are those of the draft and of the comments, in the order of the
source. -/
theorem errors_parse : (parse language config source).errors =
    ((draft language.levels config.maxDepth (arrangement config source)).state.errors.reverse ++
      commentErrors (Token.ofSource source.toList)).mergeSort (·.span.precedes ·.span) := by
  rw [← (assemble_arrangement _ language config source).2.1]
  rfl

/-- The root covers the source and stands above the nodes of the draft. -/
theorem root_parse : (parse language config source).root =
    let nodes :=
      (draft language.levels config.maxDepth (arrangement config source)).nodes.toList
    .mk
      { kind := .sourceFile
        span := ⟨.origin, Position.origin.after source.toList⟩
        faulty := nodes.any Node.isFaulty } nodes :=
  (assemble_arrangement _ language config source).2.2.2

theorem children_root_eq_draft : (parse language config source).root.children =
    (draft language.levels config.maxDepth (arrangement config source)).nodes.toList :=
  congrArg Node.children (root_parse language config source)

theorem children_root_parse : (parse language config source).root.children =
    (fileDraft language.levels config.maxDepth (arrangement config source)).nodes.toList ++
      Node.ofComments (arrangement config source).trailing := by
  rw [children_root_eq_draft, toList_nodes_draft]

theorem span_root_parse : (parse language config source).root.span =
    ⟨.origin, Position.origin.after source.toList⟩ := by
  rw [root_parse]
  rfl

end Tree

end CoolTree
