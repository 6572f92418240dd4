import CoolTree.Proofs.Matching
import CoolTree.Proofs.Kinship
import CoolTree.Proofs.Report

/-!
# Comments, layout and spelling

Leaving out comments gives the tree without its comments: nothing else in it, and no error, depends
on them. And without comments, sources whose tokens have the same outlines have trees of the same
shape, so neither blanks nor names, numbers and texts decide anything.
-/

namespace CoolTree

namespace Node

theorem preorder_shape (n : Node) : n.shape.preorder = n.preorder.map shape := by
  induction n using Node.induction with
  | step label children ih =>
      rw [shape_mk, preorder_mk, preorder_mk, List.map_cons, shape_mk, preorders_eq_flatMap,
        preorders_eq_flatMap, List.map_flatMap, List.flatMap_map]
      exact congrArg _ (List.flatMap_congr ih)

theorem seen_false (n : Node) : n.seen false = n.bare.shape :=
  relabel_shape n.bare

theorem seen_true (n : Node) : n.seen true = n.bare :=
  relabel_id n.bare

theorem children_bare (n : Node) : n.bare.children = seenAll true n.children := by
  cases n with
  | mk label children =>
      rw [bare_mk, children_mk, children_mk, seenAll, funext seen_true]

theorem any_isFaulty_ofComments (cs : List Token) :
    (ofComments cs).any isFaulty = cs.any (·.kind == .blockComment false) := by
  induction cs with
  | nil => rfl
  | cons c cs ih => rw [ofComments, List.any_cons, List.any_cons, ih]; rfl

theorem field?_bare (n : Node) : n.bare.field? = n.field? := by
  cases n with
  | mk label children =>
      rw [bare_mk]
      rfl

/-- The children of a bare node that play a role are the children that play it, without the comments
below them. -/
theorem filter_children_bare {n : Node} (h : ∀ c ∈ n.children, c.isExtra = true → c.field? = none)
    (f : Field) :
    n.bare.children.filter (·.field? == some f) =
      (n.children.filter (·.field? == some f)).map bare := by
  cases n with
  | mk label children =>
      rw [bare_mk, children_mk, children_mk, List.filter_map, List.filter_filter]
      refine congrArg (List.map bare) (List.filter_congr fun c hc ↦ ?_)
      cases hextra : c.isExtra with
      | true => simp [field?_bare, h c hc hextra]
      | false => simp [field?_bare]

end Node

namespace Cursor

/-- The roles in the list of an entry, without those of the comments among its children. -/
def partFields (c : Cursor) : List (Option Field) :=
  ((c.children.zip c.entry.fields).filter fun k ↦ !k.1.node.isExtra).map Prod.snd

theorem Stands.partFields_eq {c : Cursor} (h : c.Stands) :
    c.partFields = c.node.bare.children.map Node.field? := by
  let isPart (n : Node) : Bool := !n.isExtra
  have hzip : c.children.zip c.entry.fields = c.children.map fun k ↦ (k, k.node.field?) := by
    rw [h.fields_eq, ← h.map_node_children, List.map_map, List.zip, List.zipWith_map_right,
      List.zipWith_self]
    rfl
  have hbare : c.node.bare.children = (c.node.children.filter isPart).map Node.bare := by
    cases c.node with
    | mk label children => rw [Node.bare_mk, Node.children_mk, Node.children_mk]
  calc
    c.partFields = (c.children.filter (isPart ·.node)).map (·.node.field?) := by
      rw [partFields, hzip, List.filter_map, List.map_map]
      rfl
    _ = (c.node.children.filter isPart).map Node.field? := by
      rw [← h.map_node_children, List.filter_map, List.map_map]
      rfl
    _ = c.node.bare.children.map Node.field? := by
      rw [hbare, List.map_map]
      exact List.map_congr_left fun n _ ↦ n.field?_bare.symm

end Cursor

namespace Draft

/-- Drafts without comments, and without comments ahead. -/
structure Uncommented (d : Draft) : Prop where
  items : ∀ item ∈ d.state.input.items, item.comments = []
  nodes : ∀ n ∈ Node.preorders d.nodes.toList, n.isExtra = false

/-- A node for the next token. -/
theorem Uncommented.pass {d d' : Draft} (h : d.Uncommented) {item : Item} {rest : List Item}
    (hitems : d.state.input.items = item :: rest) {node : Node}
    (hnode : ∀ n ∈ node.preorder, n.isExtra = false)
    (hnodes : d'.nodes.toList =
      d.nodes.toList ++ Node.ofComments item.comments ++ [node])
    (hinput : d'.state.input = d.state.input.tail) : d'.Uncommented := by
  have hcomments : item.comments = [] := h.items item (hitems ▸ List.mem_cons_self)
  constructor
  · rw [hinput, Input.items_tail]
    exact fun item hitem ↦ h.items item (List.mem_of_mem_tail hitem)
  · rw [hnodes, hcomments, Node.ofComments, List.append_nil, Node.preorders_append,
      List.forall_mem_append]
    exact ⟨h.nodes, by simpa using hnode⟩

end Draft

open Draft in
theorem Stepwise.uncommented {s : State} {d : Draft} (h : Stepwise s d)
    (hs : ∀ item ∈ s.input.items, item.comments = []) : d.Uncommented := by
  induction h with
  | blank s => exact ⟨hs, by simp⟩
  | @leaf s d _ item rest hitems field kind _ faulty ih =>
      refine (ih hs).pass hitems ?_ (toList_nodes_leaf d hitems field kind faulty) ?_
      · simp [Node.preorder_mk, Node.isExtra]
      · rw [state_leaf d hitems]
  | @literal s d _ item rest hitems parts closed _ ih =>
      obtain ⟨hnodes, hinput, -⟩ := stringLiteral_eq d item parts closed
      refine (ih hs).pass hitems ?_ hnodes hinput
      rw [preorder_literalNode, List.forall_mem_cons]
      exact ⟨rfl, fun n hn ↦ not_isExtra_of_mem_literalChildren hn⟩
  | @missing s d _ field kind _ problem ih =>
      refine ⟨(ih hs).items, ?_⟩
      rw [toList_nodes_missing, Node.preorders_append, List.forall_mem_append]
      exact ⟨(ih hs).nodes, by simp [Node.absentAt, Node.preorder_mk, Node.isExtra]⟩
  | @enclose s d _ kind _ faulty ih =>
      refine ⟨(ih hs).items, fun n hn ↦ ?_⟩
      rcases mem_preorders_enclose hn with hn | rfl
      · exact (ih hs).nodes n hn
      · rfl
  | @attach s d inner _ field _ ih ihpart =>
      have hinner := ihpart (ih hs).items
      refine ⟨hinner.items, ?_⟩
      rw [toList_nodes_attach, Node.preorders_append, List.forall_mem_append]
      refine ⟨(ih hs).nodes, Node.forall_mem_preorders_map (Node.children_assign field) ?_
        hinner.nodes⟩
      exact fun n hn ↦ (n.isExtra_assign field).trans hn
  | reportLast _ problem ih => exact ⟨(ih hs).items, (ih hs).nodes⟩

namespace Tree

variable (l : Language) (config : Config)

theorem matches_fileDraft (placed : Bool) (config config' : Config) {s t : String}
    (htokens : (Token.significant t.toList).map (·.seen placed) =
      (Token.significant s.toList).map (·.seen placed)) (v : Levels) (depth : Nat) :
    Draft.Matches placed (fileDraft v depth (arrangement config s))
      (fileDraft v depth (arrangement config' t)) := by
  refine (Draft.Matches.lockstep placed).fileDraft (fun _ _ ↦ rfl) depth (Draft.Matches.blank ?_)
  refine ⟨?_, ?_, ?_, fun _ ↦ rfl, fun _ ↦ rfl⟩
  · rw [← map_token_arrangement config' t, ← map_token_arrangement config s, List.map_map,
      List.map_map] at htokens
    exact htokens
  · exact (openLast_parsedTokens config s).closed_of_mem
  · exact (openLast_parsedTokens config' t).closed_of_mem

/-- The children of the root, as far as they are compared, do not include the last comments. -/
theorem seenAll_root (placed : Bool) (source : String) :
    Node.seenAll placed (parse l config source).root.children =
      Node.seenAll placed
        (fileDraft l.levels config.maxDepth (arrangement config source)).nodes.toList := by
  rw [children_root_parse, Node.seenAll_append, Node.seenAll_ofComments, List.append_nil]

theorem uncommented_arrangement (hcomments : config.comments = false) (source : String) :
    (∀ item ∈ (arrangement config source).items, item.comments = []) ∧
      (arrangement config source).trailing = [] := by
  have hnone : ∀ t ∈ parsedTokens config (Token.ofSource source.toList),
      t.kind.isComment = false := by
    intro t ht
    simp only [parsedTokens, hcomments] at ht
    simpa using (List.mem_filter.mp ht).2
  obtain ⟨hitems, htrailing⟩ := Arrangement.isComment_of_mem
    (parsedTokens config (Token.ofSource source.toList))
  constructor
  · intro item hitem
    refine List.eq_nil_iff_forall_not_mem.mpr fun c hc ↦ ?_
    have hmem := Arrangement.mem_of_mem_tokens hitem (List.mem_append_left _ hc)
    exact Bool.false_ne_true ((hnone c hmem).symm.trans (hitems item hitem c hc))
  · refine List.eq_nil_iff_forall_not_mem.mpr fun c hc ↦ ?_
    have hmem := Arrangement.mem_of_mem_trailing hc
    exact Bool.false_ne_true ((hnone c hmem).symm.trans (htrailing c hc))

/-- Without comments in the tree, it is bare. -/
theorem bare_root (hcomments : config.comments = false) (source : String) :
    (parse l config source).root.bare = (parse l config source).root := by
  obtain ⟨hitems, htrailing⟩ := uncommented_arrangement config hcomments source
  have hfile : (fileDraft l.levels config.maxDepth (arrangement config source)).Uncommented :=
    (built_fileDraft _ _ _).stepwise.uncommented hitems
  refine Node.bare_eq_self ?_
  rw [children_root_parse, htrailing, Node.ofComments, List.append_nil]
  exact hfile.nodes

/-- The flag of the root is raised by what is compared below it, or by a last comment. -/
theorem isFaulty_root (placed : Bool) (source : String) :
    (parse l config source).root.isFaulty =
      ((Node.seenAll placed (parse l config source).root.children).any Node.isFaulty ||
        (arrangement config source).trailing.any (·.kind == .blockComment false)) := by
  have htidy := (matches_fileDraft placed config config (s := source) rfl l.levels
    config.maxDepth).tidy
  have hflag : (parse l config source).root.isFaulty =
      (draft l.levels config.maxDepth (arrangement config source)).nodes.toList.any
        Node.isFaulty := by
    rw [root_parse]
    rfl
  rw [hflag, toList_nodes_draft, List.any_append, Node.any_isFaulty_ofComments, seenAll_root,
    Node.any_isFaulty_seenAll, htidy.any_isFaulty_filter]

/-- Sources with the same outlines of tokens have trees of the same shape. -/
theorem shape_root (hcomments : config.comments = false) {s t : String}
    (htokens : (Token.significant t.toList).map (·.kind.outline) =
      (Token.significant s.toList).map (·.kind.outline)) :
    (parse l config t).root.shape = (parse l config s).root.shape := by
  have hseen : (Token.significant t.toList).map (·.seen false) =
      (Token.significant s.toList).map (·.seen false) := by
    have hmap := congrArg (List.map fun k ↦ (⟨[], .origin, k, []⟩ : Token)) htokens
    rw [List.map_map, List.map_map] at hmap
    exact hmap
  have hmatch := matches_fileDraft false config config hseen l.levels config.maxDepth
  have hbelow : Node.seenAll false (parse l config t).root.children =
      Node.seenAll false (parse l config s).root.children := by
    rw [seenAll_root, seenAll_root, hmatch.nodes]
  have hflag : (parse l config t).root.isFaulty = (parse l config s).root.isFaulty := by
    rw [isFaulty_root l config false, isFaulty_root l config false, hbelow,
      (uncommented_arrangement config hcomments s).2,
      (uncommented_arrangement config hcomments t).2]
  have hroot : ∀ source, (parse l config source).root.shape =
      .mk ⟨.sourceFile, .emptyAt .origin, none, false, false,
        (parse l config source).root.isFaulty⟩
        (Node.seenAll false (parse l config source).root.children) := by
    intro source
    rw [← bare_root l config hcomments source, ← Node.seen_false, bare_root l config hcomments,
      root_parse]
    exact Node.seen_mk false _ _
  rw [hroot, hroot, hbelow, hflag]

/-- The tokens of a source end in a comment that lacks its end. -/
theorem ending_of_trailing {source : String}
    (h : (arrangement config source).trailing.any (·.kind == .blockComment false) = true) :
    ∃ before comment ending, Token.ofSource source.toList = before ++ [comment, ending] ∧
      comment.kind = .blockComment false := by
  obtain ⟨comment, hmem, hopen⟩ := List.any_eq_true.mp h
  rw [beq_iff_eq] at hopen
  have hsource := mem_of_mem_parsedTokens (Arrangement.mem_of_mem_trailing hmem)
  have hstream := Token.stream_ofSource source.toList
  obtain ⟨body, ending, htokens, hending, hbody⟩ := hstream.eq_append_ending
  rw [htokens, List.mem_append, List.mem_singleton] at hsource
  rcases hsource with hsource | rfl
  · obtain ⟨before, behind, rfl⟩ := List.append_of_mem hsource
    have hbehind := hstream.ending_of_open (htokens.trans (List.append_assoc _ _ _)) hopen
    have hnone : behind = [] := List.eq_nil_iff_forall_not_mem.mpr fun u hu ↦
      hbody u (by simp [hu]) (hbehind u (by simp [hu]))
    exact ⟨before, comment, ending, by rw [htokens, hnone]; simp, hopen⟩
  · rw [hopen] at hending
    cases hending

end Tree

/-- Leaving comments out is taking them out of the tree. The tree without comments is the tree with
comments once these are removed from it, but for the flag of the root, and the errors are the same.
The flag of the root differs at most if the source ends in a comment that lacks its end. Whatever
plays a role in the tree with comments plays it in the bare tree, and the lists of roles in the
arenas are those of the children, with the places of comments left out. -/
theorem Parser.erasure_of_parse {p q : Parser} {l : Language} (hlanguage : p.setLanguage l = .ok q)
    (depth : Nat) (source : String) :
    ∃ full bare, (q.setConfig ⟨depth, true⟩).parse? source = some full ∧
      (q.setConfig ⟨depth, false⟩).parse? source = some bare ∧
      bare.errors = full.errors ∧
      bare.root.label = { full.root.label with faulty := bare.root.isFaulty } ∧
      bare.root.children = full.root.bare.children ∧
      (∀ c ∈ (Cursor.ofTree full).descendants, ∀ f,
        c.node.bare.children.filter (·.field? == some f) =
          (c.node.children.filter (·.field? == some f)).map Node.bare) ∧
      (∀ c ∈ (Cursor.ofTree full).descendants,
        c.partFields = c.node.bare.children.map Node.field?) ∧
      (∀ c ∈ (Cursor.ofTree bare).descendants,
        c.entry.fields = c.node.children.map Node.field?) ∧
      (bare.root.isFaulty ≠ full.root.isFaulty →
        ∃ before comment ending, Token.ofSource source.toList = before ++ [comment, ending] ∧
          comment.kind = .blockComment false) := by
  let full := Tree.parse l ⟨depth, true⟩ source
  let bare := Tree.parse l ⟨depth, false⟩ source
  have hmatch := Tree.matches_fileDraft true ⟨depth, true⟩ ⟨depth, false⟩ (s := source) rfl
    l.levels depth
  have hseen : Node.seenAll true bare.root.children = Node.seenAll true full.root.children := by
    rw [Tree.seenAll_root, Tree.seenAll_root, hmatch.nodes]
  refine ⟨full, bare, parse?_of_setLanguage hlanguage _ source,
    parse?_of_setLanguage hlanguage _ source, ?_, ?_, ?_, ?_, ?_, ?_, ?_⟩
  · rw [Tree.errors_parse, Tree.errors_parse, Tree.errors_draft, Tree.errors_draft,
      hmatch.state.errors rfl]
  · rw [Tree.root_parse, Tree.root_parse]
    rfl
  · rw [← Tree.bare_root l ⟨depth, false⟩ rfl source, Node.children_bare, Node.children_bare]
    exact hseen
  · intro c hc f
    have hmem : c.node ∈ full.root.preorder :=
      Tree.mem_preorder_of_mem_descendants (Tree.sound_parse l ⟨depth, true⟩ source) hc
    refine Node.filter_children_bare (fun k hk ↦ ?_) f
    have hbelow := Node.mem_preorder_of_mem_children hmem hk
    exact Tree.roleless_parse l ⟨depth, true⟩ source k hbelow
  · intro c hc
    exact ((Tree.stands_parse l ⟨depth, true⟩ source).of_mem_descendants hc).partFields_eq
  · intro c hc
    exact ((Tree.stands_parse l ⟨depth, false⟩ source).of_mem_descendants hc).fields_eq
  · intro hflags
    refine Tree.ending_of_trailing ⟨depth, true⟩ ?_
    by_contra hnone
    refine hflags ?_
    have hlast := (Tree.uncommented_arrangement ⟨depth, false⟩ rfl source).2
    rw [Tree.isFaulty_root l _ true, Tree.isFaulty_root l _ true, hseen, hlast,
      Bool.eq_false_iff.mpr hnone]
    rfl

theorem Parser.erasure_of_parse_open_comment :
    let source := "class A \x7b x (* y *) : -- z\n B \x7d; (* c"
    Parser.setLanguage {} .cool = .ok { language := some .cool } ∧
      ∃ full bare,
        (Parser.setConfig { language := some .cool } ⟨3, true⟩).parse? source = some full ∧
        (Parser.setConfig { language := some .cool } ⟨3, false⟩).parse? source = some bare ∧
        bare.errors = full.errors ∧
        bare.root.children = full.root.bare.children :=
  have hlanguage := setLanguage_cool {}
  have ⟨full, bare, hfull, hbare, herrors, _, hchildren, _⟩ :=
    erasure_of_parse hlanguage 3 "class A \x7b x (* y *) : -- z\n B \x7d; (* c"
  ⟨hlanguage, full, bare, hfull, hbare, herrors, hchildren⟩

/-- Layout and spelling decide nothing. Without comments in trees, two sources whose tokens have the
same outlines have trees of the same shape: the same S-expression, the same number of nodes, and the
same kinds, roles and flags in pre-order. -/
theorem Parser.layout_of_parse {p q : Parser} {l : Language} (hlanguage : p.setLanguage l = .ok q)
    (config : Config) (hcomments : config.comments = false) {s t : String}
    (htokens : (Token.significant t.toList).map (·.kind.outline) =
      (Token.significant s.toList).map (·.kind.outline)) :
    ∃ first second, (q.setConfig config).parse? s = some first ∧
      (q.setConfig config).parse? t = some second ∧
      second.root.sexp = first.root.sexp ∧ second.nodeCount = first.nodeCount ∧
      second.root.shape = first.root.shape ∧
      (Cursor.ofTree second).descendants.map (fun c ↦ (c.node.kind, c.node.field?, c.node.isMissing,
          c.node.isError, c.node.isFaulty)) =
        (Cursor.ofTree first).descendants.map (fun c ↦ (c.node.kind, c.node.field?,
          c.node.isMissing, c.node.isError, c.node.isFaulty)) := by
  let first := Tree.parse l config s
  let second := Tree.parse l config t
  have hshape : second.root.shape = first.root.shape :=
    Tree.shape_root l config hcomments htokens
  have hpreorder : second.root.preorder.map Node.shape = first.root.preorder.map Node.shape := by
    rw [← Node.preorder_shape, ← Node.preorder_shape, hshape]
  refine ⟨first, second, parse?_of_setLanguage hlanguage config s,
    parse?_of_setLanguage hlanguage config t, ?_, ?_, hshape, ?_⟩
  · rw [← Node.sexp_shape, hshape, Node.sexp_shape]
  · have hlength := congrArg List.length hpreorder
    rw [List.length_map, List.length_map] at hlength
    rw [Tree.nodeCount_eq (Tree.sound_parse l config t), hlength,
      Tree.nodeCount_eq (Tree.sound_parse l config s)]
  · let traits (n : Node) := (n.kind, n.field?, n.isMissing, n.isError, n.isFaulty)
    have htraits : ∀ ns : List Node, ns.map traits = (ns.map Node.shape).map traits := fun ns ↦ by
      rw [List.map_map]
      exact List.map_congr_left fun n _ ↦ by simp [traits]
    calc
      (Cursor.ofTree second).descendants.map (traits ·.node) =
          second.root.preorder.map traits := by
        rw [← Tree.map_node_descendants (Tree.sound_parse l config t), List.map_map]
        rfl
      _ = first.root.preorder.map traits := by rw [htraits, hpreorder, ← htraits]
      _ = (Cursor.ofTree first).descendants.map (traits ·.node) := by
        rw [← Tree.map_node_descendants (Tree.sound_parse l config s), List.map_map]
        rfl

theorem Parser.layout_of_parse_respelled :
    let s := "class A \x7b x : B <- f(1, \"a\\n\") ? \x7d;"
    let t := "class Main\x7byy:Foo<-\ng (*c*) (23,\"bc\\t\")#\x7d; -- d"
    Parser.setLanguage {} .cool = .ok { language := some .cool } ∧
      (Token.significant t.toList).map (·.kind.outline) =
        (Token.significant s.toList).map (·.kind.outline) ∧
      ∃ first second,
        (Parser.setConfig { language := some .cool } ⟨3, false⟩).parse? s = some first ∧
        (Parser.setConfig { language := some .cool } ⟨3, false⟩).parse? t = some second ∧
        second.root.sexp = first.root.sexp ∧ second.nodeCount = first.nodeCount := by
  intro s t
  have htokens : (Token.significant t.toList).map (·.kind.outline) =
      (Token.significant s.toList).map (·.kind.outline) := by
    decide +kernel
  obtain ⟨first, second, hfirst, hsecond, hsexp, hcount, -⟩ :=
    layout_of_parse (setLanguage_cool {}) ⟨3, false⟩ rfl htokens
  exact ⟨setLanguage_cool {}, htokens, first, second, hfirst, hsecond, hsexp, hcount⟩

end CoolTree
