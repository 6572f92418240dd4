import CoolTree.Proofs.Confined

/-!
# A file goes on at every class

A file is read up to a class as it would be read if it ended there, and from the class on as if it
began there. What was read stays in front, and so do comments that no token of the first part
followed.
-/

namespace CoolTree

namespace Draft

variable (d : Draft)

theorem prefix_leaf (field : Option Field) (kind : Kind) (faulty : Bool) :
    d.nodes.toList <+: (d.leaf field kind faulty).nodes.toList := by
  cases hitems : d.state.input.items with
  | nil => rw [leaf_of_nil d hitems]
  | cons item rest =>
      rw [toList_nodes_leaf d hitems, List.append_assoc]
      exact List.prefix_append _ _

theorem prefix_missing (field : Option Field) (kind : Kind) (problem : Problem) :
    d.nodes.toList <+: (d.missing field kind problem).nodes.toList := by
  rw [toList_nodes_missing]
  exact List.prefix_append _ _

theorem prefix_attach (field : Option Field) (inner : Draft) :
    d.nodes.toList <+: (d.attach field inner).nodes.toList := by
  rw [toList_nodes_attach]
  exact List.prefix_append _ _

theorem prefix_literal : d.nodes.toList <+: d.literal.nodes.toList := by
  unfold literal
  split
  · rename_i item rest hitems
    split
    · obtain ⟨hnodes, -⟩ := stringLiteral_eq d item _ _
      rw [hnodes, List.append_assoc]
      exact List.prefix_append _ _
    · exact List.prefix_rfl
  · exact List.prefix_rfl

theorem prefix_skip (stop : TokenClass) : d.nodes.toList <+: (d.skip stop).nodes.toList := by
  rcases skip_eq d stop with ⟨-, heq⟩ | ⟨n, w, -, -, heq⟩
  · rw [heq]
  · rw [heq]
    exact prefix_attach d none _

theorem prefix_expect (t : Terminal) : d.nodes.toList <+: (d.expect t).nodes.toList := by
  have hskip := prefix_skip d (.either (.only t) .synchronizing)
  simp only [expect]
  split
  · exact hskip.trans (prefix_leaf _ _ _ _)
  · exact hskip.trans (prefix_missing _ _ _ _)

theorem prefix_word (field : Option Field) (slot : Slot) :
    d.nodes.toList <+: (d.word field slot).nodes.toList := by
  unfold word
  split
  · exact prefix_leaf d _ _ _
  · exact prefix_missing d _ _ _

theorem prefix_repeatWhile (test : Test) {round : Draft → Draft}
    (h : ∀ d : Draft, d.nodes.toList <+: (round d).nodes.toList) :
    d.nodes.toList <+: (repeatWhile test round d).nodes.toList := by
  fun_induction repeatWhile test round d with
  | case1 d _ _ _ ih => exact (h d).trans ih
  | case2 d _ _ _ => exact h d
  | case3 d _ => exact List.prefix_rfl

end Draft

open Draft

variable {levels : Levels} {expression : Int → State → Draft} {q : Sequel}

/-- What a phrase drafts comes behind what is there. -/
theorem Phrase.prefix_run (p : Phrase) (d : Draft) :
    d.nodes.toList <+: (p.run levels expression d).nodes.toList := by
  induction p generalizing d with
  | done => exact List.prefix_rfl
  | expect t next ih => exact (prefix_expect d t).trans (ih _)
  | take field next ih => exact (prefix_leaf d _ _ _).trans (ih _)
  | word field slot next ih => exact (prefix_word d field slot).trans (ih _)
  | literal next ih => exact (prefix_literal d).trans (ih _)
  | operand field bound next ih => exact (prefix_attach d field _).trans (ih _)
  | node field kind body next _ ih => exact (prefix_attach d field _).trans (ih _)
  | choose test yes no next ihyes ihno ihnext =>
      refine List.IsPrefix.trans ?_ (ihnext _)
      split
      · exact ihyes d
      · exact ihno d
  | loop test body next ihbody ihnext =>
      exact (prefix_repeatWhile d test ihbody).trans (ihnext _)
  | skip stop next ih => exact (prefix_skip d stop).trans (ih _)
  | absent next ih => exact (prefix_missing d _ _ _).trans (ih _)

theorem Phrase.confined_fileItem : fileItem.confined 1 = true := by
  decide

namespace Draft

theorem holds_outside_ending {i : Input} :
    Test.holds (.outside .ending) i = true ↔ i.current ≠ .ending := by
  simp [Test.holds, TokenClass.has]

/-- As long as there are tokens of its own, a file is read without a look at what follows. -/
theorem fileItems_of_abreast
    (hadvances : ∀ least s, State.Advances s (expression least s).state)
    (hexpression : ∀ least s t, State.Abreast q s t →
      Together q [] (expression least s) (expression least t)) {front : List Node} (d : Draft) :
    ∀ e : Draft, Abreast q front d e →
      (∃ e', Abreast q front (d.fileItems levels expression) e' ∧
        e.fileItems levels expression = e'.fileItems levels expression) ∨
      q.Lost (e.fileItems levels expression).state := by
  unfold fileItems
  fun_induction repeatWhile (.outside .ending) (Phrase.fileItem.run levels expression) d with
  | case1 d hholds next hlt ih =>
      intro e h
      have hne := holds_outside_ending.mp hholds
      obtain ⟨item, rest, hitems, -⟩ := items_of_current rfl hne
      have hholds' : Test.holds (.outside .ending) e.state.input = true := by
        rw [holds_outside_ending, h.state.current_of_cons hitems]
        exact hne
      rcases Phrase.fileItem.together_run hadvances hexpression Phrase.confined_fileItem h
        (d.state.input.one_le_of_current hne) with hnext | hlost
      · rw [repeatWhile_of_holds hholds', if_pos ((h.state.size_lt_iff hnext.state).mpr hlt)]
        exact ih _ hnext
      · exact .inr (hlost.of_advances (advances_round (Phrase.advances_run hadvances _) hholds'))
  -- Every round takes a token.
  | case2 d hholds next hnot =>
      exact (hnot (Phrase.size_fileItem_lt hadvances d hholds)).elim
  | case3 d hnot => exact fun e h ↦ .inl ⟨e, h, rfl⟩

theorem fileItems_of_holds
    (hadvances : ∀ least s, State.Advances s (expression least s).state) {d : Draft}
    (h : Test.holds (.outside .ending) d.state.input = true) :
    d.fileItems levels expression =
      (Phrase.fileItem.run levels expression d).fileItems levels expression := by
  rw [fileItems, repeatWhile_of_holds h, if_pos (Phrase.size_fileItem_lt hadvances d h)]
  rfl

theorem run_fileItem_of_class {d : Draft} (h : d.state.input.current = .terminal .classWord) :
    Phrase.fileItem.run levels expression d = d.attach none
      ((Phrase.classItem.run levels expression (blank d.state)).enclose .classItem false) := by
  have hholds : Test.holds (.within (.only .classWord)) d.state.input = true := by
    simp [Test.holds, TokenClass.has, h]
  rw [Phrase.fileItem, Phrase.run, if_pos hholds]
  rfl

/-- A class whose first child is the word at a place of the source. -/
def ClassAt (s : Span) (n : Node) : Prop :=
  n.kind = .classItem ∧ ∃ k ∈ n.children.head?, k.kind = .terminal .classWord ∧ k.span = s

theorem exists_classItem
    (hadvances : ∀ least s, State.Advances s (expression least s).state) {d : Draft} {item : Item}
    {rest : List Item} (hitems : d.state.input.items = item :: rest)
    (hclass : item.token.kind = .terminal .classWord) :
    ∃ n ∈ (d.fileItems levels expression).nodes.toList, ClassAt item.token.span n := by
  have hcurrent : d.state.input.current = .terminal .classWord := by
    rw [Input.current, hitems]
    exact hclass
  have hholds : Test.holds (.outside .ending) d.state.input = true :=
    holds_outside_ending.mpr (by simp [hcurrent])
  let inner := Phrase.classItem.run levels expression (blank d.state)
  have hbehind : ((blank d.state).take none).nodes.toList <+: inner.nodes.toList :=
    Phrase.prefix_run _ _
  obtain ⟨more, hmore⟩ := hbehind
  rw [take, toList_nodes_leaf (blank d.state) hitems, toList_nodes_blank, List.nil_append,
    List.append_assoc] at hmore
  let word : Node :=
    .mk ⟨d.state.input.current.leafKind, item.token.span, none, false, false, false⟩ []
  have hchildren : (inner.enclosure .classItem false).children = word :: more := by
    have hdrop : (inner.enclosure .classItem false).children =
        inner.nodes.toList.dropWhile Node.isExtra := rfl
    rw [hdrop, ← hmore,
      List.dropWhile_append_of_pos fun x hx ↦ Node.isExtra_of_mem_ofComments hx]
    rfl
  refine ⟨(inner.enclosure .classItem false).assign none, ?_, by rw [Node.kind_assign]; rfl, word,
    ?_, ?_, rfl⟩
  · rw [fileItems_of_holds hadvances hholds, run_fileItem_of_class hcurrent]
    refine (prefix_repeatWhile _ _ (Phrase.prefix_run _)).subset ?_
    rw [toList_nodes_attach, toList_nodes_enclose]
    simp [inner]
  · rw [Node.children_assign, hchildren]
    rfl
  · rw [show word.kind = d.state.input.current.leafKind from rfl, hcurrent]
    rfl

/-- The first token taken, with more comments in front of it on one side. -/
theorem abreast_take {s t : State} {item next : Item} {rest more : List Item}
    (hs : s.input.items = item :: rest) (ht : t.input.items = next :: more)
    (hkind : next.token.kind = item.token.kind) {passed : List Token}
    (hcomments : next.comments.map (·.kind) = (passed ++ item.comments).map (·.kind))
    (hmore : more.map Item.kinds = rest.map Item.kinds) (hq : q.items = [])
    (herrors : t.errors.length = q.errors + s.errors.length) :
    Abreast q ((Node.ofComments passed).map Node.shape) ((blank s).take none)
      ((blank t).take none) := by
  have hcurrent : t.input.current = s.input.current := by
    rw [Input.current, Input.current, hs, ht]
    exact hkind
  have hshapes := Node.shapes_ofComments hcomments
  rw [Node.shapes_ofComments_append] at hshapes
  refine ⟨⟨⟨more, ?_, ?_⟩, ?_, .inl hq⟩, ?_⟩
  · rw [take, state_leaf (blank t) ht, hq, List.append_nil]
    exact congrArg List.tail ht
  · rw [take, state_leaf (blank s) hs, hmore]
    exact congrArg (List.map Item.kinds) (congrArg List.tail hs).symm
  · rw [take, take, state_leaf (blank s) hs, state_leaf (blank t) ht]
    exact herrors
  · rw [take, take, toList_nodes_leaf (blank s) hs, toList_nodes_leaf (blank t) ht,
      toList_nodes_blank, toList_nodes_blank, List.nil_append, List.nil_append, List.map_append,
      List.map_append, hshapes, List.append_assoc]
    simp [Node.shape_mk, Label.shape, current, hcurrent]

/-- A file from a class on, behind what was read and comments that were passed. -/
theorem fileItems_of_class
    (hadvances : ∀ least s, State.Advances s (expression least s).state)
    (hexpression : ∀ q least s t, State.Abreast q s t →
      Together q [] (expression least s) (expression least t)) {s : State} {e : Draft}
    {item next : Item} {rest more : List Item} (hs : s.input.items = item :: rest)
    (he : e.state.input.items = next :: more) (hclean : s.errors = [])
    (hclass : item.token.kind = .terminal .classWord) (hkind : next.token.kind = item.token.kind)
    {passed : List Token}
    (hcomments : next.comments.map (·.kind) = (passed ++ item.comments).map (·.kind))
    (hmore : more.map Item.kinds = rest.map Item.kinds) :
    (e.fileItems levels expression).nodes.toList.map Node.shape =
        e.nodes.toList.map Node.shape ++ (Node.ofComments passed).map Node.shape ++
          ((blank s).fileItems levels expression).nodes.toList.map Node.shape ∧
      (e.fileItems levels expression).state.errors.length = e.state.errors.length +
        ((blank s).fileItems levels expression).state.errors.length := by
  let q : Sequel := ⟨[], by simp, e.state.errors.length, False⟩
  let comments := (Node.ofComments passed).map Node.shape
  have hpassed : ∀ n ∈ comments, n.isExtra = true := fun _ hn ↦
    Node.isExtra_of_mem_shapes_ofComments hn
  have hword : s.input.current = .terminal .classWord := by
    rw [Input.current, hs]
    exact hclass
  have hword' : e.state.input.current = .terminal .classWord := by
    rw [Input.current, he]
    exact hkind.trans hclass
  have hstart : Abreast q comments ((blank s).take none) ((blank e.state).take none) :=
    abreast_take hs he hkind hcomments hmore rfl (by simp [q, hclean])
  have hinner : Abreast q comments (Phrase.classItem.run levels expression (blank s))
      (Phrase.classItem.run levels expression (blank e.state)) := by
    obtain ⟨next, hnext, hconfined⟩ :
        ∃ next, Phrase.classItem = .take none next ∧ next.confined 0 = true := ⟨_, rfl, rfl⟩
    rw [hnext]
    exact (next.together_run hadvances (hexpression q) hconfined hstart
      (Nat.zero_le _)).resolve_right fun hlost ↦ hlost.1
  have hround : Abreast q (e.nodes.toList.map Node.shape ++ comments)
      (Phrase.fileItem.run levels expression (blank s))
      (Phrase.fileItem.run levels expression e) := by
    rw [run_fileItem_of_class (d := blank s) hword, run_fileItem_of_class hword']
    exact (hinner.enclose hpassed .classItem false).attach_front hpassed s e
  have hall : Abreast q (e.nodes.toList.map Node.shape ++ comments)
      ((blank s).fileItems levels expression) (e.fileItems levels expression) := by
    have hholds : Test.holds (.outside .ending) (blank s).state.input = true :=
      holds_outside_ending.mpr (by simp [hword])
    have hholds' : Test.holds (.outside .ending) e.state.input = true :=
      holds_outside_ending.mpr (by simp [hword'])
    rw [fileItems_of_holds hadvances hholds, fileItems_of_holds hadvances hholds']
    refine (together_repeatWhile (Phrase.advances_run hadvances _) ?_ ?_ _ _ hround).resolve_right
      fun hlost ↦ hlost.1
    · intro d e h
      rw [Test.holds, Test.holds, h.state.current_of_nil rfl]
    · intro d e h hholds
      exact Phrase.fileItem.together_run hadvances (hexpression q) Phrase.confined_fileItem h
        (d.state.input.one_le_of_current (holds_outside_ending.mp hholds))
  exact ⟨hall.shapes, hall.state.errors⟩

end Draft

end CoolTree
