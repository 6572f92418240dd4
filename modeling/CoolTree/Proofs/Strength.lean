import CoolTree.Proofs.Kinship
import CoolTree.Proofs.Report
import CoolTree.Proofs.Tight

/-!
# Binding strength

In a tree all operands are bound as tightly as their operators want. In Cool this keeps operators
in the order of their strengths. An assignment, a `let` and a `not` reach as far as they can, so
none of them stands on the edge of what an operator or a call takes as its first part.
-/

namespace CoolTree

open Draft

namespace Tree

/-- All nodes of a tree are well bound. -/
theorem grouped_parse (language : Language) (config : Config) (source : String) :
    ∀ n ∈ (parse language config source).root.preorder, n.Grouped language.levels := by
  let a := arrangement config source
  let file := fileDraft language.levels config.maxDepth a
  have hfile : Bounded language.levels file := Phrase.bounded_run
    (finished_expression language.levels config.maxDepth) .file Phrase.keepsBounds_file (.blank _)
  have hchildren : (parse language config source).root.children =
      file.nodes.toList ++ Node.ofComments a.trailing := children_root_parse language config source
  rw [Node.preorder_eq, List.forall_mem_cons, hchildren, Node.preorders_append,
    List.forall_mem_append]
  have hroot := root_parse language config source
  exact ⟨hroot ▸ .of_closed rfl (by rintro ⟨⟩), hfile.grouped, Node.Grouped.ofComments _⟩

end Tree

namespace Language

theorem strength_cool (o : Operator) :
    2 ≤ (cool.levels.operator o).strength ∧ (cool.levels.operator o).strength ≤ 4 := by
  rw [levels_cool]
  cases o <;> decide

theorem bound_rightOf_cool (o : Operator) :
    cool.levels.bound (.rightOf o) = (cool.levels.operator o).strength + 1 := by
  rw [levels_cool]
  cases o <;> rfl

/-- Calls bind most tightly of all. -/
theorem bound_lt_cool (b : Bound) :
    cool.levels.bound b < cool.levels.call ∧ cool.levels.bound b < cool.levels.super := by
  cases b with
  | rightOf o =>
      have hstrength := (strength_cool o).2
      rw [bound_rightOf_cool, levels_cool] at *
      dsimp only
      omega
  | _ => rw [levels_cool]; decide

end Language

namespace Node

theorem EndsIn.mem_preorder {r n m : Node} (hn : n ∈ r.preorder) (h : n.EndsIn m) :
    m ∈ r.preorder := by
  induction h with
  | self n => exact hn
  | last hchild _ ih =>
      apply ih
      exact mem_preorder_of_mem_children hn (List.mem_of_getLast? hchild)

theorem mem_preorder_of_mem_parts {r n c : Node} (hn : n ∈ r.preorder) (hc : c ∈ n.parts) :
    c ∈ r.preorder :=
  mem_preorder_of_mem_children hn (List.mem_of_mem_filter hc)

theorem getLast?_parts {n c : Node} (h : n.children.getLast? = some c)
    (hc : c.isExtra = false) : n.parts.getLast? = some c := by
  obtain ⟨before, hbefore⟩ := List.getLast?_eq_some_iff.mp h
  rw [parts, hbefore, List.filter_append, List.filter_cons_of_pos (by simp [hc]), List.filter_nil,
    List.getLast?_concat]

theorem Binary.mem_parts {n left right : Node} {o : Operator} (h : n.Binary left o right) :
    left ∈ n.parts ∧ right ∈ n.parts := by
  obtain ⟨-, sign, hparts, -⟩ := h
  simp [hparts]

namespace Grouped

variable {v : Levels} {n : Node}

theorem joins (h : n.Grouped v) (hkind : n.kind = .binaryExpression) : ∃ o, n.Joins o := by
  obtain ⟨left, o, right, hbinary, -⟩ := h.binary hkind
  exact ⟨o, left, right, hbinary⟩

/-- What stands behind an operator is as tight as the operator wants. -/
theorem right (h : n.Grouped v) {left right : Node} {o o' : Operator}
    (hbinary : n.Binary left o right) (hright : right.Joins o') :
    v.bound (.rightOf o) ≤ (v.operator o').strength := by
  have hwants : n.Wants (.rightOf o) := .inr ⟨o, ⟨left, right, hbinary⟩, rfl⟩
  obtain ⟨c, hlast, hextra, hjoins⟩ := h.operand (.rightOf o) hwants
  obtain ⟨-, sign, hparts, -⟩ := hbinary
  have hlast := getLast?_parts hlast hextra
  rw [hparts] at hlast
  obtain rfl : right = c := Option.some.inj hlast
  exact hjoins o' hright

/-- What stands behind a sign is as tight as the sign wants. -/
theorem behind (h : n.Grouped v) (hsign : n.kind.isPrefix = true) {b : Bound}
    (hb : n.kind.lastBound? = some b) {c : Node} (hc : c ∈ n.parts) {o : Operator}
    (hjoins : c.Joins o) : v.bound b ≤ (v.operator o).strength := by
  have hopen : c.kind.endsOpen = true := by
    rw [hjoins.kind_eq]
    decide
  obtain ⟨k, hlast, -, hoperand⟩ := h.operand b (.inl hb)
  rw [h.signed hsign c hc hopen] at hlast
  obtain rfl := Option.some.inj hlast
  exact hoperand o hjoins

end Grouped

section Cool

variable {r n : Node} (hr : ∀ m ∈ r.preorder, m.Grouped Language.cool.levels)
  (hn : n ∈ r.preorder)

include hr hn

/-- Operators in an operand of another one bind more tightly, or as tightly on the left, where
nothing that binds less than any operator stands on the edge. -/
theorem operands_of_grouped (hkind : n.kind = .binaryExpression) :
    ∃ left o right, n.Binary left o right ∧
      (left.kind = .binaryExpression → ∃ o', left.Joins o' ∧
        (Language.cool.binding o).strength ≤ (Language.cool.binding o').strength) ∧
      (right.kind = .binaryExpression → ∃ o', right.Joins o' ∧
        (Language.cool.binding o).strength < (Language.cool.binding o').strength) ∧
      ∀ m, left.EndsIn m →
        m.kind ∉ [Kind.assignmentExpression, .letExpression, .notExpression] := by
  obtain ⟨left, o, right, hbinary, hasks⟩ := (hr n hn).binary hkind
  obtain ⟨hleft, hright⟩ := hbinary.mem_parts
  refine ⟨left, o, right, hbinary, fun h ↦ ?_, fun h ↦ ?_, fun m hm hmem ↦ ?_⟩
  · obtain ⟨o', ho'⟩ := (hr left (mem_preorder_of_mem_parts hn hleft)).joins h
    have hless := hasks (.rightOf o') ⟨left, .self left, .inr ⟨o', ho', rfl⟩⟩
    rw [Language.bound_rightOf_cool, Language.operator_levels, Language.operator_levels] at hless
    exact ⟨o', ho', Int.lt_add_one_iff.mp hless⟩
  · obtain ⟨o', ho'⟩ := (hr right (mem_preorder_of_mem_parts hn hright)).joins h
    have hle := (hr n hn).right hbinary ho'
    rw [Language.bound_rightOf_cool, Language.operator_levels, Language.operator_levels] at hle
    exact ⟨o', ho', Int.add_one_le_iff.mp hle⟩
  -- what stands on the edge did not take the operator, so its bound is above the operator
  · have hweak : ∃ b, m.kind.lastBound? = some b ∧ Language.cool.levels.bound b < 2 := by
      rw [Language.levels_cool]
      simp only [List.mem_cons, List.not_mem_nil, or_false] at hmem
      rcases hmem with h | h | h <;> rw [h]
      · exact ⟨.assign, rfl, by decide⟩
      · exact ⟨.assign, rfl, by decide⟩
      · exact ⟨.negation, rfl, by decide⟩
    obtain ⟨b, hb, hbound⟩ := hweak
    have hless := hasks b ⟨m, hm, .inl hb⟩
    have hstrength := (Language.strength_cool o).1
    omega

theorem operand_of_grouped (hkind : n.kind = .unaryExpression ∨ n.kind = .isvoidExpression) :
    ∀ c ∈ n.parts, c.kind ≠ .binaryExpression := by
  intro c hc hbinary
  obtain ⟨o, ho⟩ := (hr c (mem_preorder_of_mem_parts hn hc)).joins hbinary
  have htight : ∃ b, n.kind.lastBound? = some b ∧ n.kind.isPrefix = true ∧
      4 < Language.cool.levels.bound b := by
    rw [Language.levels_cool]
    rcases hkind with h | h <;> rw [h]
    · exact ⟨.comp, rfl, rfl, by decide⟩
    · exact ⟨.isvoid, rfl, rfl, by decide⟩
  obtain ⟨b, hb, hsign, hbound⟩ := htight
  have hle := (hr n hn).behind hsign hb hc ho
  have hstrength := (Language.strength_cool o).2
  omega

/-- Nothing that ends in an operand stands on the edge of what a call is made on. -/
theorem receiver_of_grouped (hkind : n.kind = .dispatchExpression) {c m : Node} (hc : c ∈ n.parts)
    (hfield : c.field? = some .value) (hm : c.EndsIn m) : m.kind.endsOpen = false := by
  have hwants : ∀ b, ¬m.Wants b := by
    intro b hb
    have hless := Language.bound_lt_cool b
    rcases (hr n hn).receiver hkind c hc hfield b ⟨m, hm, hb⟩ with h | h <;> omega
  by_contra hopen
  rw [Bool.not_eq_false, Kind.endsOpen, Bool.or_eq_true, beq_iff_eq] at hopen
  rcases hopen with hbound | hbinary
  · obtain ⟨b, hb⟩ := Option.isSome_iff_exists.mp hbound
    exact hwants b (.inl hb)
  · obtain ⟨o, ho⟩ := (hr m (hm.mem_preorder (mem_preorder_of_mem_parts hn hc))).joins hbinary
    exact hwants (.rightOf o) (.inr ⟨o, ho, rfl⟩)

end Cool

end Node

/-- How tightly things are bound in a tree of Cool. An operator is stronger than one whose right
operand it stands in and at least as strong as one whose left operand it stands in. No assignment,
no `let` and no `not` ends a left operand, since it would have taken the operator. The operand of
`isvoid` and of `~` is no operator between operands. What a call is made on ends in nothing that has
an operand at its end. -/
theorem Parser.strengths_of_parse {p q : Parser} (hlanguage : p.setLanguage .cool = .ok q)
    (config : Config) (source : String) :
    ∃ tree, (q.setConfig config).parse? source = some tree ∧
      ∀ c ∈ (Cursor.ofTree tree).descendants,
        (c.node.kind = .binaryExpression → ∃ left o right, c.node.Binary left o right ∧
          (left.kind = .binaryExpression → ∃ o', left.Joins o' ∧
            (Language.cool.binding o).strength ≤ (Language.cool.binding o').strength) ∧
          (right.kind = .binaryExpression → ∃ o', right.Joins o' ∧
            (Language.cool.binding o).strength < (Language.cool.binding o').strength) ∧
          ∀ m, left.EndsIn m →
            m.kind ∉ [Kind.assignmentExpression, .letExpression, .notExpression]) ∧
        (c.node.kind = .unaryExpression ∨ c.node.kind = .isvoidExpression →
          ∀ operand ∈ c.node.parts, operand.kind ≠ .binaryExpression) ∧
        (c.node.kind = .dispatchExpression → ∀ value ∈ c.node.children,
          value.field? = some .value → ∀ m, value.EndsIn m →
            m.kind ∉ [Kind.assignmentExpression, .letExpression, .notExpression,
              .binaryExpression, .unaryExpression, .isvoidExpression]) := by
  let tree := Tree.parse .cool config source
  have hgrouped : ∀ n ∈ tree.root.preorder, n.Grouped Language.cool.levels :=
    Tree.grouped_parse .cool config source
  have hroleless := Tree.roleless_parse .cool config source
  refine ⟨tree, parse?_of_setLanguage hlanguage config source, fun c hc ↦ ?_⟩
  have hmem : c.node ∈ tree.root.preorder :=
    Tree.mem_preorder_of_mem_descendants (Tree.sound_parse .cool config source) hc
  refine ⟨Node.operands_of_grouped hgrouped hmem, Node.operand_of_grouped hgrouped hmem, ?_⟩
  intro hkind value hvalue hfield m hm hend
  -- a comment has no role, so the receiver is a part
  have hextra : value.isExtra = false := by
    rw [← Bool.not_eq_true]
    intro hextra
    rw [hroleless value (Node.mem_preorder_of_mem_children hmem hvalue) hextra] at hfield
    cases hfield
  have hpart : value ∈ c.node.parts := List.mem_filter.mpr ⟨hvalue, by simp [hextra]⟩
  have hopen : ∀ k ∈ [Kind.assignmentExpression, .letExpression, .notExpression,
      .binaryExpression, .unaryExpression, .isvoidExpression], k.endsOpen = true := by
    decide
  have hclosed := Node.receiver_of_grouped hgrouped hmem hkind hpart hfield hm
  rw [hopen m.kind hend] at hclosed
  cases hclosed

theorem Parser.strengths_of_parse_open_operands :
    Parser.setLanguage {} .cool = .ok { language := some .cool } ∧
      ∃ tree, (Parser.setConfig { language := some .cool } ⟨3, true⟩).parse?
          "class A \x7b x : Int <- ~ 1 + not y.f() * (**) <" = some tree ∧
        ∀ c ∈ (Cursor.ofTree tree).descendants, c.node.kind = .unaryExpression →
          ∀ operand ∈ c.node.parts, operand.kind ≠ .binaryExpression :=
  have hlanguage := setLanguage_cool {}
  have ⟨tree, hparse, hall⟩ := strengths_of_parse hlanguage ⟨3, true⟩
    "class A \x7b x : Int <- ~ 1 + not y.f() * (**) <"
  ⟨hlanguage, tree, hparse, fun c hc hkind ↦ (hall c hc).2.1 (.inl hkind)⟩

end CoolTree
