import CoolTree.Proofs.Below
import CoolTree.Proofs.Rooted
import CoolTree.Proofs.Steps

/-!
# Comments play no role

Whatever a draft is made of, comments are put into it without a role, and keep none.
-/

namespace CoolTree

namespace Node

/-- A node that plays no role if it is a comment. -/
def Roleless (n : Node) : Prop :=
  n.isExtra = true → n.field? = none

theorem Roleless.assign {n : Node} (h : n.Roleless) (field : Option Field) :
    (n.assign field).Roleless := by
  intro hextra
  rw [isExtra_assign] at hextra
  rw [assign_of_isExtra hextra]
  exact h hextra

theorem roleless_of_not_isExtra {n : Node} (h : n.isExtra = false) : n.Roleless := by
  intro hextra
  rw [h] at hextra
  cases hextra

theorem roleless_ofComments (cs : List Token) : ∀ n ∈ preorders (ofComments cs), n.Roleless := by
  induction cs with
  | nil => simp [ofComments]
  | cons c cs ih =>
      rw [ofComments, preorders_cons, List.forall_mem_append]
      exact ⟨by simp [ofComment, preorder_mk, Roleless, field?], ih⟩

end Node

namespace Draft

theorem roleless_tokenNode_pass {d e : Draft} {item : Item} {n : Node}
    (h : ∀ m ∈ Node.preorders d.nodes.toList, m.Roleless)
    (hnodes : e.nodes.toList = d.nodes.toList ++ Node.ofComments item.comments ++ [n])
    (hn : ∀ m ∈ n.preorder, m.Roleless) : ∀ m ∈ Node.preorders e.nodes.toList, m.Roleless := by
  rw [hnodes, Node.preorders_append, Node.preorders_append, Node.preorders_cons,
    Node.preorders_nil, List.append_nil]
  simp only [List.forall_mem_append]
  exact ⟨⟨h, Node.roleless_ofComments item.comments⟩, hn⟩

end Draft

theorem Stepwise.roleless {s : State} {d : Draft} (h : Stepwise s d) :
    ∀ n ∈ Node.preorders d.nodes.toList, n.Roleless := by
  induction h with
  | blank s => simp
  | @leaf s d _ item rest hitems field kind _ faulty ih =>
      refine Draft.roleless_tokenNode_pass ih
        (Draft.toList_nodes_leaf d hitems field kind faulty) ?_
      simp [Node.preorder_mk, Node.Roleless, Node.isExtra]
  | @literal s d _ item rest _ parts closed _ ih =>
      refine Draft.roleless_tokenNode_pass ih (Draft.stringLiteral_eq d item parts closed).1 ?_
      rw [Draft.preorder_literalNode, List.forall_mem_cons]
      exact ⟨Node.roleless_of_not_isExtra rfl, fun n hn ↦
        Node.roleless_of_not_isExtra (Draft.not_isExtra_of_mem_literalChildren hn)⟩
  | @missing s d _ field kind _ problem ih =>
      rw [Draft.toList_nodes_missing, Node.preorders_append, List.forall_mem_append]
      exact ⟨ih, by simp [Node.absentAt, Node.preorder_mk, Node.Roleless, Node.isExtra]⟩
  | enclose _ _ _ ih =>
      intro n hn
      rcases Draft.mem_preorders_enclose hn with hn | rfl
      · exact ih n hn
      · exact Node.roleless_of_not_isExtra rfl
  | @attach s d inner _ field _ ih ihpart =>
      rw [Draft.toList_nodes_attach, Node.preorders_append, List.forall_mem_append]
      exact ⟨ih, Node.forall_mem_preorders_map (Node.children_assign field)
        (fun n hn ↦ hn.assign field) ihpart⟩
  | reportLast _ _ ih => exact ih

namespace Tree

variable (language : Language) (config : Config) (source : String)

/-- Comments in a tree play no role. -/
theorem roleless_parse : ∀ n ∈ (parse language config source).root.preorder, n.Roleless := by
  let a := arrangement config source
  have hfile := (built_fileDraft language.levels config.maxDepth a).stepwise.roleless
  rw [Node.preorder_eq, List.forall_mem_cons, children_root_parse, Node.preorders_append,
    List.forall_mem_append]
  refine ⟨Node.roleless_of_not_isExtra ?_, hfile, Node.roleless_ofComments a.trailing⟩
  rw [root_parse]
  rfl

end Tree

end CoolTree
