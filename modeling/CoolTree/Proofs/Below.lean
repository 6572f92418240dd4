import CoolTree.Proofs.Drafting
import CoolTree.Proofs.Preorder

/-!
# What is below the nodes of a draft

Pieces and comments are leaves, a string literal is a node above leaves, and a node that is put
around a draft is the only one that was not there before.
-/

namespace CoolTree

namespace Node

theorem preorders_of_leaves {ns : List Node} (h : ∀ n ∈ ns, n.children = []) :
    preorders ns = ns := by
  induction ns with
  | nil => rfl
  | cons n ns ih =>
      obtain ⟨hn, hns⟩ := List.forall_mem_cons.mp h
      rw [preorders_cons, preorder_eq, hn, ih hns]
      rfl

/-- A comment is a leaf with the kind of a token. -/
theorem leaf_of_mem_ofComments {cs : List Token} {n : Node}
    (h : n ∈ ofComments cs) : n.children = [] ∧ ∃ k : TokenKind, n.kind = k.leafKind := by
  induction cs with
  | nil => cases h
  | cons c cs ih =>
      rcases List.mem_cons.mp h with rfl | h
      · exact ⟨rfl, c.kind, rfl⟩
      · exact ih h

/-- A piece is a leaf with the kind it was given. -/
theorem leaf_of_mem_ofPieces {p : Position} {pieces : List (Kind × List Char)}
    {n : Node} (h : n ∈ ofPieces p pieces) :
    n.children = [] ∧ ∃ piece ∈ pieces, n.kind = piece.1 := by
  induction pieces generalizing p with
  | nil => cases h
  | cons piece pieces ih =>
      rcases List.mem_cons.mp h with rfl | h
      · exact ⟨rfl, piece, List.mem_cons_self, rfl⟩
      · obtain ⟨hchildren, other, hother, hkind⟩ := ih h
        exact ⟨hchildren, other, List.mem_cons_of_mem piece hother, hkind⟩

end Node

namespace Draft

/-- The kinds of the nodes in a string literal. -/
def isPieceKind (kind : Kind) : Bool :=
  kind == .quote || kind == .stringContent || kind == .escapeSequence

theorem isPieceKind_of_mem_literalPieces {parts : List BodyPart} {closed : Bool}
    {piece : Kind × List Char} (h : piece ∈ BodyPart.pieces parts closed) :
    isPieceKind piece.1 = true := by
  rcases List.mem_append.mp h with h | h
  · rcases List.mem_cons.mp h with rfl | h
    · rfl
    · obtain ⟨part, -, rfl⟩ := List.mem_map.mp h
      cases part <;> rfl
  · cases closed with
    | true => rw [List.mem_singleton.mp h]; rfl
    | false => cases h

theorem leaf_of_mem_literalChildren {item : Item} {parts : List BodyPart}
    {closed : Bool} {n : Node} (h : n ∈ literalChildren item parts closed) :
    n.children = [] ∧ isPieceKind n.kind = true := by
  rcases List.mem_append.mp h with h | h
  · obtain ⟨hchildren, piece, hpiece, hkind⟩ := Node.leaf_of_mem_ofPieces h
    exact ⟨hchildren, hkind ▸ isPieceKind_of_mem_literalPieces hpiece⟩
  · cases closed with
    | true => cases h
    | false => rw [List.mem_singleton.mp h]; exact ⟨rfl, rfl⟩

theorem preorder_literalNode (item : Item) (parts : List BodyPart)
    (closed : Bool) :
    (literalNode item parts closed).preorder =
      literalNode item parts closed :: literalChildren item parts closed := by
  rw [literalNode, Node.preorder_mk,
    Node.preorders_of_leaves fun n hn ↦ (leaf_of_mem_literalChildren hn).1]

/-- Below the nodes of a draft, the node put around it is the only new one. -/
theorem mem_preorders_enclose {d : Draft} {kind : Kind} {faulty : Bool} {n : Node}
    (h : n ∈ Node.preorders (d.enclose kind faulty).nodes.toList) :
    n ∈ Node.preorders d.nodes.toList ∨ n = d.enclosure kind faulty := by
  let front := d.nodes.toList.takeWhile Node.isExtra
  let children := d.nodes.toList.dropWhile Node.isExtra
  have hsplit : front ++ children = d.nodes.toList := List.takeWhile_append_dropWhile
  have hchildren : (d.enclosure kind faulty).children = children := rfl
  rw [toList_nodes_enclose, Node.preorders_append, Node.preorders_cons, Node.preorders_nil,
    List.append_nil, Node.preorder_eq, hchildren] at h
  rw [← hsplit, Node.preorders_append]
  rcases List.mem_append.mp h with h | h
  · exact .inl (List.mem_append_left _ h)
  · rcases List.mem_cons.mp h with rfl | h
    · exact .inr rfl
    · exact .inl (List.mem_append_right _ h)

end Draft

end CoolTree
