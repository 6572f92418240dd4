import CoolTree.Tree.Node
import Mathlib.Data.List.Basic

/-!
# Nodes in pre-order

A node comes before the nodes below it, and these come child by child.
-/

namespace CoolTree

namespace Node

mutual

/-- The node and everything below it, each node before the nodes below it. -/
def preorder : Node → List Node
  | mk label children => mk label children :: preorders children

def preorders : List Node → List Node
  | [] => []
  | n :: rest => n.preorder ++ preorders rest

end

@[simp] theorem preorders_nil : preorders [] = [] := rfl

@[simp] theorem preorders_cons (n : Node) (rest : List Node) :
    preorders (n :: rest) = n.preorder ++ preorders rest := rfl

@[simp] theorem preorders_append (xs ys : List Node) :
    preorders (xs ++ ys) = preorders xs ++ preorders ys := by
  induction xs with
  | nil => rfl
  | cons x xs ih => simp [ih]

theorem preorder_mk (label : Label) (children : List Node) :
    (mk label children).preorder = mk label children :: preorders children := rfl

theorem preorder_eq (n : Node) : n.preorder = n :: preorders n.children := by
  cases n
  rfl

theorem preorders_eq_flatMap (ns : List Node) : preorders ns = ns.flatMap preorder := by
  induction ns with
  | nil => rfl
  | cons n ns ih => simp [ih]

theorem mem_preorders {x : Node} {ns : List Node} :
    x ∈ preorders ns ↔ ∃ n ∈ ns, x ∈ n.preorder := by
  rw [preorders_eq_flatMap, List.mem_flatMap]

/-- What holds of several nodes and all below them still holds when these nodes are relabelled. -/
theorem forall_mem_preorders_map {P : Node → Prop} {f : Node → Node}
    (hchildren : ∀ n, (f n).children = n.children) (hf : ∀ n, P n → P (f n)) {ns : List Node}
    (h : ∀ n ∈ preorders ns, P n) : ∀ n ∈ preorders (ns.map f), P n := by
  intro n hn
  obtain ⟨_, hmem, hn⟩ := mem_preorders.mp hn
  obtain ⟨m, hm, rfl⟩ := List.mem_map.mp hmem
  have hbelow : ∀ k ∈ m.preorder, P k := fun k hk ↦ h k (mem_preorders.mpr ⟨m, hm, hk⟩)
  rw [preorder_eq, List.forall_mem_cons] at hbelow
  rw [preorder_eq, hchildren] at hn
  rcases List.mem_cons.mp hn with rfl | hn
  · exact hf m hbelow.1
  · exact hbelow.2 n hn

theorem mem_preorder_of_mem_children {r n c : Node} (hn : n ∈ r.preorder) (hc : c ∈ n.children) :
    c ∈ r.preorder := by
  induction r using Node.induction with
  | step label children ih =>
      rw [preorder_mk, List.mem_cons, mem_preorders] at hn ⊢
      rcases hn with rfl | ⟨k, hk, hn⟩
      · exact .inr ⟨c, hc, by rw [preorder_eq]; exact List.mem_cons_self⟩
      · exact .inr ⟨k, hk, ih k hk hn⟩

theorem self_mem_preorder (n : Node) : n ∈ n.preorder := by
  rw [preorder_eq]
  exact List.mem_cons_self

end Node

end CoolTree
