import CoolTree.Proofs.Flawless

/-!
# The roles that a phrase gives

Comments play no role, and whatever else a phrase drafts plays the role that is written in the
phrase, or none. So if a field does not occur in a phrase, nothing new plays that role.
-/

namespace CoolTree

namespace Draft

/-- A draft has no nodes in a role besides those of another one. -/
def Adds (f : Field) (d e : Draft) : Prop :=
  ∀ n ∈ e.nodes.toList, n.isExtra = false → n.field? = some f → n ∈ d.nodes.toList

namespace Adds

variable {f : Field} {d e e' : Draft}

theorem refl (d : Draft) : Adds f d d :=
  fun _ hn _ _ ↦ hn

theorem trans (h : Adds f d e) (h' : Adds f e e') : Adds f d e' :=
  fun n hn hextra hfield ↦ h n (h' n hn hextra hfield) hextra hfield

theorem of_append {ns : List Node} (h : e.nodes.toList = d.nodes.toList ++ ns)
    (hns : ∀ n ∈ ns, n.isExtra = false → n.field? ≠ some f) : Adds f d e := by
  intro n hn hextra hfield
  rw [h, List.mem_append] at hn
  rcases hn with hn | hn
  · exact hn
  · exact (hns n hn hextra hfield).elim

/-- Comments and one more node. -/
theorem of_pass {cs : List Token} {n : Node}
    (h : e.nodes.toList = d.nodes.toList ++ Node.ofComments cs ++ [n])
    (hn : n.field? ≠ some f) : Adds f d e := by
  rw [List.append_assoc] at h
  refine of_append h fun m hm hextra ↦ ?_
  rcases List.mem_append.mp hm with hm | hm
  · rw [Node.isExtra_of_mem_ofComments hm] at hextra
    cases hextra
  · rwa [List.mem_singleton.mp hm]

theorem attach (inner : Draft) {field : Option Field} (hfield : field ≠ some f) :
    Adds f d (d.attach field inner) := by
  refine of_append (toList_nodes_attach d inner field) fun n hn hextra ↦ ?_
  obtain ⟨m, -, rfl⟩ := List.mem_map.mp hn
  rw [Node.isExtra_assign] at hextra
  rwa [Node.field_assign hextra]

theorem leaf {field : Option Field} (hfield : field ≠ some f) (kind : Kind) (faulty : Bool) :
    Adds f d (d.leaf field kind faulty) := by
  cases hitems : d.state.input.items with
  | nil => rw [leaf_of_nil d hitems]; exact refl d
  | cons item rest => exact of_pass (toList_nodes_leaf d hitems field kind faulty) hfield

theorem missing {field : Option Field} (hfield : field ≠ some f) (kind : Kind)
    (problem : Problem) : Adds f d (d.missing field kind problem) := by
  refine of_append (toList_nodes_missing d field kind problem) fun n hn _ ↦ ?_
  rwa [List.mem_singleton.mp hn]

theorem skip (stop : TokenClass) : Adds f d (d.skip stop) := by
  rcases skip_eq d stop with ⟨-, heq⟩ | ⟨n, w, -, -, heq⟩
  · rw [heq]
    exact refl d
  · rw [heq]
    exact attach _ (by simp)

theorem expect (t : Terminal) : Adds f d (d.expect t) := by
  refine (skip (.either (.only t) .synchronizing)).trans ?_
  unfold Draft.expect
  dsimp only
  split
  · exact leaf (by simp) _ _
  · exact missing (by simp) _ _

theorem word {field : Option Field} (hfield : field ≠ some f) (slot : Slot) :
    Adds f d (d.word field slot) := by
  unfold Draft.word
  split
  · exact leaf hfield _ _
  · exact missing hfield _ _

theorem literal : Adds f d d.literal := by
  unfold Draft.literal
  split
  · split
    · obtain ⟨hnodes, -⟩ := stringLiteral_eq d _ _ _
      exact of_pass hnodes (by simp [literalNode, Node.field?])
    · exact refl d
  · exact refl d

theorem repeatWhile {test : Test} {round : Draft → Draft} (hround : ∀ d, Adds f d (round d)) :
    Adds f d (Draft.repeatWhile test round d) := by
  fun_induction Draft.repeatWhile test round d with
  | case1 d _ next _ ih => exact (hround d).trans ih
  | case2 d _ next _ => exact hround d
  | case3 d _ => exact refl d

end Adds

end Draft

open Draft

namespace Phrase

variable {v : Levels} {x : Int → State → Draft}

/-- Whether a phrase gives no part the role of a field. -/
def avoids (f : Field) : Phrase → Bool
  | done => true
  | take field next | word field _ next | operand field _ next | node field _ _ next =>
    field != some f && next.avoids f
  | choose _ yes no next => yes.avoids f && no.avoids f && next.avoids f
  | loop _ body next => body.avoids f && next.avoids f
  | expect _ next | literal next | skip _ next | absent next => next.avoids f

theorem adds_run {f : Field} (p : Phrase) (hp : p.avoids f = true) (d : Draft) :
    Adds f d (p.run v x d) := by
  induction p generalizing d with
  | done => exact .refl d
  | expect t next ih => exact (Adds.expect t).trans (ih hp _)
  | literal next ih => exact Adds.literal.trans (ih hp _)
  | skip stop next ih => exact (Adds.skip stop).trans (ih hp _)
  | absent next ih => exact (Adds.missing (by simp) _ _).trans (ih hp _)
  | take field next ih =>
      simp only [avoids, Bool.and_eq_true, bne_iff_ne] at hp
      exact (Adds.leaf hp.1 _ _).trans (ih hp.2 _)
  | word field slot next ih =>
      simp only [avoids, Bool.and_eq_true, bne_iff_ne] at hp
      exact (Adds.word hp.1 slot).trans (ih hp.2 _)
  | operand field bound next ih =>
      simp only [avoids, Bool.and_eq_true, bne_iff_ne] at hp
      exact (Adds.attach _ hp.1).trans (ih hp.2 _)
  | node field kind body next _ ih =>
      simp only [avoids, Bool.and_eq_true, bne_iff_ne] at hp
      exact (Adds.attach _ hp.1).trans (ih hp.2 _)
  | choose test yes no next ihyes ihno ih =>
      simp only [avoids, Bool.and_eq_true] at hp
      obtain ⟨⟨hyes, hno⟩, hnext⟩ := hp
      rw [run]
      split
      · exact (ihyes hyes d).trans (ih hnext _)
      · exact (ihno hno d).trans (ih hnext _)
  | loop test body next ihbody ih =>
      simp only [avoids, Bool.and_eq_true] at hp
      exact (Adds.repeatWhile (ihbody hp.1)).trans (ih hp.2 _)

end Phrase

end CoolTree
