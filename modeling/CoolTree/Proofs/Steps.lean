import CoolTree.Proofs.Built

/-!
# Drafts step by step

A draft is a leaf, a string literal, a missing node or a part behind what is there, or all of it
made into one node. Errors are no exception: the tokens they swallow become leaves and literals
before a node is put around them. A property of drafts that each of these steps keeps holds of
every draft.
-/

namespace CoolTree

def Kind.isComment : Kind → Bool
  | .inlineComment | .blockComment => true
  | _ => false

theorem Kind.not_isComment_of_isOrdinary {kind : Kind} (h : kind.isOrdinary = true) :
    kind.isComment = false := by
  cases kind <;> first | rfl | cases h

theorem TokenKind.isComment_leafKind (k : TokenKind) : k.leafKind.isComment = k.isComment := by
  cases k <;> rfl

/-- The drafts that single steps lead to from a state. -/
inductive Stepwise : State → Draft → Prop
  | blank (s : State) : Stepwise s (.blank s)
  | leaf {s : State} {d : Draft} (h : Stepwise s d) {item : Item} {rest : List Item}
      (items : d.state.input.items = item :: rest) (field : Option Field) {kind : Kind}
      (comment : kind.isComment = true → item.token.kind.isComment = true) (faulty : Bool) :
      Stepwise s (d.leaf field kind faulty)
  | literal {s : State} {d : Draft} (h : Stepwise s d) {item : Item} {rest : List Item}
      (items : d.state.input.items = item :: rest) {parts : List BodyPart} {closed : Bool}
      (kind : item.token.kind = .string parts closed) :
      Stepwise s (d.stringLiteral item parts closed)
  | missing {s : State} {d : Draft} (h : Stepwise s d) (field : Option Field) {kind : Kind}
      (comment : kind.isComment = false) (problem : Problem) :
      Stepwise s (d.missing field kind problem)
  | enclose {s : State} {d : Draft} (h : Stepwise s d) {kind : Kind}
      (comment : kind.isComment = false) (faulty : Bool) : Stepwise s (d.enclose kind faulty)
  | attach {s : State} {d inner : Draft} (h : Stepwise s d) (field : Option Field)
      (part : Stepwise d.state inner) : Stepwise s (d.attach field inner)
  | reportLast {s : State} {d : Draft} (h : Stepwise s d) (problem : Problem) :
      Stepwise s (d.reportLast problem)

namespace Stepwise

open Draft

variable {s : State} {d : Draft}

theorem tokenNode (h : Stepwise s d) : Stepwise s d.tokenNode := by
  cases hitems : d.state.input.items with
  | nil => rwa [tokenNode_of_nil d hitems]
  | cons item rest =>
      rcases tokenNode_cases d hitems with ⟨parts, closed, hkind, heq⟩ | ⟨faulty, -, heq, -⟩
      · rw [heq]
        exact h.literal hitems hkind
      · rw [heq]
        exact h.leaf hitems none (item.token.kind.isComment_leafKind ▸ id) faulty

theorem tokenNodes (h : Stepwise s d) (n : Nat) : Stepwise s (d.tokenNodes n) := by
  induction n generalizing d with
  | zero => exact h
  | succ n ih => exact ih h.tokenNode

end Stepwise

theorem Draft.Swallowed.stepwise {s : State} {n : Nat} {w : Draft} (h : Swallowed s n w) :
    Stepwise s w := by
  have htokens : Stepwise s ((Draft.blank s).tokenNodes n) := (Stepwise.blank s).tokenNodes n
  cases h with
  | wrapped => exact htokens.enclose rfl true
  | lone => exact htokens

theorem Built.stepwise {s : State} {d : Draft} (h : Built s d) : Stepwise s d := by
  induction h with
  | blank s => exact .blank s
  | leaf _ hitems field hfits ih =>
      have hcomment := Kind.not_isComment_of_isOrdinary hfits.isOrdinary
      exact ih.leaf hitems field (by simp [hcomment]) false
  | literal _ hitems hkind ih => exact ih.literal hitems hkind
  | missing _ field hkind problem ih =>
      exact ih.missing field (Kind.not_isComment_of_isOrdinary hkind) problem
  | enclose _ hkind ih => exact ih.enclose (Kind.not_isComment_of_isOrdinary hkind) false
  | attach _ field _ ih ihpart => exact ih.attach field ihpart
  | swallow hw _ problem => exact hw.stepwise.reportLast problem

end CoolTree
