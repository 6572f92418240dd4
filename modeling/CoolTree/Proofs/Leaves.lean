import CoolTree.Proofs.Arrangement
import CoolTree.Proofs.Built
import CoolTree.Proofs.Preorder
import Mathlib.Data.List.Forall2

/-!
# The leaves of a tree

Read in pre-order, the leaves of a syntax tree are the pieces of the tokens of its source, and a
missing node stands where the last of them that is no comment has ended. Drafts are read like
trees: enclosing a draft puts a node in front of others and changes nothing that is read.
-/

namespace CoolTree

/-- A part of the source that makes a leaf of its own. -/
structure Piece where
  span : Span
  text : List Char
  deriving DecidableEq

namespace Piece

/-- Pieces with the given texts, one behind the other. -/
def row (p : Position) : List (List Char) → List Piece
  | [] => []
  | text :: rest => ⟨⟨p, p.after text⟩, text⟩ :: row (p.after text) rest

end Piece

/-- The pieces of a token. A string literal has its quotes and its parts, every other token is
one piece. -/
def Token.pieces (t : Token) : List Piece :=
  match t.kind with
  | .string parts closed =>
    Piece.row t.start (['"'] :: parts.map BodyPart.text ++ if closed then [['"']] else [])
  | _ => [⟨t.span, t.text⟩]

namespace Node

/-- Leaves have no children and cover a part of the source. -/
def isLeaf (n : Node) : Bool :=
  n.children.isEmpty && !n.span.isEmpty

/-- A leaf that covers a piece, and names it if it has no name of its own. -/
def Shows (n : Node) (piece : Piece) : Prop :=
  n.span = piece.span ∧ (n.kind.isNamed = false → n.kind.name.toList = piece.text)

/-- Where the last leaf ends that is no comment, if there is one. -/
def lastStop (p : Position) (ns : List Node) : Position :=
  ((ns.filter fun n ↦ n.isLeaf && !n.isExtra).getLast?.map (·.span.stop)).getD p

theorem lastStop_cons (p : Position) (n : Node) (ns : List Node) :
    lastStop p (n :: ns) =
      lastStop (if n.isLeaf && !n.isExtra then n.span.stop else p) ns := by
  by_cases h : (n.isLeaf && !n.isExtra) = true
  · rw [lastStop, List.filter_cons_of_pos (by exact h), List.getLast?_cons, if_pos h, lastStop]
    cases (ns.filter fun n ↦ n.isLeaf && !n.isExtra).getLast? <;> rfl
  · rw [lastStop, List.filter_cons_of_neg (by exact h), if_neg h, lastStop]

/-- Nodes that differ at most in their roles. -/
structure Alike (n m : Node) : Prop where
  children : m.children = n.children
  kind : m.kind = n.kind
  span : m.span = n.span
  isExtra : m.isExtra = n.isExtra
  isMissing : m.isMissing = n.isMissing

namespace Alike

variable {n m : Node}

theorem isLeaf (h : Alike n m) : m.isLeaf = n.isLeaf := by
  rw [Node.isLeaf, h.children, h.span, Node.isLeaf]

theorem shows (h : Alike n m) {piece : Piece} (hn : n.Shows piece) : m.Shows piece := by
  rw [Shows, h.span, h.kind]
  exact hn

theorem refl (n : Node) : Alike n n :=
  ⟨rfl, rfl, rfl, rfl, rfl⟩

theorem assign (field : Option Field) (n : Node) : Alike n (n.assign field) :=
  ⟨by simp, by simp, by simp, by simp, by simp⟩

end Alike

theorem alike_preorders_assign (field : Option Field) (ns : List Node) :
    List.Forall₂ Alike (preorders ns) (preorders (ns.map (Node.assign field))) := by
  induction ns with
  | nil => exact .nil
  | cons n ns ih =>
      rw [List.map_cons, preorders_cons, preorders_cons, preorder_eq, preorder_eq,
        children_assign, List.cons_append, List.cons_append]
      exact .cons (.assign field n)
        (List.rel_append (List.forall₂_same.mpr fun x _ ↦ .refl x) ih)

/-- Nodes in pre-order, read from a position on: the pieces that their leaves show, and where the
last leaf ends that is no comment. A missing node stands where reading has come to. -/
inductive Reads : Position → List Node → List Piece → Position → Prop
  | nil (p : Position) : Reads p [] [] p
  | leaf {p q : Position} {n : Node} {rest : List Node} {piece : Piece} {pieces : List Piece}
      (isLeaf : n.isLeaf = true) (isExtra : n.isExtra = false) (isMissing : n.isMissing = false)
      (shows : n.Shows piece) (tail : Reads piece.span.stop rest pieces q) :
      Reads p (n :: rest) (piece :: pieces) q
  | comment {p q : Position} {n : Node} {rest : List Node} {piece : Piece} {pieces : List Piece}
      (isLeaf : n.isLeaf = true) (isExtra : n.isExtra = true) (isMissing : n.isMissing = false)
      (shows : n.Shows piece) (tail : Reads p rest pieces q) :
      Reads p (n :: rest) (piece :: pieces) q
  | missing {p q : Position} {n : Node} {rest : List Node} {pieces : List Piece}
      (children : n.children = []) (span : n.span = .emptyAt p) (tail : Reads p rest pieces q) :
      Reads p (n :: rest) pieces q
  | inner {p q : Position} {n : Node} {rest : List Node} {pieces : List Piece}
      (isLeaf : n.isLeaf = false) (isMissing : n.isMissing = false)
      (tail : Reads p rest pieces q) : Reads p (n :: rest) pieces q

theorem isLeaf_of_span_eq_emptyAt {n : Node} {p : Position} (h : n.span = .emptyAt p) :
    n.isLeaf = false := by
  simp [isLeaf, h, Span.emptyAt, Span.isEmpty]

namespace Reads

variable {p q r : Position} {xs ys : List Node} {pieces more : List Piece}

theorem append (h : Reads p xs pieces q) (h' : Reads q ys more r) :
    Reads p (xs ++ ys) (pieces ++ more) r := by
  induction h with
  | nil p => exact h'
  | leaf hleaf hextra hmissing hshows _ ih => exact .leaf hleaf hextra hmissing hshows (ih h')
  | comment hleaf hextra hmissing hshows _ ih =>
      exact .comment hleaf hextra hmissing hshows (ih h')
  | missing hchildren hspan _ ih => exact .missing hchildren hspan (ih h')
  | inner hleaf hmissing _ ih => exact .inner hleaf hmissing (ih h')

/-- In front of a leaf that is no comment it does not matter what was read before. -/
theorem rebase {n : Node} (h : Reads p (n :: xs) pieces q) (hleaf : n.isLeaf = true)
    (hextra : n.isExtra = false) (r : Position) : Reads r (n :: xs) pieces q := by
  cases h with
  | leaf _ _ hmissing hshows tail => exact .leaf hleaf hextra hmissing hshows tail
  | comment _ hextra' => simp [hextra] at hextra'
  | missing _ hspan => simp [isLeaf_of_span_eq_emptyAt hspan] at hleaf
  | inner hleaf' => simp [hleaf] at hleaf'

/-- A node that is neither a leaf nor missing may be put anywhere. -/
theorem insert {n : Node} (hleaf : n.isLeaf = false) (hmissing : n.isMissing = false)
    (h : Reads p (xs ++ ys) pieces q) : Reads p (xs ++ n :: ys) pieces q := by
  induction xs generalizing p pieces with
  | nil => exact .inner hleaf hmissing h
  | cons x xs ih =>
      cases h with
      | leaf hleaf' hextra hmissing' hshows tail =>
          exact .leaf hleaf' hextra hmissing' hshows (ih tail)
      | comment hleaf' hextra hmissing' hshows tail =>
          exact .comment hleaf' hextra hmissing' hshows (ih tail)
      | missing hchildren hspan tail => exact .missing hchildren hspan (ih tail)
      | inner hleaf' hmissing' tail => exact .inner hleaf' hmissing' (ih tail)

theorem map_span_filter (h : Reads p xs pieces q) :
    (xs.filter isLeaf).map span = pieces.map Piece.span := by
  induction h with
  | nil p => rfl
  | leaf hleaf _ _ hshows _ ih | comment hleaf _ _ hshows _ ih =>
      rw [List.filter_cons_of_pos hleaf, List.map_cons, List.map_cons, ih, hshows.1]
  | missing _ hspan _ ih =>
      rw [List.filter_cons_of_neg (by simp [isLeaf_of_span_eq_emptyAt hspan]), ih]
  | inner hleaf _ _ ih => rw [List.filter_cons_of_neg (by simp [hleaf]), ih]

theorem shows_of_mem (h : Reads p xs pieces q) {n : Node} (hn : n ∈ xs) (hleaf : n.isLeaf = true) :
    ∃ piece ∈ pieces, n.Shows piece := by
  induction h with
  | nil p => simp at hn
  | @leaf _ _ m _ piece _ _ _ _ hshows _ ih | @comment _ _ m _ piece _ _ _ _ hshows _ ih =>
      rcases List.mem_cons.mp hn with rfl | hn
      · exact ⟨piece, by simp, hshows⟩
      · obtain ⟨found, hmem, hfound⟩ := ih hn
        exact ⟨found, List.mem_cons_of_mem _ hmem, hfound⟩
  | missing _ hspan _ ih =>
      rcases List.mem_cons.mp hn with rfl | hn
      · simp [isLeaf_of_span_eq_emptyAt hspan] at hleaf
      · exact ih hn
  | inner hleaf' _ _ ih =>
      rcases List.mem_cons.mp hn with rfl | hn
      · simp [hleaf'] at hleaf
      · exact ih hn

/-- A missing node has no children and stands behind the last leaf that is no comment. -/
theorem missing_of_eq_append (h : Reads p xs pieces q) {before behind : List Node} {n : Node}
    (hxs : xs = before ++ n :: behind) (hn : n.isMissing = true) :
    n.children = [] ∧ n.span = .emptyAt (lastStop p before) := by
  induction h generalizing before with
  | nil p => simp at hxs
  | leaf hleaf hextra hmissing hshows _ ih =>
      rcases List.cons_eq_append_iff.mp hxs with ⟨rfl, hhead⟩ | ⟨before, rfl, htail⟩
      · obtain ⟨rfl, -⟩ := List.cons.inj hhead
        simp [hmissing] at hn
      · rw [lastStop_cons, if_pos (by simp [hleaf, hextra]), hshows.1]
        exact ih htail
  | comment hleaf hextra hmissing _ _ ih =>
      rcases List.cons_eq_append_iff.mp hxs with ⟨rfl, hhead⟩ | ⟨before, rfl, htail⟩
      · obtain ⟨rfl, -⟩ := List.cons.inj hhead
        simp [hmissing] at hn
      · rw [lastStop_cons, if_neg (by simp [hextra])]
        exact ih htail
  | missing hchildren hspan _ ih =>
      rcases List.cons_eq_append_iff.mp hxs with ⟨rfl, hhead⟩ | ⟨before, rfl, htail⟩
      · obtain ⟨rfl, -⟩ := List.cons.inj hhead
        exact ⟨hchildren, hspan⟩
      · rw [lastStop_cons, if_neg (by simp [isLeaf_of_span_eq_emptyAt hspan])]
        exact ih htail
  | inner hleaf hmissing _ ih =>
      rcases List.cons_eq_append_iff.mp hxs with ⟨rfl, hhead⟩ | ⟨before, rfl, htail⟩
      · obtain ⟨rfl, -⟩ := List.cons.inj hhead
        simp [hmissing] at hn
      · rw [lastStop_cons, if_neg (by simp [hleaf])]
        exact ih htail

/-- Reading does not see the roles of nodes. -/
theorem congr (h : Reads p xs pieces q) (hxs : List.Forall₂ Alike xs ys) :
    Reads p ys pieces q := by
  induction h generalizing ys with
  | nil p =>
      cases hxs
      exact .nil p
  | leaf hleaf hextra hmissing hshows _ ih =>
      obtain _ | ⟨halike, hrest⟩ := hxs
      exact .leaf (halike.isLeaf.trans hleaf) (halike.isExtra.trans hextra)
        (halike.isMissing.trans hmissing) (halike.shows hshows) (ih hrest)
  | comment hleaf hextra hmissing hshows _ ih =>
      obtain _ | ⟨halike, hrest⟩ := hxs
      exact .comment (halike.isLeaf.trans hleaf) (halike.isExtra.trans hextra)
        (halike.isMissing.trans hmissing) (halike.shows hshows) (ih hrest)
  | missing hchildren hspan _ ih =>
      obtain _ | ⟨halike, hrest⟩ := hxs
      exact .missing (halike.children.trans hchildren) (halike.span.trans hspan) (ih hrest)
  | inner hleaf hmissing _ ih =>
      obtain _ | ⟨halike, hrest⟩ := hxs
      exact .inner (halike.isLeaf.trans hleaf) (halike.isMissing.trans hmissing) (ih hrest)

theorem assign (h : Reads p (preorders xs) pieces q) (field : Option Field) :
    Reads p (preorders (xs.map (Node.assign field))) pieces q :=
  h.congr (alike_preorders_assign field xs)

end Reads

end Node

end CoolTree
