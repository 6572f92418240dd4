import CoolTree.Parse.Phrase
import Mathlib.Algebra.Order.Group.Int

/-!
# How a chain of operators groups

Operands with infix operators between them are one expression. It falls apart at an operator that
no other one in it is looser than: at the first such operator that groups to the right, or at the
last one if all of them group to the left. What stands in front of it and what stands behind it
fall apart in the same way.
-/

namespace CoolTree

/-- An infix operator and the operand behind it. -/
structure Link where
  operator : Operator
  sign : Token
  operand : Token
  deriving DecidableEq

inductive Grouping where
  | operand (t : Token)
  | binary (left : Grouping) (operator : Operator) (sign : Token) (right : Grouping)
  deriving DecidableEq

namespace Link

def tokens (l : Link) : List Token :=
  [l.sign, l.operand]

variable (v : Levels)

def strength (l : Link) : Int :=
  (v.operator l.operator).strength

def groupsRight (l : Link) : Bool :=
  (v.operator l.operator).associativity == .right

/-- Whether an operator binds at least as tightly as asked for. -/
def binds (least : Int) (l : Link) : Bool :=
  least ≤ l.strength v

/-- No other operator of the chain is looser. -/
def isLoosest (chain : List Link) (l : Link) : Bool :=
  chain.all fun m ↦ l.strength v ≤ m.strength v

end Link

namespace Grouping

variable (v : Levels)

/-- Where a chain falls apart. -/
def rootIndex (chain : List Link) : Nat :=
  match chain.findIdx? fun l ↦ l.isLoosest v chain && l.groupsRight v with
  | some i => i
  | none => chain.length - 1 - chain.reverse.findIdx (Link.isLoosest v chain)

theorem rootIndex_lt {chain : List Link} (h : chain ≠ []) : rootIndex v chain < chain.length := by
  have hlength := List.length_pos_iff.mpr h
  unfold rootIndex
  split
  · rename_i i hi
    exact (List.findIdx?_eq_some_iff_getElem.mp hi).1
  · omega

/-- The grouping of a first operand and the chain behind it. -/
def ofChain (first : Token) (chain : List Link) : Grouping :=
  if h : chain = [] then .operand first
  else
    have hlt := rootIndex_lt v h
    let root := chain[rootIndex v chain]
    .binary (ofChain first (chain.take (rootIndex v chain))) root.operator root.sign
      (ofChain root.operand (chain.drop (rootIndex v chain + 1)))
  termination_by chain.length
  decreasing_by
    · rw [List.length_take]
      omega
    · rw [List.length_drop]
      omega

variable {v}

/-- An operator that may stand behind some links: none of them is looser, and those that are as
loose group to the left. -/
def Follows (v : Levels) (before : List Link) (l : Link) : Prop :=
  ∀ m ∈ before, l.strength v ≤ m.strength v ∧
    (m.strength v = l.strength v → m.groupsRight v = false)

/-- The links behind an operator that belong to its right operand. -/
def Binds (v : Levels) (l : Link) (behind : List Link) : Prop :=
  ∀ m ∈ behind, m.binds v (v.bound (.rightOf l.operator)) = true

theorem bound_rightOf (hv : v.Exact) (l : Link) :
    v.bound (.rightOf l.operator) =
      if l.groupsRight v then l.strength v else l.strength v + 1 := by
  cases h : (v.operator l.operator).associativity <;>
    simp [Levels.bound, Link.groupsRight, Link.strength, h, hv l.operator]

theorem strength_le_bound (hv : v.Exact) (l : Link) :
    l.strength v ≤ v.bound (.rightOf l.operator) := by
  rw [bound_rightOf hv]
  split <;> omega

theorem Follows.append (hv : v.Exact) {before behind : List Link} {l next : Link}
    (h : Follows v before l) (hbehind : Binds v l behind)
    (hnext : next.binds v (v.bound (.rightOf l.operator)) = false) :
    Follows v (before ++ l :: behind) next := by
  rw [Link.binds, decide_eq_false_iff_not, Int.not_le] at hnext
  have hle : next.strength v ≤ l.strength v ∧
      (l.strength v = next.strength v → l.groupsRight v = false) := by
    rw [bound_rightOf hv] at hnext
    split at hnext
    · exact ⟨hnext.le, fun heq ↦ absurd heq hnext.ne'⟩
    · rename_i hright
      exact ⟨Int.lt_add_one_iff.mp hnext, fun _ ↦ by simpa using hright⟩
  intro m hm
  rcases List.mem_append.mp hm with hm | hm
  · obtain ⟨hlow, hleft⟩ := h m hm
    exact ⟨hle.1.trans hlow, fun heq ↦ hleft (by omega)⟩
  · rcases List.mem_cons.mp hm with rfl | hm
    · exact hle
    · have hlt := hnext.trans_le (of_decide_eq_true (hbehind m hm))
      exact ⟨hlt.le, fun heq ↦ absurd heq hlt.ne'⟩

theorem strength_le_of_isLoosest {chain : List Link} {m l : Link}
    (hm : m.isLoosest v chain = true) (hl : l ∈ chain) : m.strength v ≤ l.strength v :=
  of_decide_eq_true (List.all_eq_true.mp hm l hl)

section Root

variable {before behind : List Link} {l : Link}

theorem isLoosest_root (hv : v.Exact) (hbefore : Follows v before l) (hbehind : Binds v l behind) :
    l.isLoosest v (before ++ l :: behind) = true := by
  refine List.all_eq_true.mpr fun m hm ↦ decide_eq_true ?_
  rcases List.mem_append.mp hm with hm | hm
  · exact (hbefore m hm).1
  · rcases List.mem_cons.mp hm with rfl | hm
    · exact le_rfl
    · exact (strength_le_bound hv l).trans (of_decide_eq_true (hbehind m hm))

/-- None of the loosest operators in front of the root groups to the right. -/
theorem before_root (hbefore : Follows v before l) (behind : List Link) :
    ∀ m ∈ before, (m.isLoosest v (before ++ l :: behind) && m.groupsRight v) = false := by
  intro m hm
  rw [Bool.and_eq_false_imp]
  intro hmin
  obtain ⟨hlow, hleft⟩ := hbefore m hm
  exact hleft (le_antisymm (strength_le_of_isLoosest hmin (by simp)) hlow)

/-- None of the operators behind a root that groups to the left is loosest. -/
theorem behind_root (hv : v.Exact) (hbehind : Binds v l behind) (hleft : l.groupsRight v = false)
    (before : List Link) :
    ∀ m ∈ behind, m.isLoosest v (before ++ l :: behind) = false := by
  intro m hm
  rw [← Bool.not_eq_true]
  intro hmin
  have hlow := of_decide_eq_true (hbehind m hm)
  rw [bound_rightOf hv, hleft, if_neg (by simp)] at hlow
  exact absurd (strength_le_of_isLoosest hmin (by simp)) (Int.not_le.mpr hlow)

theorem rootIndex_eq (hv : v.Exact) (hbefore : Follows v before l) (hbehind : Binds v l behind) :
    rootIndex v (before ++ l :: behind) = before.length := by
  have hroot := isLoosest_root hv hbefore hbehind
  have hfront := before_root hbefore behind
  unfold rootIndex
  cases hright : l.groupsRight v with
  | true =>
      have hfound : (before ++ l :: behind).findIdx?
          (fun m ↦ m.isLoosest v (before ++ l :: behind) && m.groupsRight v) =
            some before.length := by
        rw [List.findIdx?_append, List.findIdx?_eq_none_iff.mpr hfront, List.findIdx?_cons, hroot,
          hright]
        simp
      rw [hfound]
  | false =>
      have hback := behind_root hv hbehind hright before
      have hnone : (before ++ l :: behind).findIdx?
          (fun m ↦ m.isLoosest v (before ++ l :: behind) && m.groupsRight v) = none := by
        rw [List.findIdx?_eq_none_iff, List.forall_mem_append, List.forall_mem_cons]
        exact ⟨hfront, by rw [hright, Bool.and_false],
          fun m hm ↦ by rw [hback m hm, Bool.false_and]⟩
      have hlast : (before ++ l :: behind).reverse.findIdx
          (Link.isLoosest v (before ++ l :: behind)) = behind.length := by
        have hbehind : behind.reverse.findIdx (Link.isLoosest v (before ++ l :: behind)) =
            behind.reverse.length :=
          List.findIdx_eq_length.mpr fun m hm ↦ hback m (List.mem_reverse.mp hm)
        rw [List.reverse_append, List.reverse_cons, List.append_assoc, List.singleton_append,
          List.findIdx_append, hbehind, if_neg (Nat.lt_irrefl _), List.findIdx_cons, hroot]
        simp
      rw [hnone]
      simp only [hlast, List.length_append, List.length_cons]
      omega

end Root

theorem ofChain_nil (v : Levels) (first : Token) : ofChain v first [] = .operand first := by
  rw [ofChain, dif_pos rfl]

theorem ofChain_append (hv : v.Exact) {before behind : List Link} {l : Link}
    (hbefore : Follows v before l) (hbehind : Binds v l behind) (first : Token) :
    ofChain v first (before ++ l :: behind) =
      .binary (ofChain v first before) l.operator l.sign (ofChain v l.operand behind) := by
  have hroot := rootIndex_eq hv hbefore hbehind
  have hdrop : (before ++ l :: behind).drop (before.length + 1) = behind := by
    rw [List.drop_append, List.drop_of_length_le (by omega)]
    simp
  rw [ofChain, dif_neg (by simp)]
  simp only [hroot, hdrop, List.take_left, List.getElem_append_right, Nat.sub_self,
    List.getElem_cons_zero, le_refl]

end Grouping

end CoolTree
