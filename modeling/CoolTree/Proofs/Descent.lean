import CoolTree.Proofs.Construct
import CoolTree.Proofs.Whole

/-!
# Files follow the recognizer

An expression is followed up to a token that nothing goes on with, by induction on the levels of
nesting that are left. Where none is left, too few tokens have been taken or one level more than
there are has been opened; what becomes of such an expression depends on which problems count.
-/

namespace CoolTree

open Recognizer Draft

namespace Operands

variable (g : Operands) {rest : List Pending} (hrest : Sealed rest)

include hrest

theorem follows_continuation {least : Int} {k : TokenKind} {next : Continuation}
    (h : Continuation.of? g.levels least k = some next) :
    g.Follows 0 1 (fun i ↦ i.current = k) (.tail :: rest) (.tail :: rest) next.phrase := by
  obtain ⟨hk, rfl⟩ | ⟨o, rfl, rfl⟩ := Continuation.of?_cases h
  · exact Follows.dispatch.weaken fun i hi ↦ hk.imp hi.trans hi.trans
  · exact Follows.binary o hrest

theorem follows_climb (least : Int) (d : Draft) :
    d.state.Fine g.leeway → Outcome g.leeway g.depth 0 0
      (fun i ↦ Continuation.of? g.levels least i.current = none) (.tail :: rest) (.tail :: rest)
      d.state (Draft.climb g.levels g.expression least d).state := by
  have hwhole : ∀ (d : Draft) (next : Continuation),
      Continuation.of? g.levels least d.current = some next → d.state.Fine g.leeway →
      Outcome g.leeway g.depth 0 1 (fun _ ↦ True) (.tail :: rest) (.tail :: rest) d.state
        ((next.phrase.run g.levels g.expression
          ((blank d.state).attach (some next.field) d)).enclose next.kind false).state := by
    intro d next hnext hd
    have hfollows := g.follows_continuation hrest hnext
      ((blank d.state).attach (some next.field) d) hd rfl
    exact hfollows.enclose next.kind
  -- By induction on the rounds. A round that takes no token would be the last one, but it cannot
  -- fit: whatever goes on with an expression takes one.
  fun_induction Draft.climb g.levels g.expression least d with
  | case1 d hnone =>
      intro hd
      exact .refl hd rfl hnone
  | case2 d next hnext inside whole hlt ih =>
      intro hd
      have hadvances : d.state.Advances whole.state :=
        (next.phrase.advances_run g.advances inside).trans (advances_enclose _ next.kind false)
      have hmore : whole.state.Clean g.leeway → True → Outcome g.leeway g.depth 0 0
          (fun i ↦ Continuation.of? g.levels least i.current = none) (.tail :: rest)
          (.tail :: rest) whole.state (Draft.climb g.levels g.expression least whole).state :=
        fun hclean _ ↦ ih (hadvances.fine hd hclean)
      exact (hwhole d next hnext hd).bind hd.ordered hadvances
        (advances_climb g.advances least whole) hmore le_rfl (Nat.zero_le _) (Nat.zero_le _)
  | case3 d next hnext inside whole hnot =>
      intro hd
      exact (hwhole d next hnext hd).of_not_size_lt hnot

theorem follows_expression (least : Int) (s : State) (hs : s.Fine g.leeway) :
    Outcome g.leeway (g.depth + 1) 0 1 (fun i ↦ Continuation.of? g.levels least i.current = none)
      (.expression :: rest) (.tail :: rest) s
      (Draft.climb g.levels g.expression least
        ((Phrase.opening s.input.current s.input.upcoming).run g.levels g.expression
          (blank s))).state := by
  let first := (Phrase.opening s.input.current s.input.upcoming).run g.levels g.expression (blank s)
  have hadvances : s.Advances first.state := Phrase.advances_run g.advances _ (blank s)
  have hfirst : Outcome g.leeway g.depth 1 1 (fun _ ↦ True) (.expression :: rest) (.tail :: rest) s
      first.state := Follows.opening _ _ hrest (blank s) hs ⟨rfl, rfl⟩
  have hmore : first.state.Clean g.leeway → True → Outcome g.leeway g.depth 0 0
      (fun i ↦ Continuation.of? g.levels least i.current = none) (.tail :: rest) (.tail :: rest)
      first.state (Draft.climb g.levels g.expression least first).state :=
    fun hclean _ ↦ g.follows_climb hrest least first (hadvances.fine hs hclean)
  have hwhole : Outcome g.leeway g.depth 1 1
      (fun i ↦ Continuation.of? g.levels least i.current = none) (.expression :: rest)
      (.tail :: rest) s (Draft.climb g.levels g.expression least first).state :=
    hfirst.bind hs.ordered hadvances (advances_climb g.advances least first) hmore le_rfl le_rfl
      (Nat.le_refl 1)
  exact hwhole.mono le_rfl le_rfl fun _ hpost ↦ hpost

end Operands

/-- Whether an expression for which no level is left is followed. -/
def Levels.Grounded (v : Levels) (w : Leeway) : Prop :=
  ∀ (least : Int) (s : State) (rest : List Pending), s.Fine w → Sealed rest →
    Outcome w 0 0 1 (fun i ↦ Continuation.of? v least i.current = none) (.expression :: rest)
      (.tail :: rest) s (tooDeep s).state

/-- If every problem counts, a missing level does. -/
theorem Levels.grounded_none (v : Levels) (items : List Item) : v.Grounded (.none items) :=
  fun _ _ _ _ _ ↦ .deep ⟨_, List.mem_cons_self, rfl, fun _ ↦ trivial⟩ (Nat.zero_le _)

namespace Levels.Loosest

variable {v : Levels} {w : Leeway} (hv : v.Loosest) (hw : v.Grounded w)

include hv hw

/-- Expressions are followed at every level of nesting. -/
theorem follows (depth : Nat) (least : Int) (s : State) (rest : List Pending) (hs : s.Fine w)
    (hrest : Sealed rest) :
    Outcome w depth 0 1 (fun i ↦ Continuation.of? v least i.current = none) (.expression :: rest)
      (.tail :: rest) s (Draft.expression v depth least s).state := by
  -- Operands are followed one level further down, which is all that a construct asks of them.
  induction depth generalizing least s rest with
  | zero => exact hw least s rest hs hrest
  | succ depth ih =>
      let g : Operands := ⟨w, v, Draft.expression v depth, depth, hv, advances_expression depth, ih⟩
      exact g.follows_expression hrest least s hs

def operands (depth : Nat) : Operands :=
  ⟨w, v, Draft.expression v depth, depth, hv, advances_expression depth, hv.follows hw depth⟩

/-- A whole file is followed. -/
theorem outcome_fileDraft (depth : Nat) {a : Arrangement} (h : (Tree.initialState a.items).Fine w) :
    Outcome w depth 1 0 (fun _ ↦ True) [.classes] [] (Tree.initialState a.items)
      (Tree.fileDraft v depth a).state := by
  have hfile : (hv.operands hw depth).Follows 1 0 (fun _ ↦ True) [.classes] [] .file :=
    Operands.Follows.file
  exact hfile (blank _) h trivial

end Levels.Loosest

end CoolTree
