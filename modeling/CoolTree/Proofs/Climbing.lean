import CoolTree.Proofs.Flawless
import CoolTree.Proofs.Grouping
import CoolTree.Proofs.Packaged
import CoolTree.Proofs.Whole

/-!
# Expressions group like chains

An expression takes from a chain what binds as tightly as it was asked for. It does so from left to
right: whatever it takes next follows what it has, and the operand of an operator takes all that the
operator binds. So it always stands at the grouping of what was taken.
-/

namespace CoolTree

namespace TokenKind

/-- The kind of node that a token makes when it is an operand on its own. -/
def operandKind? : TokenKind → Option Kind
  | identifier | typeIdentifier => some .identifier
  | selfWord => some .selfValue
  | integer => some .integerLiteral
  | _ => none

/-- Tokens that do not go on with an expression. -/
structure EndsChain (k : TokenKind) : Prop where
  ne_assign : k ≠ .terminal .assign
  ne_leftParen : k ≠ .terminal .leftParen
  of? : ∀ v least, Continuation.of? v least k = none

theorem endsChain_semicolon : EndsChain (.terminal .semicolon) :=
  ⟨by decide, by decide, fun _ _ ↦ rfl⟩

end TokenKind

/-- A link as it is written: the sign of its operator and an operand of one token. -/
structure Link.Written (l : Link) : Prop where
  sign : l.sign.kind = .terminal l.operator.terminal
  operand : l.operand.kind.operandKind?.isSome = true

/-- A node drawn like a grouping. Comments may stand between its parts. -/
inductive Node.Draws : Node → Grouping → Prop
  | operand {n : Node} {t : Token} (kind : t.kind.operandKind? = some n.kind)
      (span : n.span = t.span) (children : n.children = []) : Draws n (.operand t)
  | binary {n x sign y : Node} {left right : Grouping} {o : Operator} {t : Token}
      (kind : n.kind = .binaryExpression) (parts : n.parts = [x, sign, y])
      (field_left : x.field? = some .left) (field_sign : sign.field? = some .operator)
      (field_right : y.field? = some .right) (kind_sign : sign.kind = .terminal o.terminal)
      (span_sign : sign.span = t.span) (draws_left : Draws x left) (draws_right : Draws y right) :
      Draws n (.binary left o t right)

theorem Node.Draws.assign {n : Node} {g : Grouping} (h : n.Draws g) (field : Option Field) :
    (n.assign field).Draws g := by
  cases h with
  | operand hkind hspan hchildren =>
      exact .operand (by rw [kind_assign, hkind]) (by rw [span_assign, hspan])
        (by rw [children_assign, hchildren])
  | binary hkind hparts hleft hsign hright hkindsign hspansign hdrawsleft hdrawsright =>
      refine .binary ?_ ?_ hleft hsign hright hkindsign hspansign hdrawsleft hdrawsright
      · rw [kind_assign, hkind]
      · rw [parts, children_assign]
        exact hparts

theorem Continuation.of?_looser {v : Levels} {least : Int} {o : Operator}
    (h : ¬least ≤ (v.operator o).strength) : of? v least (.terminal o.terminal) = none := by
  cases o <;> exact if_neg h

open Grouping Draft

namespace Draft

variable {v : Levels} {errors : List SyntaxError} {first stop : Token} {behind : List Token}

/-- What is behind the first operand of a chain is not what makes an identifier anything else. -/
theorem next_of_chain {links : List Link} (hlinks : ∀ l ∈ links, l.Written)
    (hstop : stop.kind.EndsChain) :
    ∃ u us, links.flatMap Link.tokens ++ stop :: behind = u :: us ∧
      u.kind ≠ .terminal .assign ∧ u.kind ≠ .terminal .leftParen := by
  cases links with
  | nil => exact ⟨stop, behind, rfl, hstop.ne_assign, hstop.ne_leftParen⟩
  | cons l links =>
      have hsign := (hlinks l List.mem_cons_self).sign
      refine ⟨l.sign, _, rfl, ?_, ?_⟩ <;> rw [hsign] <;> cases l.operator <;> decide

/-- An operand of one token is an expression so far. -/
theorem flawless_operand {s : State} {expression : Int → State → Draft} {t u : Token}
    {us : List Token} (h : s.Ahead (t :: u :: us)) (ht : t.kind.operandKind?.isSome = true)
    (hassign : u.kind ≠ .terminal .assign) (hparen : u.kind ≠ .terminal .leftParen) :
    ∃ node, Flawless s.errors ((Phrase.opening s.input.current s.input.upcoming).run v expression
      (.blank s)) [node] (u :: us) ∧ node.Draws (.operand t) := by
  have hblank := Flawless.blank h
  rw [h.current, h.upcoming]
  obtain ⟨kind, hkind⟩ := Option.isSome_iff_exists.mp ht
  have hdraws : (Node.ofToken kind none t).Draws (.operand t) :=
    .operand hkind rfl rfl
  cases htoken : t.kind with
  | identifier | typeIdentifier =>
      have hslot : Slot.accepts? .identifier t.kind = some kind := by
        rw [← hkind, htoken]
        rfl
      have hword := hblank.word hslot none
      refine ⟨_, ?_, hdraws⟩
      simpa [Phrase.opening, hassign, hparen, Phrase.run] using hword
  | selfWord | integer =>
      have htake := hblank.take none
      obtain rfl : t.kind.leafKind = kind := by
        rw [htoken] at hkind ⊢
        exact Option.some.inj hkind
      exact ⟨_, htake, hdraws⟩
  | _ => simp [htoken, TokenKind.operandKind?] at hkind

/-- An expression takes from a chain what binds tightly enough, as it groups, if the chain has fewer
links than there are levels. -/
def TakesChains (v : Levels) (expression : Int → State → Draft) (depth : Nat) : Prop :=
  ∀ (least : Int) (s : State) (first : Token) (links : List Link) (stop : Token)
    (behind : List Token), links.length < depth → first.kind.operandKind?.isSome = true →
    (∀ l ∈ links, l.Written) → stop.kind.EndsChain →
    s.Ahead (first :: (links.flatMap Link.tokens ++ stop :: behind)) →
    ∃ node, Flawless s.errors (expression least s) [node]
      ((links.dropWhile (Link.binds v least)).flatMap Link.tokens ++ stop :: behind) ∧
      node.Draws (ofChain v first (links.takeWhile (Link.binds v least)))

/-- What an operator binds is bound by everything that binds the operator. -/
theorem binds_of_binds (hv : v.Exact) {least : Int} {next : Link}
    (hnext : next.binds v least = true)
    {run : List Link} (hrun : Binds v next run) : ∀ l ∈ next :: run, l.binds v least = true := by
  rw [List.forall_mem_cons]
  refine ⟨hnext, fun l hl ↦ decide_eq_true ?_⟩
  have hleast : least ≤ next.strength v := of_decide_eq_true hnext
  exact (hleast.trans (strength_le_bound hv next)).trans (of_decide_eq_true (hrun l hl))

/-- One round of climbing: an operator and its right operand. -/
theorem flawless_binary (hv : v.Exact) {expression : Int → State → Draft} {depth : Nat}
    (hexpression : TakesChains v expression depth) {d : Draft} {node : Node} {done : List Link}
    {next : Link} {links : List Link} (hdepth : links.length < depth) (hnext : next.Written)
    (hlinks : ∀ l ∈ links, l.Written) (hstop : stop.kind.EndsChain)
    (hd : Flawless errors d [node] (next.sign :: next.operand ::
      (links.flatMap Link.tokens ++ stop :: behind)))
    (hnode : node.Draws (ofChain v first done)) (hfollows : Follows v done next) :
    ∃ run rest whole, links = run ++ rest ∧ Binds v next run ∧
      (∀ l ∈ rest.head?, l.binds v (v.bound (.rightOf next.operator)) = false) ∧
      Flawless errors (((Phrase.binary next.operator).run v expression
        ((blank d.state).attach (some .left) d)).enclose .binaryExpression false) [whole]
        (rest.flatMap Link.tokens ++ stop :: behind) ∧
      whole.Draws (ofChain v first (done ++ next :: run)) := by
  let bound := Link.binds v (v.bound (.rightOf next.operator))
  have hblank : Flawless errors (blank d.state) [] _ := hd.errors_eq ▸ Flawless.blank hd.ahead
  have hsign := (hblank.attach hd (some .left)).take (some .operator)
  obtain ⟨operand, hoperand, hdraws⟩ := hexpression (v.bound (.rightOf next.operator)) _
    next.operand links stop behind hdepth hnext.operand hlinks hstop hsign.ahead
  obtain ⟨hwhole, hparts⟩ :=
    (hsign.attach (hsign.errors_eq ▸ hoperand) (some .right)).enclose .binaryExpression
  have hbinds : Binds v next (links.takeWhile bound) := fun m hm ↦ List.mem_takeWhile_imp hm
  have hend : ∀ l ∈ (links.dropWhile bound).head?, bound l = false := by
    intro l hl
    have hhead := List.head?_dropWhile_not bound links
    rw [Option.mem_def.mp hl] at hhead
    exact hhead
  refine ⟨links.takeWhile bound, links.dropWhile bound, _, List.takeWhile_append_dropWhile.symm,
    hbinds, hend, hwhole, ?_⟩
  have hleft := hd.not_isExtra node List.mem_cons_self
  have hright := hoperand.not_isExtra operand List.mem_cons_self
  rw [ofChain_append hv hfollows hbinds]
  refine .binary rfl hparts (Node.field_assign hleft _) rfl (Node.field_assign hright _) ?_ rfl
    (hnode.assign _) (hdraws.assign _)
  rw [hnext.sign]
  rfl

/-- Climbing takes what binds tightly enough from the links behind those that were taken. -/
theorem flawless_climb (hv : v.Exact) {expression : Int → State → Draft} {depth : Nat}
    (hexpression : TakesChains v expression depth) (least : Int) {d : Draft} {node : Node}
    {done links : List Link} (hdepth : links.length ≤ depth) (hlinks : ∀ l ∈ links, l.Written)
    (hstop : stop.kind.EndsChain)
    (hd : Flawless errors d [node] (links.flatMap Link.tokens ++ stop :: behind))
    (hnode : node.Draws (ofChain v first done)) (hfollows : ∀ l ∈ links.head?, Follows v done l) :
    ∃ whole, Flawless errors (climb v expression least d) [whole]
        ((links.dropWhile (Link.binds v least)).flatMap Link.tokens ++ stop :: behind) ∧
      whole.Draws (ofChain v first (done ++ links.takeWhile (Link.binds v least))) := by
  induction hlength : links.length using Nat.strongRecOn generalizing d node done links with
  | ind n ih =>
      cases links with
      | nil =>
          have hnone : Continuation.of? v least d.current = none := by
            rw [hd.current]
            exact hstop.of? v least
          rw [climb, hnone]
          exact ⟨node, hd, by simpa using hnode⟩
      | cons next links =>
          obtain ⟨hnext, hlinks⟩ := List.forall_mem_cons.mp hlinks
          have hcurrent : d.current = .terminal next.operator.terminal :=
            (Flawless.current hd).trans hnext.sign
          cases hbinds : next.binds v least with
          | false =>
              have hnone : Continuation.of? v least d.current = none := by
                rw [hcurrent]
                exact Continuation.of?_looser (of_decide_eq_false hbinds)
              rw [climb, hnone, List.takeWhile_cons_of_neg (by simp [hbinds]),
                List.dropWhile_cons_of_neg (by simp [hbinds]), List.append_nil]
              exact ⟨node, hd, hnode⟩
          | true =>
              have hleast : least ≤ next.strength v := of_decide_eq_true hbinds
              have hsome : Continuation.of? v least d.current =
                  some ⟨.left, .binaryExpression, .binary next.operator⟩ := by
                rw [hcurrent]
                exact Continuation.of?_operator hleast
              obtain ⟨run, rest, whole, rfl, hrun, hend, hwhole, hdraws⟩ :=
                flawless_binary hv hexpression hdepth hnext hlinks hstop hd hnode
                  (hfollows next rfl)
              rw [List.length_cons, List.length_append] at hlength hdepth
              have hsize : (((Phrase.binary next.operator).run v expression
                  ((blank d.state).attach (some .left) d)).enclose .binaryExpression
                    false).state.input.size < d.state.input.size := by
                rw [hwhole.ahead.size, hd.ahead.size]
                simp [Link.tokens]
                omega
              rw [climb, hsome]
              dsimp only
              rw [if_pos hsize]
              obtain ⟨all, hall, hdrawsall⟩ := ih rest.length (by omega) (by omega)
                (fun l hl ↦ hlinks l (List.mem_append_right run hl)) hwhole hdraws
                (fun l hl ↦ (hfollows next rfl).append hv hrun (hend l hl)) rfl
              have htight := binds_of_binds hv hbinds hrun
              rw [← List.cons_append, List.takeWhile_append_of_pos htight,
                List.dropWhile_append_of_pos htight, ← List.append_assoc]
              exact ⟨all, hall, hdrawsall⟩

/-- Expressions take chains that are no longer than there are levels. -/
theorem takesChains_expression (hv : v.Exact) (depth : Nat) :
    TakesChains v (Draft.expression v depth) depth := by
  induction depth with
  | zero =>
      intro least s first links stop behind hdepth
      cases hdepth
  | succ depth ih =>
      intro least s first links stop behind hdepth hfirst hlinks hstop hs
      obtain ⟨u, us, hnext, hassign, hparen⟩ := next_of_chain hlinks hstop
      rw [hnext] at hs
      obtain ⟨node, hoperand, hdraws⟩ := flawless_operand hs hfirst hassign hparen
      rw [← ofChain_nil v] at hdraws
      rw [← hnext] at hoperand
      rw [expression]
      exact flawless_climb hv ih least (Nat.lt_succ_iff.mp hdepth) hlinks hstop hoperand hdraws
        fun l _ m hm ↦ by cases hm

end Draft

end CoolTree
