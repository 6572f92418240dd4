import CoolTree.Proofs.Below
import CoolTree.Proofs.Roles

/-!
# The edge of an expression

From the last child down to its last child and so on runs the edge of a node. On it stand the
constructs that end in an operand, and whatever comes behind the expression could go on with these
operands if it bound tightly enough. A node is well bound if its operands are as tight as its kind
or its operator wants them to be, and if nothing on the edge of what stands in front of an operator
or a call could have taken it.
-/

namespace CoolTree

theorem Operator.terminal_injective : Function.Injective terminal := by
  intro o o' h
  cases o <;> cases o' <;> first | rfl | cases h

namespace Kind

/-- The bound of the operand at the end of a construct, if the kind tells it. -/
def lastBound? : Kind → Option Bound
  | assignmentExpression | letExpression => some .assign
  | notExpression => some .negation
  | isvoidExpression => some .isvoid
  | unaryExpression => some .comp
  | _ => none

/-- Whether constructs of a kind are a sign and an operand. -/
def isPrefix : Kind → Bool
  | notExpression | isvoidExpression | unaryExpression => true
  | _ => false

/-- Whether constructs of a kind end in an operand. -/
def endsOpen (k : Kind) : Bool :=
  k.lastBound?.isSome || k == .binaryExpression

theorem lastBound?_eq_none {k : Kind} (h : k.endsOpen = false) : k.lastBound? = none := by
  rw [endsOpen, Bool.or_eq_false_iff, Option.isSome_eq_false_iff, Option.isNone_iff_eq_none] at h
  exact h.1

theorem ne_binaryExpression {k : Kind} (h : k.endsOpen = false) : k ≠ .binaryExpression := by
  rintro rfl
  cases h

theorem not_isPrefix {k : Kind} (h : k.endsOpen = false) : k.isPrefix = false := by
  cases k <;> first | rfl | cases h

theorem endsOpen_leafKind (k : TokenKind) : k.leafKind.endsOpen = false := by
  cases k <;> rfl

theorem endsOpen_defaultKind (slot : Slot) : slot.defaultKind.endsOpen = false := by
  cases slot <;> rfl

theorem endsOpen_of_accepts? {slot : Slot} {k : TokenKind} {kind : Kind}
    (h : slot.accepts? k = some kind) : kind.endsOpen = false := by
  cases slot <;> cases k <;> cases h <;> rfl

theorem endsOpen_of_isPieceKind {k : Kind} (h : Draft.isPieceKind k = true) :
    k.endsOpen = false := by
  cases k <;> first | rfl | cases h

end Kind

namespace Node

/-- The node itself, its last child, the last child of that one, and so on. -/
inductive EndsIn : Node → Node → Prop
  | self (n : Node) : EndsIn n n
  | last {n c m : Node} (child : n.children.getLast? = some c) (below : EndsIn c m) : EndsIn n m

/-- A node of two operands with an operator between them, apart from comments. -/
def Binary (n left : Node) (o : Operator) (right : Node) : Prop :=
  n.kind = .binaryExpression ∧ ∃ sign, n.parts = [left, sign, right] ∧
    left.field? = some .left ∧ sign.field? = some .operator ∧ right.field? = some .right ∧
      sign.kind = .terminal o.terminal

/-- The operator of a node with two operands. -/
def Joins (n : Node) (o : Operator) : Prop :=
  ∃ left right, n.Binary left o right

/-- The operand at the end of a node was to bind as tightly as a bound says. -/
def Wants (n : Node) (b : Bound) : Prop :=
  n.kind.lastBound? = some b ∨ ∃ o, n.Joins o ∧ b = .rightOf o

/-- A node on the edge wants to go on with an operand. -/
def Asks (n : Node) (b : Bound) : Prop :=
  ∃ m, n.EndsIn m ∧ m.Wants b

variable {n c : Node} {b : Bound} {o : Operator} (field : Option Field)

theorem asks_iff : n.Asks b ↔ n.Wants b ∨ ∃ c, n.children.getLast? = some c ∧ c.Asks b := by
  constructor
  · rintro ⟨m, hm, hwants⟩
    cases hm with
    | self => exact .inl hwants
    | last hchild hbelow => exact .inr ⟨_, hchild, m, hbelow, hwants⟩
  · rintro (hwants | ⟨c, hchild, m, hbelow, hwants⟩)
    · exact ⟨n, .self n, hwants⟩
    · exact ⟨m, .last hchild hbelow, hwants⟩

@[simp] theorem parts_assign : (n.assign field).parts = n.parts := by
  rw [parts, children_assign, parts]

@[simp] theorem binary_assign {left right : Node} :
    (n.assign field).Binary left o right ↔ n.Binary left o right := by
  simp [Binary]

@[simp] theorem joins_assign : (n.assign field).Joins o ↔ n.Joins o := by
  simp [Joins]

@[simp] theorem wants_assign : (n.assign field).Wants b ↔ n.Wants b := by
  simp [Wants]

@[simp] theorem asks_assign : (n.assign field).Asks b ↔ n.Asks b := by
  rw [asks_iff, wants_assign, children_assign, ← asks_iff]

theorem Joins.kind_eq (h : n.Joins o) : n.kind = .binaryExpression := by
  obtain ⟨_, _, hkind, -⟩ := h
  exact hkind

/-- A node has one operator. -/
theorem Binary.eq_of_joins {left right : Node} {o' : Operator} (h : n.Binary left o right)
    (h' : n.Joins o') : o' = o := by
  obtain ⟨-, sign, hparts, -, -, -, hsign⟩ := h
  obtain ⟨_, _, -, sign', hparts', -, -, -, hsign'⟩ := h'
  rw [hparts, List.cons.injEq, List.cons.injEq] at hparts'
  rw [← hparts'.2.1, hsign, Kind.terminal.injEq] at hsign'
  exact (Operator.terminal_injective hsign').symm

theorem not_joins (h : n.kind.endsOpen = false) : ¬n.Joins o :=
  fun hjoins ↦ Kind.ne_binaryExpression h hjoins.kind_eq

theorem not_wants (h : n.kind.endsOpen = false) : ¬n.Wants b := by
  rintro (hkind | ⟨o, hjoins, -⟩)
  · rw [Kind.lastBound?_eq_none h] at hkind
    cases hkind
  · exact not_joins h hjoins

theorem not_asks_of_leaf (hchildren : n.children = []) (h : n.kind.endsOpen = false) :
    ¬n.Asks b := by
  rw [asks_iff, hchildren]
  rintro (hwants | ⟨c, hchild, -⟩)
  · exact not_wants h hwants
  · cases hchild

/-- A node whose operands are as tight as they should be. -/
structure Grouped (v : Levels) (n : Node) : Prop where
  operand : ∀ b, n.Wants b → ∃ c, n.children.getLast? = some c ∧ c.isExtra = false ∧
    ∀ o, c.Joins o → v.bound b ≤ (v.operator o).strength
  binary : n.kind = .binaryExpression → ∃ left o right, n.Binary left o right ∧
    ∀ b, left.Asks b → (v.operator o).strength < v.bound b
  signed : n.kind.isPrefix = true →
    ∀ c ∈ n.parts, c.kind.endsOpen = true → n.children.getLast? = some c
  receiver : n.kind = .dispatchExpression → ∀ c ∈ n.parts, c.field? = some .value →
    ∀ b, c.Asks b → v.call < v.bound b ∨ v.super < v.bound b

namespace Grouped

variable {v : Levels}

theorem assign (h : n.Grouped v) : (n.assign field).Grouped v where
  operand b hb := by
    rw [children_assign]
    exact h.operand b ((wants_assign field).mp hb)
  binary hkind := by
    obtain ⟨left, o, right, hbinary, hleft⟩ := h.binary (by rwa [kind_assign] at hkind)
    exact ⟨left, o, right, by rwa [binary_assign], hleft⟩
  signed hkind := by
    rw [parts_assign, children_assign]
    exact h.signed (by rwa [kind_assign] at hkind)
  receiver hkind := by
    rw [parts_assign]
    exact h.receiver (by rwa [kind_assign] at hkind)

/-- Nodes that do not end in an operand, and that are no calls on a receiver. -/
theorem of_closed (h : n.kind.endsOpen = false)
    (hreceiver : n.kind = .dispatchExpression → ∀ c ∈ n.parts, c.field? ≠ some .value) :
    n.Grouped v where
  operand _ hb := (not_wants h hb).elim
  binary hkind := (Kind.ne_binaryExpression h hkind).elim
  signed hkind := by
    rw [Kind.not_isPrefix h] at hkind
    cases hkind
  receiver hkind c hc hfield := (hreceiver hkind c hc hfield).elim

theorem leaf (hchildren : n.children = []) (h : n.kind.endsOpen = false) : n.Grouped v :=
  of_closed h fun _ c hc ↦ by simp [parts, hchildren] at hc

theorem ofComments (cs : List Token) :
    ∀ m ∈ preorders (ofComments cs), m.Grouped v := by
  rw [preorders_of_leaves fun m hm ↦ (leaf_of_mem_ofComments hm).1]
  intro m hm
  obtain ⟨hchildren, k, hkind⟩ := leaf_of_mem_ofComments hm
  exact leaf hchildren (hkind ▸ Kind.endsOpen_leafKind k)

theorem literalNode (item : Item) (parts : List BodyPart) (closed : Bool) :
    ∀ m ∈ (Draft.literalNode item parts closed).preorder, m.Grouped v := by
  rw [Draft.preorder_literalNode, List.forall_mem_cons]
  refine ⟨of_closed rfl (by rintro ⟨⟩), fun m hm ↦ ?_⟩
  obtain ⟨hchildren, hkind⟩ := Draft.leaf_of_mem_literalChildren hm
  exact leaf hchildren (Kind.endsOpen_of_isPieceKind hkind)

end Grouped

theorem not_asks_literalNode (item : Item) (parts : List BodyPart)
    (closed : Bool) : ¬(Draft.literalNode item parts closed).Asks b := by
  rw [asks_iff]
  rintro (hwants | ⟨c, hchild, hasks⟩)
  · exact not_wants rfl hwants
  · have hmem : c ∈ Draft.literalChildren item parts closed := List.mem_of_getLast? hchild
    obtain ⟨hchildren, hkind⟩ := Draft.leaf_of_mem_literalChildren hmem
    exact not_asks_of_leaf hchildren (Kind.endsOpen_of_isPieceKind hkind) hasks

theorem getLast?_dropWhile {ns : List Node} (h : ns.getLast? = some c) (hc : c.isExtra = false) :
    (ns.dropWhile isExtra).getLast? = some c := by
  obtain ⟨before, rfl⟩ := List.getLast?_eq_some_iff.mp h
  have hrest : (before ++ [c]).dropWhile isExtra = before.dropWhile isExtra ++ [c] := by
    rw [List.dropWhile_append]
    split
    · rename_i hnil
      rw [List.isEmpty_iff.mp hnil, List.dropWhile_cons_of_neg (by simp [hc]), List.nil_append]
    · rfl
  rw [hrest, List.getLast?_concat]

end Node

namespace Phrase

/-- The bound of the operand that a phrase ends in. -/
def lastBound? : Phrase → Option Bound
  | done => none
  | operand _ bound next => if next = .done then some bound else next.lastBound?
  | expect _ next | take _ next | word _ _ next | literal next | node _ _ _ next
  | choose _ _ _ next | loop _ _ next | skip _ next | absent next => next.lastBound?

/-- Whether a phrase is a sign and an operand. -/
def isSigned : Phrase → Bool
  | take none (operand none _ done) => true
  | _ => false

/-- Whether constructs are made with the bounds of their kinds: one that ends in an operand asks for
the bound of its kind there, one with a sign has nothing else, and there are no operators and no
receivers of calls, since these come with what goes on with an expression. -/
def keepsBounds : Phrase → Bool
  | done => true
  | node _ kind body next =>
    kind != .binaryExpression && (kind.lastBound?.isNone || body.lastBound? == kind.lastBound?) &&
      (!kind.isPrefix || body.isSigned) && (kind != .dispatchExpression || body.avoids .value) &&
        body.keepsBounds && next.keepsBounds
  | choose _ yes no next => yes.keepsBounds && no.keepsBounds && next.keepsBounds
  | loop _ body next => body.keepsBounds && next.keepsBounds
  | expect _ next | take _ next | word _ _ next | literal next | operand _ _ next | skip _ next
  | absent next => next.keepsBounds

theorem keepsBounds_file : file.keepsBounds = true := by
  decide

theorem keepsBounds_opening (current upcoming : TokenKind) :
    (opening current upcoming).keepsBounds = true := by
  unfold opening
  split
  all_goals try rfl
  all_goals split
  all_goals try rfl
  all_goals split <;> rfl

end Phrase

end CoolTree
