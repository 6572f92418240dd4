import CoolTree.Source.Span
import CoolTree.Tree.Kind

/-!
# Syntax nodes

A node has a label and children, in the order of the source. The label says what the node is,
which part of the source it covers, and which role it plays in the node above it.
-/

namespace CoolTree

structure Label where
  kind : Kind
  span : Span
  field : Option Field := none
  /-- Whether the node is a comment, which may stand anywhere. -/
  extra : Bool := false
  /-- Whether the node stands for input that should be there and is not. -/
  missing : Bool := false
  /-- Whether something is wrong in the node or below it. -/
  faulty : Bool := false
  deriving DecidableEq, Inhabited

inductive Node where
  | mk (label : Label) (children : List Node)
  deriving Inhabited

namespace Node

def label : Node → Label
  | mk label _ => label

def children : Node → List Node
  | mk _ children => children

def kind (n : Node) : Kind :=
  n.label.kind

def span (n : Node) : Span :=
  n.label.span

def field? (n : Node) : Option Field :=
  n.label.field

def isExtra (n : Node) : Bool :=
  n.label.extra

def isMissing (n : Node) : Bool :=
  n.label.missing

def isFaulty (n : Node) : Bool :=
  n.label.faulty

def isError (n : Node) : Bool :=
  n.kind == .error

def isNamed (n : Node) : Bool :=
  n.kind.isNamed

@[simp] theorem label_mk (l : Label) (cs : List Node) : (mk l cs).label = l := rfl

@[simp] theorem children_mk (l : Label) (cs : List Node) : (mk l cs).children = cs := rfl

mutual

def size : Node → Nat
  | mk _ children => 1 + totalSize children

def totalSize : List Node → Nat
  | [] => 0
  | n :: rest => n.size + totalSize rest

end

theorem size_eq (n : Node) : n.size = 1 + totalSize n.children := by
  cases n
  simp [size]

/-- What holds of a node whenever it holds of its children holds of every node. -/
theorem induction {P : Node → Prop}
    (step : ∀ label children, (∀ c ∈ children, P c) → P (mk label children)) (n : Node) : P n :=
  n.rec (motive_1 := P) (motive_2 := fun children ↦ ∀ c ∈ children, P c)
    step (by simp) (fun c rest head tail ↦ by simpa using ⟨head, tail⟩)

end Node

end CoolTree
