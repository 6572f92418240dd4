import CoolTree.Text.Quoted
import CoolTree.Tree.Node

/-!
# S-expressions

A tree is shown as an S-expression of its named and its missing nodes, each with its field in
front: `(class_item name: (type_identifier) (MISSING ";"))`. The walk keeps what is left to write
in a list, so it needs no stack however deep the tree is.
-/

namespace CoolTree.Sexp

/-- What an S-expression shows: the nodes that are named or missing. -/
def isShown (n : Node) : Bool :=
  n.isNamed || n.isMissing

def head (n : Node) : String :=
  if n.isMissing then
    "MISSING " ++ (if n.isNamed then n.kind.name else Text.quoteString n.kind.name)
  else n.kind.name

def fieldMark : Option Field → String
  | none => ""
  | some field => field.label ++ ": "

inductive Task where
  | node (field : Option Field) (n : Node)
  | close

namespace Task

def ofChild (n : Node) : Task :=
  node n.field? n

def weight : Task → Nat
  | node _ n => 2 * n.size
  | close => 1

end Task

def weight : List Task → Nat
  | [] => 0
  | task :: rest => task.weight + weight rest

theorem weight_append (tasks more : List Task) :
    weight (tasks ++ more) = weight tasks + weight more := by
  induction tasks with
  | nil => simp [weight]
  | cons task rest ih => simp [weight, ih, Nat.add_assoc]

theorem weight_map_ofChild (children : List Node) :
    weight (children.map Task.ofChild) = 2 * Node.totalSize children := by
  induction children with
  | nil => rfl
  | cons c rest ih =>
      simp only [weight, List.map_cons, Node.totalSize]
      rw [ih]
      simp only [Task.ofChild, Task.weight]
      omega

/-- The opening of a node, behind what is written already. -/
def opening (written : String) (field : Option Field) (n : Node) : String :=
  (if written.isEmpty then written else written ++ " ") ++ fieldMark field ++ "(" ++ head n

def write (written : String) : List Task → String
  | [] => written
  | .close :: rest => write (written ++ ")") rest
  | .node field n :: rest =>
    let below := n.children.map Task.ofChild
    if isShown n then write (opening written field n) (below ++ .close :: rest)
    else write written (below ++ rest)
  termination_by tasks => weight tasks
  decreasing_by
  · simp [weight, Task.weight]
  · have below := weight_map_ofChild n.children
    simp only [weight_append, weight, Task.weight]
    rw [below, n.size_eq]
    omega
  · have below := weight_map_ofChild n.children
    simp only [weight_append, weight, Task.weight]
    rw [below, n.size_eq]
    omega

end Sexp

namespace Node

/-- A node and everything below it as an S-expression. The role of the node itself is not shown. -/
def sexp (n : Node) : String :=
  Sexp.write "" [.node none n]

end Node

end CoolTree
