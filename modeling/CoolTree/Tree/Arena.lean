import CoolTree.Tree.Node

/-!
# Arenas

The nodes of a tree stand in an array, in the order in which they were made. An entry knows its
children and its parent by their numbers, which are their places in the array, and the role of each
child stands in a list beside the children. Children are made before their parents, so what is
below a node follows from the entries in front of it.
-/

namespace CoolTree

structure Entry where
  kind : Kind
  span : Span
  children : List Nat := []
  /-- The roles of the children, one for each. -/
  fields : List (Option Field) := []
  parent : Option Nat := none
  /-- Whether the node is a comment, which may stand anywhere. -/
  extra : Bool := false
  /-- Whether the node stands for input that should be there and is not. -/
  missing : Bool := false
  /-- Whether something is wrong in the node or below it. -/
  faulty : Bool := false
  deriving DecidableEq, Inhabited

def Entry.below (e : Entry) (parent : Nat) : Entry :=
  { e with parent := some parent }

/-- A node put into a role, or into none. -/
def Node.inRole (field : Option Field) (n : Node) : Node :=
  .mk { n.label with field := field } n.children

/-- The node of an entry, from the nodes of the entries in front of it. -/
def Entry.node (nodes : Array Node) (e : Entry) : Node :=
  .mk ⟨e.kind, e.span, none, e.extra, e.missing, e.faulty⟩
    (List.zipWith (fun id field ↦ (nodes.getD id default).inRole field) e.children e.fields)

abbrev Arena :=
  Array Entry

namespace Arena

def entry (a : Arena) (id : Nat) : Entry :=
  a.getD id default

/-- The nodes of all entries, with what is below them. -/
def nodes (a : Arena) : Array Node :=
  a.foldl (fun nodes e ↦ nodes.push (e.node nodes)) #[]

/-- The node with a number, with what is below it. As long as it is not seen as a child, it has no
role. -/
def node (a : Arena) (id : Nat) : Node :=
  a.nodes.getD id default

end Arena

end CoolTree
