import CoolTree.Tree.Basic

/-!
# Cursors

A cursor stands at a node of a tree. It moves down to the children that the node lists and up to the
parent that the node names. The nodes from a cursor down are visited in pre-order with a stack of
numbers; there are no more of them than the tree has nodes.
-/

namespace CoolTree

structure Cursor where
  tree : Tree
  id : Nat

namespace Cursor

def ofTree (t : Tree) : Cursor :=
  ⟨t, t.top⟩

def entry (c : Cursor) : Entry :=
  c.tree.arena.entry c.id

/-- A cursor at another node of the tree. -/
def move (c : Cursor) (id : Nat) : Cursor :=
  ⟨c.tree, id⟩

def parent? (c : Cursor) : Option Cursor :=
  c.entry.parent.map c.move

def children (c : Cursor) : List Cursor :=
  c.entry.children.map c.move

def child? (c : Cursor) (i : Nat) : Option Cursor :=
  c.entry.children[i]?.map c.move

def namedChildren (c : Cursor) : List Cursor :=
  c.children.filter (·.entry.kind.isNamed)

/-- The number of a role in the language of the tree. -/
def fieldNumber? (c : Cursor) (field : Field) : Option Nat :=
  c.tree.language.fieldNumber? field.label

/-- The children in the role with a name. A name the language does not know is no role. -/
def childrenByField (c : Cursor) (name : String) : List Cursor :=
  let wanted := c.tree.language.fieldNumber? name
  let chosen := (c.entry.children.zip c.entry.fields).filter fun (_, field) ↦
    wanted.isSome && field.bind c.fieldNumber? == wanted
  chosen.map fun (id, _) ↦ c.move id

def childByField? (c : Cursor) (name : String) : Option Cursor :=
  (c.childrenByField name).head?

def fieldNameOfChild? (c : Cursor) (i : Nat) : Option String := do
  c.tree.language.fieldName? (← c.fieldNumber? (← (← c.entry.fields[i]?)))

/-- The role that the parent has written down for the node. -/
def role? (c : Cursor) : Option Field :=
  (c.parent?.bind fun p ↦ (p.entry.children.zip p.entry.fields).lookup c.id).join

/-- The node with its role and everything below it. -/
def node (c : Cursor) : Node :=
  (c.tree.arena.node c.id).inRole c.role?

end Cursor

/-- A visit of nodes in pre-order: what is still to be visited, with everything below it. -/
structure Descendants where
  tree : Tree
  stack : List Nat

namespace Descendants

def next? (d : Descendants) : Option (Cursor × Descendants) :=
  match d.stack with
  | [] => none
  | id :: rest =>
    let c : Cursor := ⟨d.tree, id⟩
    some (c, { d with stack := c.entry.children ++ rest })

/-- Visits a number of nodes, or all if there are not so many, behind those visited so far. -/
def visit (visited : Array Cursor) : Nat → Descendants → Array Cursor × Descendants
  | 0, d => (visited, d)
  | n + 1, d =>
    match d.next? with
    | none => (visited, d)
    | some (c, rest) => visit (visited.push c) n rest

end Descendants

namespace Cursor

/-- The node and everything below it in pre-order. -/
def descendants (c : Cursor) : List Cursor :=
  (Descendants.visit #[] c.tree.nodeCount ⟨c.tree, [c.id]⟩).1.toList

/-- The first node of a kind, the node itself included. -/
def find? (c : Cursor) (kind : String) : Option Cursor :=
  c.descendants.find? (·.entry.kind.name == kind)

end Cursor

end CoolTree
