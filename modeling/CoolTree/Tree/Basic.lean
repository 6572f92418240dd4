import CoolTree.Grammar.Language
import CoolTree.Tree.Arena
import CoolTree.Tree.Problem
import CoolTree.Tree.Sexp

/-!
# Syntax trees

A tree keeps the source it was parsed from, its nodes, the number of its root, and the problems
found on the way in the order of the source.
-/

namespace CoolTree

structure Tree where
  language : Language
  source : String
  arena : Arena
  top : Nat
  errors : List SyntaxError

namespace Tree

/-- The root with everything below it. -/
def root (t : Tree) : Node :=
  t.arena.node t.top

def nodeCount (t : Tree) : Nat :=
  t.arena.size

/-- The part of the source a node covers. -/
def textOf (t : Tree) (n : Node) : String :=
  n.span.text t.source

def summary (t : Tree) : String :=
  "\x7bTree " ++ Text.quoteString t.root.sexp ++ "\x7d"

end Tree

namespace Node

def summary (n : Node) : String :=
  let extent := n.span.start.point.display ++ " - " ++ n.span.stop.point.display
  "\x7bNode " ++ n.kind.name ++ " " ++ extent ++ "\x7d"

end Node

end CoolTree
