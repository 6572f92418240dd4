import CoolTree.Parse.Input

/-!
# Token classes and tests

What parsing does next depends on the kinds of the next two tokens alone. A token class is a set
of kinds, and a test asks which classes the next tokens belong to.
-/

namespace CoolTree

inductive TokenClass where
  | only (t : Terminal)
  | identifier
  | expressionStart
  | synchronizing
  | ending
  | either (a b : TokenClass)
  deriving DecidableEq, Inhabited

namespace TokenClass

def has : TokenClass → TokenKind → Bool
  | only t, kind => kind == .terminal t
  | identifier, kind => kind.isIdentifier
  | expressionStart, kind => kind.startsExpression
  | synchronizing, kind => kind.isSynchronizing
  | ending, kind => kind == .ending
  | either a b, kind => a.has kind || b.has kind

end TokenClass

inductive Test where
  /-- The next token belongs to a class. -/
  | within (c : TokenClass)
  /-- The next token does not belong to a class. -/
  | outside (c : TokenClass)
  /-- The token behind the next one belongs to a class. -/
  | ahead (c : TokenClass)
  | both (a b : Test)
  deriving DecidableEq, Inhabited

namespace Test

def holds : Test → Input → Bool
  | within c, i => c.has i.current
  | outside c, i => !c.has i.current
  | ahead c, i => c.has i.upcoming
  | both a b, i => a.holds i && b.holds i

end Test

end CoolTree
