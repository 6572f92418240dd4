import CoolTree.Token.Basic

/-!
# Problems

What parsing can find wrong with a source text, and how it is put into words.
-/

namespace CoolTree

/-- What a construct goes on with. -/
inductive Wanted where
  | terminal (t : Terminal)
  | identifier
  | typeName
  | className
  | expression
  deriving DecidableEq, Inhabited

namespace Wanted

def description : Wanted → String
  | terminal t => (TokenKind.terminal t).description
  | identifier => "identifier"
  | typeName => "type"
  | className => "class name"
  | expression => "expression"

end Wanted

inductive Problem where
  | expected (wanted : Wanted) (found : TokenKind)
  | unexpected (found : TokenKind)
  | unterminatedString
  | unterminatedComment
  | tooDeep
  deriving DecidableEq, Inhabited

namespace Problem

def message : Problem → String
  | expected wanted found => "expected " ++ wanted.description ++ ", found " ++ found.description
  | unexpected (.unknown c) => "unexpected character: " ++ Text.quoteChar c
  | unexpected found => "unexpected " ++ found.description
  | unterminatedString => "unterminated string literal"
  | unterminatedComment => "unterminated block comment"
  | tooDeep => "expression nested too deeply"

end Problem

/-- A problem and the part of the source it concerns. -/
structure SyntaxError where
  problem : Problem
  span : Span
  deriving DecidableEq, Inhabited

namespace SyntaxError

def message (e : SyntaxError) : String :=
  e.problem.message

def display (e : SyntaxError) : String :=
  let point := e.span.start.point
  toString point.line ++ ":" ++ toString point.displayColumn ++ ": " ++ e.message

end SyntaxError

end CoolTree
