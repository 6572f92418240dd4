import CoolTree.Source.Span
import CoolTree.Text.Quoted
import CoolTree.Token.Body
import CoolTree.Token.Terminal

/-!
# Tokens

A token is a piece of source text together with the blank text in front of it and the position
where it starts. Comments are tokens too. The end of the text is a token without text of its own.
-/

namespace CoolTree

inductive TokenKind where
  | terminal (t : Terminal)
  | selfWord
  | identifier
  | typeIdentifier
  | primitiveType
  | integer
  | string (parts : List BodyPart) (closed : Bool)
  | lineComment
  | blockComment (closed : Bool)
  | ending
  /-- A character no token starts with. -/
  | unknown (c : Char)
  deriving DecidableEq, Inhabited

namespace TokenKind

/-- The kind of a reserved word, `self` included. -/
def keyword? (word : String) : Option TokenKind :=
  if word = "self" then some selfWord else (Terminal.keyword? word).map terminal

def spelling? : TokenKind → Option String
  | terminal t => some t.spelling
  | _ => none

def isComment : TokenKind → Bool
  | lineComment | blockComment _ => true
  | _ => false

/-- Words that can name an object. -/
def isIdentifier : TokenKind → Bool
  | identifier | typeIdentifier => true
  | _ => false

def startsExpression : TokenKind → Bool
  | identifier | typeIdentifier | selfWord | integer | string _ _ => true
  | terminal t =>
    match t with
    | .trueWord | .falseWord | .ifWord | .whileWord | .leftBrace | .letWord | .caseWord | .newWord
    | .isvoidWord | .notWord | .tilde | .leftParen => true
    | _ => false
  | _ => false

/-- Tokens that close or separate the constructs around them. No mending of an error skips one. -/
def isSynchronizing : TokenKind → Bool
  | ending => true
  | terminal t =>
    match t with
    | .semicolon | .rightBrace | .rightParen | .comma | .classWord | .thenWord | .elseWord | .fiWord
    | .loopWord | .poolWord | .inWord | .ofWord | .esacWord | .arrow => true
    | _ => false
  | _ => false

def description : TokenKind → String
  | terminal t => "'" ++ t.spelling ++ "'"
  | selfWord => "'self'"
  | identifier => "identifier"
  | typeIdentifier => "type identifier"
  | primitiveType => "primitive type"
  | integer => "integer"
  | string _ _ => "string"
  | lineComment | blockComment _ => "comment"
  | ending => "end of input"
  | unknown _ => "error"

theorem not_isSynchronizing_of_startsExpression {k : TokenKind} (h : k.startsExpression = true) :
    k.isSynchronizing = false := by
  cases k with
  | terminal t => cases t <;> simp_all [startsExpression, isSynchronizing]
  | _ => simp_all [startsExpression, isSynchronizing]

end TokenKind

structure Token where
  /-- Blank text between the token before and this one. -/
  gap : List Char
  start : Position
  kind : TokenKind
  text : List Char
  deriving DecidableEq, Inhabited

namespace Token

def stop (t : Token) : Position :=
  t.start.after t.text

def span (t : Token) : Span :=
  ⟨t.start, t.stop⟩

end Token

end CoolTree
