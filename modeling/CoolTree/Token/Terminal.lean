/-!
# Terminals

The tokens that have one fixed spelling: the reserved words and the punctuation. A terminal is
known by its spelling, and no two share one.
-/

namespace CoolTree

inductive Terminal where
  | classWord | inheritsWord | ifWord | thenWord | elseWord | fiWord | whileWord | loopWord
  | poolWord | letWord | inWord | caseWord | ofWord | esacWord | newWord | isvoidWord | notWord
  | trueWord | falseWord
  | leftBrace | rightBrace | leftParen | rightParen | semicolon | colon | comma | dot | atSign
  | assign | arrow | tilde | plus | minus | star | slash | less | lessEqual | equal
  deriving DecidableEq, Inhabited, Repr

namespace Terminal

def spelling : Terminal → String
  | classWord => "class"
  | inheritsWord => "inherits"
  | ifWord => "if"
  | thenWord => "then"
  | elseWord => "else"
  | fiWord => "fi"
  | whileWord => "while"
  | loopWord => "loop"
  | poolWord => "pool"
  | letWord => "let"
  | inWord => "in"
  | caseWord => "case"
  | ofWord => "of"
  | esacWord => "esac"
  | newWord => "new"
  | isvoidWord => "isvoid"
  | notWord => "not"
  | trueWord => "true"
  | falseWord => "false"
  | leftBrace => "\x7b"
  | rightBrace => "\x7d"
  | leftParen => "("
  | rightParen => ")"
  | semicolon => ";"
  | colon => ":"
  | comma => ","
  | dot => "."
  | atSign => "@"
  | assign => "<-"
  | arrow => "=>"
  | tilde => "~"
  | plus => "+"
  | minus => "-"
  | star => "*"
  | slash => "/"
  | less => "<"
  | lessEqual => "<="
  | equal => "="

def keywords : List Terminal :=
  [classWord, inheritsWord, ifWord, thenWord, elseWord, fiWord, whileWord, loopWord, poolWord,
    letWord, inWord, caseWord, ofWord, esacWord, newWord, isvoidWord, notWord, trueWord, falseWord]

def punctuation : List Terminal :=
  [leftBrace, rightBrace, leftParen, rightParen, semicolon, colon, comma, dot, atSign, assign,
    arrow, tilde, plus, minus, star, slash, less, lessEqual, equal]

def all : List Terminal :=
  keywords ++ punctuation

theorem mem_all (t : Terminal) : t ∈ all := by
  cases t <;> decide

/-- The reserved word with a spelling. Case matters. -/
def keyword? (word : String) : Option Terminal :=
  keywords.find? (·.spelling == word)

end Terminal

inductive Operator where
  | lessEqual | less | equal | plus | minus | times | divide
  deriving DecidableEq, Inhabited, Repr

namespace Operator

def terminal : Operator → Terminal
  | lessEqual => .lessEqual
  | less => .less
  | equal => .equal
  | plus => .plus
  | minus => .minus
  | times => .star
  | divide => .slash

def spelling (o : Operator) : String :=
  o.terminal.spelling

def all : List Operator :=
  [lessEqual, less, equal, plus, minus, times, divide]

theorem mem_all (o : Operator) : o ∈ all := by
  cases o <;> decide

def ofTerminal? (t : Terminal) : Option Operator :=
  all.find? (·.terminal == t)

end Operator

end CoolTree
