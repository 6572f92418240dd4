import CoolTree.Token.Stream

/-!
# Snippets

A snippet is complete when it leaves no bracket, string or comment open. A string that broke off
at a line feed is not open: more input would not close it.
-/

namespace CoolTree.Snippet

/-- What a token adds to the number of open brackets. The number is an integer here; counted in a
word of 32 bits it is the same for every text with fewer than 2^31 brackets. -/
def bracketChange : TokenKind → Int
  | .terminal .leftBrace | .terminal .leftParen => 1
  | .terminal .rightBrace | .terminal .rightParen => -1
  | _ => 0

/-- Whether a token is still open when the text ends at byte `length`. -/
def isOpen (length : Nat) (t : Token) : Bool :=
  match t.kind with
  | .blockComment false => true
  | .string _ false => t.stop.offset == length
  | _ => false

def isComplete (text : List Char) : Bool :=
  let tokens := Token.ofSource text
  !tokens.any (isOpen (Source.byteLength text)) &&
    tokens.foldl (fun depth t ↦ depth + bracketChange t.kind) 0 ≤ 0

/-- Whether there is nothing to see in a text. -/
def isBlank (text : List Char) : Bool :=
  text.all Text.isBlank

end CoolTree.Snippet
