import CoolTree.Grammar.Cool
import CoolTree.Text.Blank
import CoolTree.Text.Word
import CoolTree.Token.Basic

/-!
# Scanning

The first token of a text that does not start with a blank, found from the characters alone. The
longest spelling wins. What is scanned is never empty, so each scan leaves less text than it was
given.
-/

namespace CoolTree

/-- What a scan finds: the kind and the text of a token, and the text behind it. -/
structure Scan where
  kind : TokenKind
  text : List Char
  rest : List Char
  deriving DecidableEq, Inhabited

namespace Scan

/-- The inside of a block comment up to and with its end, whether it has one, and the text behind
it. The inside read so far stands in front in reverse. -/
def closeComment (inside : List Char) : List Char → List Char × Bool × List Char
  | [] => (inside.reverse, false, [])
  | '*' :: ')' :: rest => (inside.reverse ++ ['*', ')'], true, rest)
  | c :: rest => closeComment (c :: inside) rest

def blockComment (rest : List Char) : Scan :=
  let (inside, closed, rest) := closeComment [] rest
  ⟨.blockComment closed, '(' :: '*' :: inside, rest⟩

/-- The first characters as long as they belong to a class, and the others. -/
def run (kind : List Char → TokenKind) (belongs : Char → Bool) (text : List Char) : Scan :=
  let run := text.takeWhile belongs
  ⟨kind run, run, text.dropWhile belongs⟩

def string (rest : List Char) : Scan :=
  let body := Body.read rest
  let ending := if body.closed then ['"'] else []
  ⟨.string body.parts body.closed, '"' :: body.text ++ ending, body.rest⟩

def wordKind (word : List Char) : TokenKind :=
  match TokenKind.keyword? (String.ofList word) with
  | some kind => kind
  | none =>
    if Grammar.primitiveTypeNames.contains (String.ofList word) then .primitiveType
    else if word.head?.any Text.isUppercase then .typeIdentifier
    else .identifier

def single? : Char → Option Terminal
  | '(' => some .leftParen
  | ')' => some .rightParen
  | '\x7b' => some .leftBrace
  | '\x7d' => some .rightBrace
  | ';' => some .semicolon
  | ':' => some .colon
  | ',' => some .comma
  | '.' => some .dot
  | '@' => some .atSign
  | '~' => some .tilde
  | '+' => some .plus
  | '-' => some .minus
  | '*' => some .star
  | '/' => some .slash
  | '<' => some .less
  | '=' => some .equal
  | _ => none

def first (c : Char) (rest : List Char) : Scan :=
  match c, rest with
  | '(', '*' :: rest => blockComment rest
  | '-', '-' :: _ => run (fun _ ↦ .lineComment) (· != '\n') (c :: rest)
  | '"', _ => string rest
  | '<', '-' :: rest => ⟨.terminal .assign, ['<', '-'], rest⟩
  | '<', '=' :: rest => ⟨.terminal .lessEqual, ['<', '='], rest⟩
  | '=', '>' :: rest => ⟨.terminal .arrow, ['=', '>'], rest⟩
  | _, _ =>
    if c.isDigit then run (fun _ ↦ .integer) Char.isDigit (c :: rest)
    else if Text.startsWord c then run wordKind Text.continuesWord (c :: rest)
    else match single? c with
      | some t => ⟨.terminal t, [c], rest⟩
      | none => ⟨.unknown c, [c], rest⟩

end Scan

end CoolTree
