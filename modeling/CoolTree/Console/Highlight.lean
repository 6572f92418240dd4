import CoolTree.Token.Stream

/-!
# Highlighting

Source text is colored for a terminal by putting a color code in front of a token and a reset code
behind it. Nothing else is changed.
-/

namespace CoolTree.Highlight

inductive Color where
  | keyword
  | type
  | literal
  | string
  | comment
  | error
  deriving DecidableEq, Inhabited

def Color.code : Color → String
  | keyword => "\x1b[1;35m"
  | type => "\x1b[33m"
  | literal => "\x1b[36m"
  | string => "\x1b[32m"
  | comment => "\x1b[2;3m"
  | error => "\x1b[31m"

def reset : String :=
  "\x1b[0m"

/-- The color of a token. Punctuation has none. -/
def color? : TokenKind → Option Color
  | .typeIdentifier | .primitiveType => some .type
  | .integer | .terminal .trueWord | .terminal .falseWord | .selfWord => some .literal
  | .string _ _ => some .string
  | .lineComment | .blockComment _ => some .comment
  | .unknown _ => some .error
  | .terminal t => if t ∈ Terminal.keywords then some .keyword else none
  | .identifier | .ending => none

/-- The line itself where nothing is colored, and otherwise a new text. -/
inductive Answer where
  | unchanged
  | changed (text : List Char)
  deriving DecidableEq, Inhabited

def Answer.text (line : List Char) : Answer → List Char
  | unchanged => line
  | changed text => text

/-- A copy of a line that is under way: what has been put out, up to which byte the line has been
copied, and whether anything has been colored. -/
structure Copy where
  output : List Char := []
  copied : Nat := 0
  colored : Bool := false

namespace Copy

/-- Copies the line up to a token and the token between its codes, if it has a color. There is no
copy when one of the slices does not fit the line. -/
def step? (line : List Char) (s : Copy) (t : Token) : Option Copy :=
  match color? t.kind with
  | none => some s
  | some color => do
    let between ← Source.slice? line s.copied t.start.offset
    let text ← Source.slice? line t.start.offset t.stop.offset
    let colored := color.code.toList ++ text ++ reset.toList
    return ⟨s.output ++ between ++ colored, t.stop.offset, true⟩

def finish? (line : List Char) (s : Copy) : Option Answer :=
  if s.colored then do
    let rest ← Source.slice? line s.copied (Source.byteLength line)
    return .changed (s.output ++ rest)
  else some .unchanged

end Copy

/-- Highlights a line, copying it in slices. -/
def answer? (line : List Char) : Option Answer := do
  let s ← (Token.ofSource line).foldlM (Copy.step? line) {}
  s.finish? line

/-- The main prompt, in bold green. Other prompts are left as they are. -/
def prompt (main : Bool) (text : String) : String :=
  if main then "\x1b[1;32m" ++ text ++ reset else text

end CoolTree.Highlight
