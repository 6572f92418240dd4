/-!
# Bodies of string literals

The body of a string literal is what stands between its quotes. It is read from left to right, a
backslash together with the character behind it. Five of these pairs are escape sequences and are
kept apart from the runs of other text around them. The body ends at a quote of its own, and it
breaks off at a line feed, at a NUL character and at the end of the text.
-/

namespace CoolTree

inductive BodyPart where
  /-- A run of text that holds no escape sequence. -/
  | content (text : List Char)
  /-- A backslash and the character behind it, one of the five that name an escape sequence. -/
  | escape (c : Char)
  deriving DecidableEq, Inhabited

namespace BodyPart

def text : BodyPart → List Char
  | content text => text
  | escape c => ['\\', c]

def escapable (c : Char) : Bool :=
  c == 'b' || c == 't' || c == 'n' || c == 'f' || c == '"'

/-- Puts text in front of the parts, into the run they start with if there is one. -/
def addContent (text : List Char) : List BodyPart → List BodyPart
  | content run :: rest => content (text ++ run) :: rest
  | parts => content text :: parts

end BodyPart

/-- A body that has been read: its parts, whether a quote ends it, and the text from there on, the
closing quote left out. -/
structure Body where
  parts : List BodyPart
  closed : Bool
  rest : List Char
  deriving DecidableEq, Inhabited

namespace Body

def addContent (text : List Char) (b : Body) : Body :=
  { b with parts := BodyPart.addContent text b.parts }

def addEscape (c : Char) (b : Body) : Body :=
  { b with parts := .escape c :: b.parts }

def read : List Char → Body
  | [] => ⟨[], false, []⟩
  | '"' :: rest => ⟨[], true, rest⟩
  | '\n' :: rest => ⟨[], false, '\n' :: rest⟩
  | '\x00' :: rest => ⟨[], false, '\x00' :: rest⟩
  | '\\' :: '\x00' :: rest => ⟨[.content ['\\']], false, '\x00' :: rest⟩
  | '\\' :: c :: rest =>
    if BodyPart.escapable c then (read rest).addEscape c else (read rest).addContent ['\\', c]
  | c :: rest => (read rest).addContent [c]

def text (b : Body) : List Char :=
  b.parts.flatMap BodyPart.text

end Body

def unescapePair : Char → Char
  | 'b' => '\x08'
  | 't' => '\t'
  | 'n' => '\n'
  | 'f' => '\x0c'
  | c => c

/-- The value of the body of a string literal. A backslash at the very end stands for itself. -/
def unescape : List Char → List Char
  | [] => []
  | ['\\'] => ['\\']
  | '\\' :: c :: rest => unescapePair c :: unescape rest
  | c :: rest => c :: unescape rest

end CoolTree
