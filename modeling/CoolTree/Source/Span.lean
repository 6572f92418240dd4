import CoolTree.Source.Position

/-!
# Spans

A span is the part of a source text between two positions, the first one included and the last one
not. A span whose end lies before its start covers nothing.
-/

namespace CoolTree

structure Span where
  start : Position
  stop : Position
  deriving DecidableEq, Inhabited, Repr

namespace Span

def emptyAt (p : Position) : Span :=
  ⟨p, p⟩

/-- The span from the start of `a` to the end of `a` or `b`, whichever is later. -/
def cover (a b : Span) : Span :=
  ⟨a.start, if a.stop.offset ≤ b.stop.offset then b.stop else a.stop⟩

def length (s : Span) : Nat :=
  s.stop.offset - s.start.offset

def isEmpty (s : Span) : Bool :=
  s.stop.offset ≤ s.start.offset

def contains (s : Span) (offset : Nat) : Bool :=
  s.start.offset ≤ offset && offset < s.stop.offset

/-- Earlier starts come first, and of two equal starts the earlier end. -/
def precedes (a b : Span) : Bool :=
  a.start.offset < b.start.offset ||
    (a.start.offset == b.start.offset && a.stop.offset ≤ b.stop.offset)

end Span

namespace Source

def byteLength (text : List Char) : Nat :=
  text.foldl (fun n c ↦ n + c.utf8Size) 0

/-- The text behind the first `n` bytes, unless they end inside a character or behind the text. -/
def dropBytes? : Nat → List Char → Option (List Char)
  | 0, text => some text
  | _ + 1, [] => none
  | n + 1, c :: text => if c.utf8Size ≤ n + 1 then dropBytes? (n + 1 - c.utf8Size) text else none

/-- The first `n` bytes of a text. The characters read so far stand in front, the last one first. -/
def takeBytesOnto? (read : List Char) : Nat → List Char → Option (List Char)
  | 0, _ => some read.reverse
  | _ + 1, [] => none
  | n + 1, c :: text =>
    if c.utf8Size ≤ n + 1 then takeBytesOnto? (c :: read) (n + 1 - c.utf8Size) text else none

/-- The first `n` bytes of a text, unless they end inside a character or behind the text. -/
def takeBytes? (n : Nat) (text : List Char) : Option (List Char) :=
  takeBytesOnto? [] n text

/-- The bytes from `start` up to `stop`, unless one of them is not a boundary between characters. -/
def slice? (text : List Char) (start stop : Nat) : Option (List Char) :=
  if start ≤ stop then do takeBytes? (stop - start) (← dropBytes? start text) else none

end Source

/-- The text a span covers, empty when the span does not fit the text. -/
def Span.text (s : Span) (source : String) : String :=
  String.ofList ((Source.slice? source.toList s.start.offset s.stop.offset).getD [])

end CoolTree
