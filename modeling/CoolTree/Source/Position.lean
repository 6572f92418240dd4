/-!
# Positions

A position in a source text is a byte offset together with the row and the column it falls on.
Offsets and columns count bytes of the text in UTF-8, and rows count line feeds. Reading
characters moves a position forward.
-/

namespace CoolTree

structure Point where
  row : Nat
  column : Nat
  deriving DecidableEq, Inhabited, Repr

namespace Point

/-- The row as people count it, from one. -/
def line (p : Point) : Nat :=
  p.row + 1

/-- The column as people count it, from one. -/
def displayColumn (p : Point) : Nat :=
  p.column + 1

/-- Rows are compared before columns. -/
def compare (p q : Point) : Ordering :=
  (Ord.compare p.row q.row).then (Ord.compare p.column q.column)

def display (p : Point) : String :=
  "[" ++ toString p.row ++ ", " ++ toString p.column ++ "]"

end Point

structure Position where
  offset : Nat
  point : Point
  deriving DecidableEq, Inhabited, Repr

namespace Position

def origin : Position :=
  ⟨0, ⟨0, 0⟩⟩

def advance (p : Position) (c : Char) : Position :=
  if c = '\n' then ⟨p.offset + 1, ⟨p.point.row + 1, 0⟩⟩
  else ⟨p.offset + c.utf8Size, ⟨p.point.row, p.point.column + c.utf8Size⟩⟩

def after (p : Position) (text : List Char) : Position :=
  text.foldl advance p

@[simp] theorem after_nil (p : Position) : p.after [] = p := rfl

@[simp] theorem after_cons (p : Position) (c : Char) (text : List Char) :
    p.after (c :: text) = (p.advance c).after text := rfl

@[simp] theorem after_append (p : Position) (s t : List Char) :
    p.after (s ++ t) = (p.after s).after t := by
  simp [after]

end Position

end CoolTree
