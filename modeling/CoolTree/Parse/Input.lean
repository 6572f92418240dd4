import CoolTree.Token.Stream

/-!
# Parser input

Parsing reads the tokens that are not comments. Each of them carries the comments in front of it;
the comments behind the last one are kept apart. An input knows how many tokens it holds.
-/

namespace CoolTree

/-- A token that is no comment, and the comments in front of it. -/
structure Item where
  comments : List Token
  token : Token
  deriving DecidableEq, Inhabited

structure Input where
  items : List Item
  size : Nat := items.length
  size_eq : size = items.length := by rfl

namespace Input

def ofItems (items : List Item) : Input where
  items := items

def tail (i : Input) : Input where
  items := i.items.tail
  size := i.size - 1
  size_eq := by simp [i.size_eq]

/-- The kind of the first token, which is the ending if there is none. -/
def current (i : Input) : TokenKind :=
  match i.items with
  | item :: _ => item.token.kind
  | [] => .ending

/-- The kind of the second token, which is the ending if there is none. -/
def upcoming (i : Input) : TokenKind :=
  match i.items with
  | _ :: item :: _ => item.token.kind
  | _ => .ending

@[simp] theorem size_tail (i : Input) : i.tail.size = i.size - 1 := rfl

theorem size_tail_lt {i : Input} {item : Item} {rest : List Item} (h : i.items = item :: rest) :
    i.tail.size < i.size := by
  have hsize := i.size_eq
  rw [h, List.length_cons] at hsize
  rw [size_tail]
  omega

end Input

structure Arrangement where
  items : List Item
  trailing : List Token
  deriving DecidableEq, Inhabited

namespace Arrangement

/-- Puts a token in front: a comment belongs to the item that follows it. -/
def prepend (t : Token) (a : Arrangement) : Arrangement :=
  match t.kind with
  | .lineComment | .blockComment _ =>
    match a.items with
    | item :: rest => { a with items := { item with comments := t :: item.comments } :: rest }
    | [] => { a with trailing := t :: a.trailing }
  | .ending => a
  | _ => { a with items := ⟨[], t⟩ :: a.items }

def ofTokens (tokens : List Token) : Arrangement :=
  tokens.foldr prepend ⟨[], []⟩

end Arrangement

end CoolTree
