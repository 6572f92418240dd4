import CoolTree.MessagePack.Value

/-!
# Reading MessagePack

Reading takes one value from the front of the bytes and leaves the rest. Every width of every
format is accepted. Values may nest only so deep, and the recursion is on what is left of that
depth. An extension is a level of its own, because it holds a type and data.
-/

namespace CoolTree.MessagePack.Read

abbrev Step (α : Type) := List UInt8 → Option (α × List UInt8)

def bytesOnto (read : List UInt8) : Nat → Step (List UInt8)
  | 0, rest => some (read.reverse, rest)
  | _ + 1, [] => none
  | n + 1, b :: rest => bytesOnto (b :: read) n rest

def bytes (n : Nat) : Step (List UInt8) :=
  bytesOnto [] n

def natural (width : Nat) : Step Nat := fun input ↦ do
  let (digits, rest) ← bytes width input
  return (digits.foldl (fun n b ↦ n * 256 + b.toNat) 0, rest)

def integer (width : Nat) : Step Int := fun input ↦ do
  let (n, rest) ← natural width input
  let bound := Nat.pow 256 width
  return (if 2 * n < bound then (n : Int) else (n : Int) - bound, rest)

/-- As many values as asked for, read so far in reverse. -/
def manyOnto {α : Type} (step : Step α) (read : List α) : Nat → Step (List α)
  | 0, rest => some (read.reverse, rest)
  | n + 1, input =>
    match step input with
    | none => none
    | some (x, rest) => manyOnto step (x :: read) n rest

def many {α : Type} (step : Step α) (n : Nat) : Step (List α) :=
  manyOnto step [] n

def pair {α : Type} (step : Step α) : Step (α × α) := fun input ↦ do
  let (a, rest) ← step input
  let (b, rest) ← step rest
  return ((a, b), rest)

def counted (width : Nat) : Step (List UInt8) := fun input ↦ do
  let (n, rest) ← natural width input
  bytes n rest

/-- An extension: a type byte and `n` bytes. -/
def skipExtension (n : Nat) : Step Value := fun input ↦ do
  let (_, rest) ← bytes (n + 1) input
  return (.extension, rest)

def mapped {α β : Type} (f : α → β) (step : Step α) : Step β := fun input ↦
  (step input).map fun (x, rest) ↦ (f x, rest)

/-- The formats without a level below them, by their first byte. -/
def scalar (head : Nat) : Step Value :=
  if head < 0x80 then fun rest ↦ some (.nat head, rest)
  else if 0xa0 ≤ head ∧ head < 0xc0 then mapped .text (bytes (head - 0xa0))
  else if 0xe0 ≤ head then fun rest ↦ some (.int ((head : Int) - 0x100), rest)
  else match head with
    | 0xc0 => fun rest ↦ some (.nil, rest)
    | 0xc2 => fun rest ↦ some (.bool false, rest)
    | 0xc3 => fun rest ↦ some (.bool true, rest)
    | 0xc4 => mapped .binary (counted 1)
    | 0xc5 => mapped .binary (counted 2)
    | 0xc6 => mapped .binary (counted 4)
    | 0xca => mapped (fun _ ↦ .float) (bytes 4)
    | 0xcb => mapped (fun _ ↦ .float) (bytes 8)
    | 0xcc => mapped .nat (natural 1)
    | 0xcd => mapped .nat (natural 2)
    | 0xce => mapped .nat (natural 4)
    | 0xcf => mapped .nat (natural 8)
    | 0xd0 => mapped .int (integer 1)
    | 0xd1 => mapped .int (integer 2)
    | 0xd2 => mapped .int (integer 4)
    | 0xd3 => mapped .int (integer 8)
    | 0xd9 => mapped .text (counted 1)
    | 0xda => mapped .text (counted 2)
    | 0xdb => mapped .text (counted 4)
    | _ => fun _ ↦ none

inductive Container where
  | array
  | map
  | extension

/-- What kind of container a first byte opens, and how its number of elements (of an extension,
the number of bytes of its data) is found. -/
def container? (head : Nat) : Option (Container × Step Nat) :=
  if 0x80 ≤ head ∧ head < 0x90 then some (.map, fun rest ↦ some (head - 0x80, rest))
  else if 0x90 ≤ head ∧ head < 0xa0 then some (.array, fun rest ↦ some (head - 0x90, rest))
  else match head with
    | 0xc7 => some (.extension, natural 1)
    | 0xc8 => some (.extension, natural 2)
    | 0xc9 => some (.extension, natural 4)
    | 0xd4 => some (.extension, fun rest ↦ some (1, rest))
    | 0xd5 => some (.extension, fun rest ↦ some (2, rest))
    | 0xd6 => some (.extension, fun rest ↦ some (4, rest))
    | 0xd7 => some (.extension, fun rest ↦ some (8, rest))
    | 0xd8 => some (.extension, fun rest ↦ some (16, rest))
    | 0xdc => some (.array, natural 2)
    | 0xdd => some (.array, natural 4)
    | 0xde => some (.map, natural 2)
    | 0xdf => some (.map, natural 4)
    | _ => none

/-- One value, which nests at most as deep as the number says. -/
def value : Nat → Step Value
  | _, [] => none
  | depth, head :: input =>
    match container? head.toNat with
    | none => scalar head.toNat input
    | some (container, count) =>
      match depth with
      | 0 => none
      | depth + 1 => do
        let (n, rest) ← count input
        match container with
        | .array => mapped .array (many (value depth) n) rest
        | .map => mapped .map (many (pair (value depth)) n) rest
        | .extension => skipExtension n rest

end CoolTree.MessagePack.Read
