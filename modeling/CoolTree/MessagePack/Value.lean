import CoolTree.Text.Utf8

/-!
# MessagePack values

The values a MessagePack text can hold, with all its ways to write a number told apart only by
sign. A string keeps its bytes, because they need not be valid UTF-8.
-/

namespace CoolTree.MessagePack

inductive Value where
  | nil
  | bool (b : Bool)
  | nat (n : Nat)
  | int (i : Int)
  | float
  | text (bytes : List UInt8)
  | binary (bytes : List UInt8)
  | array (elements : List Value)
  | map (entries : List (Value × Value))
  | extension
  deriving Inhabited

namespace Value

def bool? : Value → Option Bool
  | bool b => some b
  | _ => none

/-- A number of 32 bits with sign, in whatever format it was written. -/
def int32? : Value → Option Int32
  | nat n => if n < 0x80000000 then some (Int32.ofNat n) else none
  | int i => if -0x80000000 ≤ i ∧ i < 0x80000000 then some (Int32.ofInt i) else none
  | _ => none

def string? : Value → Option String
  | text bytes | binary bytes => Text.decodeUtf8? bytes
  | _ => none

/-- The elements of an array. Bytes are taken for an array of unsigned numbers, so empty bytes are
an empty list of anything. -/
def list? {α : Type} (element? : Value → Option α) : Value → Option (List α)
  | array elements => elements.mapM element?
  | binary bytes => bytes.mapM fun b ↦ element? (nat b.toNat)
  | _ => none

/-- What a map key or a variant names: the place of a name in `names`, which is outside the list
when the name is unknown. A place may be given as a number, and a name as a string or as bytes. -/
def place? (names : List String) : Value → Option Nat
  | nat n => some n
  | text bytes | binary bytes => some (names.findIdx fun name ↦ Text.encodeUtf8 name == bytes)
  | _ => none

def atPlace? (entries : List (Nat × Value)) (i : Nat) : Option Value :=
  match entries.filter (·.1 == i) with
  | [entry] => some entry.2
  | _ => none

/-- The values of a record with the given field names, in their order. A record is an array of
exactly its values, or a map in any order that holds each field once; entries under unknown keys
are left out. -/
def record? (names : List String) : Value → Option (List Value)
  | array elements => if elements.length = names.length then some elements else none
  | map entries => do
    let placed ← entries.mapM fun entry ↦ (place? names entry.1).map (·, entry.2)
    (List.range names.length).mapM (atPlace? placed)
  | _ => none

/-- The place in `names` of a variant without contents: the name alone, or a map of one entry from
the name to nil. -/
def variant? (names : List String) (v : Value) : Option Nat :=
  let place := match v with
    | map [(key, nil)] => place? names key
    | map _ => none
    | _ => place? names v
  place.filter (· < names.length)

end Value

end CoolTree.MessagePack
