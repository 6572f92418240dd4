import CoolTree.Grammar.Cool
import CoolTree.MessagePack.Reader
import CoolTree.MessagePack.Writer

/-!
# Grammar artifacts

An artifact is a grammar definition in binary form. It starts with eight magic bytes, a version
number of two bytes and the length of the payload in four bytes, both little-endian. The payload
is the definition as a MessagePack map.
-/

namespace CoolTree.Grammar

namespace Associativity

def names : List String :=
  ["Left", "Right"]

def encode : Associativity → List UInt8
  | .left => MessagePack.Write.text "Left"
  | .right => MessagePack.Write.text "Right"

def ofValue? (v : MessagePack.Value) : Option Associativity := do
  match ← v.variant? names with
  | 0 => some .left
  | 1 => some .right
  | _ => none

end Associativity

namespace SymbolEntry

def encode (s : SymbolEntry) : List UInt8 :=
  MessagePack.Write.record
    [("name", MessagePack.Write.text s.name), ("named", MessagePack.Write.bool s.named),
      ("visible", MessagePack.Write.bool s.visible)]

def ofValue? (v : MessagePack.Value) : Option SymbolEntry := do
  match ← v.record? ["name", "named", "visible"] with
  | [name, named, visible] => return ⟨← name.string?, ← named.bool?, ← visible.bool?⟩
  | _ => none

end SymbolEntry

namespace Level

def encode (l : Level) : List UInt8 :=
  MessagePack.Write.record
    [("name", MessagePack.Write.text l.name), ("value", MessagePack.Write.int l.value.toInt)]

def ofValue? (v : MessagePack.Value) : Option Level := do
  match ← v.record? ["name", "value"] with
  | [name, value] => return ⟨← name.string?, ← value.int32?⟩
  | _ => none

end Level

namespace OperatorEntry

def encode (o : OperatorEntry) : List UInt8 :=
  MessagePack.Write.record
    [("token", MessagePack.Write.text o.token), ("level", MessagePack.Write.text o.level),
      ("associativity", Associativity.encode o.associativity)]

def ofValue? (v : MessagePack.Value) : Option OperatorEntry := do
  match ← v.record? ["token", "level", "associativity"] with
  | [token, level, associativity] =>
    return ⟨← token.string?, ← level.string?, ← Associativity.ofValue? associativity⟩
  | _ => none

end OperatorEntry

namespace Definition

def encode (d : Definition) : List UInt8 :=
  let names := MessagePack.Write.array MessagePack.Write.text
  MessagePack.Write.record
    [("name", MessagePack.Write.text d.name),
      ("symbols", MessagePack.Write.array SymbolEntry.encode d.symbols),
      ("fields", names d.fields),
      ("precedences", MessagePack.Write.array Level.encode d.levels),
      ("binary_operators", MessagePack.Write.array OperatorEntry.encode d.operators),
      ("primitive_types", names d.primitiveTypes),
      ("extras", names d.extras),
      ("externals", names d.externals)]

/-- The written field names, in the order of the fields. -/
def fieldNames : List String :=
  ["name", "symbols", "fields", "precedences", "binary_operators", "primitive_types", "extras",
    "externals"]

def ofValue? (v : MessagePack.Value) : Option Definition := do
  let names := MessagePack.Value.list? MessagePack.Value.string?
  match ← v.record? fieldNames with
  | [name, symbols, fields, levels, operators, primitiveTypes, extras, externals] =>
    return {
      name := ← name.string?
      symbols := ← symbols.list? SymbolEntry.ofValue?
      fields := ← names fields
      levels := ← levels.list? Level.ofValue?
      operators := ← operators.list? OperatorEntry.ofValue?
      primitiveTypes := ← names primitiveTypes
      extras := ← names extras
      externals := ← names externals }
  | _ => none

def nestingLimit : Nat :=
  1023

/-- The definition at the front of a payload. What follows it is not looked at. -/
def decode? (payload : List UInt8) : Option Definition := do
  let (v, _) ← MessagePack.Read.value nestingLimit payload
  ofValue? v

end Definition

/-- How a definition is written as bytes and read from them. -/
structure Codec where
  encode : Definition → List UInt8
  decode? : List UInt8 → Option Definition

def Codec.messagePack : Codec :=
  ⟨Definition.encode, Definition.decode?⟩

namespace Artifact

def magic : List UInt8 :=
  Text.encodeUtf8 "COOLGRMR"

def version : Nat :=
  1

def oldestVersion : Nat :=
  1

def headerLength : Nat :=
  14

/-- A number in `count` bytes, the lowest byte first. -/
def littleEndian (count n : Nat) : List UInt8 :=
  (MessagePack.bigEndian count n).reverse

def ofLittleEndian (bytes : List UInt8) : Nat :=
  bytes.foldr (fun b n ↦ b.toNat + 256 * n) 0

def pack (payload : List UInt8) : List UInt8 :=
  magic ++ littleEndian 2 version ++ littleEndian 4 payload.length ++ payload

/-- The artifact of a definition, unless its payload is too long for the length in the header. -/
def compileWith? (c : Codec) (d : Definition) : Option (List UInt8) :=
  let payload := c.encode d
  if payload.length < 0x100000000 then some (pack payload) else none

def compile? (d : Definition) : Option (List UInt8) :=
  compileWith? .messagePack d

def cool : List UInt8 :=
  (compile? .cool).getD []

inductive HeaderFault where
  | empty
  | truncated (expected actual : Nat)
  | badMagic
  | versionMismatch (found : Nat)
  | trailingBytes (count : Nat)
  deriving DecidableEq, Inhabited

/-- Checks the header of an artifact, and gives its version and its payload. -/
def unpack (artifact : List UInt8) : Except HeaderFault (Nat × List UInt8) :=
  let actual := artifact.length
  if actual = 0 then .error .empty
  else if actual < headerLength then .error (.truncated headerLength actual)
  else if artifact.take 8 ≠ magic then .error .badMagic
  else
    let found := ofLittleEndian ((artifact.drop 8).take 2)
    if found < oldestVersion ∨ version < found then .error (.versionMismatch found)
    else
      let declared := headerLength + ofLittleEndian ((artifact.drop 10).take 4)
      if actual < declared then .error (.truncated declared actual)
      else if declared < actual then .error (.trailingBytes (actual - declared))
      else .ok (found, artifact.drop headerLength)

end Artifact

end CoolTree.Grammar
