import CoolTree.Text.Utf8

/-!
# Writing MessagePack

Every value has a shortest MessagePack form, and that is the form written here. Numbers are
big-endian.
-/

namespace CoolTree.MessagePack

/-- The lowest `count` bytes of a number, the highest of them first. -/
def bigEndian : Nat → Nat → List UInt8
  | 0, _ => []
  | count + 1, n => UInt8.ofNat (n / Nat.pow 256 count) :: bigEndian count n

namespace Write

def bool (b : Bool) : List UInt8 :=
  [if b then 0xc3 else 0xc2]

def nat (n : Nat) : List UInt8 :=
  if n < 0x80 then [UInt8.ofNat n]
  else if n < 0x100 then 0xcc :: bigEndian 1 n
  else if n < 0x10000 then 0xcd :: bigEndian 2 n
  else if n < 0x100000000 then 0xce :: bigEndian 4 n
  else 0xcf :: bigEndian 8 n

/-- A negative number is written as its two's complement in the fewest bytes that hold it. -/
def int (i : Int) : List UInt8 :=
  if 0 ≤ i then nat i.toNat
  else if -0x20 ≤ i then [UInt8.ofNat (i + 0x100).toNat]
  else if -0x80 ≤ i then 0xd0 :: bigEndian 1 (i + 0x100).toNat
  else if -0x8000 ≤ i then 0xd1 :: bigEndian 2 (i + 0x10000).toNat
  else if -0x80000000 ≤ i then 0xd2 :: bigEndian 4 (i + 0x100000000).toNat
  else 0xd3 :: bigEndian 8 (i + 0x10000000000000000).toNat

def text (s : String) : List UInt8 :=
  let bytes := Text.encodeUtf8 s
  let n := bytes.length
  (if n < 0x20 then [UInt8.ofNat (0xa0 + n)]
    else if n < 0x100 then 0xd9 :: bigEndian 1 n
    else if n < 0x10000 then 0xda :: bigEndian 2 n
    else 0xdb :: bigEndian 4 n) ++ bytes

def arrayHead (n : Nat) : List UInt8 :=
  if n < 0x10 then [UInt8.ofNat (0x90 + n)]
  else if n < 0x10000 then 0xdc :: bigEndian 2 n
  else 0xdd :: bigEndian 4 n

def mapHead (n : Nat) : List UInt8 :=
  if n < 0x10 then [UInt8.ofNat (0x80 + n)]
  else if n < 0x10000 then 0xde :: bigEndian 2 n
  else 0xdf :: bigEndian 4 n

def array {α : Type} (element : α → List UInt8) (xs : List α) : List UInt8 :=
  arrayHead xs.length ++ xs.flatMap element

def record (entries : List (String × List UInt8)) : List UInt8 :=
  mapHead entries.length ++ entries.flatMap fun entry ↦ text entry.1 ++ entry.2

end Write

end CoolTree.MessagePack
