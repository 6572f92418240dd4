import CoolTree.MessagePack.Reader
import CoolTree.MessagePack.Writer
import Mathlib.Data.List.Forall2
import Mathlib.Data.List.Nodup
import Mathlib.Tactic.Ring

/-!
# Written values are read back

What is written in MessagePack is read as one value, whatever bytes follow, and those are left to
the next reader. Bytes convey an element of a type when a decoder makes it of the value that is read
from them. Lists and records convey what their parts convey. No length may need more than the four
bytes that the longest format has for it, and that is asked of the written bytes as a whole.
-/

namespace CoolTree

theorem Text.encodeUtf8_injective : Function.Injective Text.encodeUtf8 := by
  intro s t h
  have hdecode := congrArg Text.decodeUtf8? h
  rw [Text.decodeUtf8?_encodeUtf8, Text.decodeUtf8?_encodeUtf8] at hdecode
  exact Option.some.inj hdecode

namespace MessagePack

theorem length_bigEndian (count n : Nat) : (bigEndian count n).length = count := by
  induction count with
  | zero => rfl
  | succ count ih => rw [bigEndian, List.length_cons, ih]

/-- Reading goes on from the number read so far, whose digits come first. -/
theorem foldl_bigEndian (count n start : Nat) :
    (bigEndian count n).foldl (fun n b ↦ n * 256 + b.toNat) start =
      start * 256 ^ count + n % 256 ^ count := by
  induction count generalizing start with
  | zero => simp [bigEndian, Nat.mod_one]
  | succ count ih =>
      have hdigit : (UInt8.ofNat (n / 256 ^ count)).toNat = n / 256 ^ count % 256 := by
        rw [UInt8.toNat_ofNat']
      rw [bigEndian, Nat.pow_eq, List.foldl_cons, ih, hdigit, Nat.pow_succ, Nat.mod_mul]
      ring

namespace Read

theorem bytesOnto_append (read bytes rest : List UInt8) :
    bytesOnto read bytes.length (bytes ++ rest) = some (read.reverse ++ bytes, rest) := by
  induction bytes generalizing read with
  | nil => simp [bytesOnto]
  | cons b bytes ih =>
      rw [List.length_cons, List.cons_append, bytesOnto, ih]
      simp

theorem bytes_append {n : Nat} {xs : List UInt8} (h : xs.length = n) (rest : List UInt8) :
    bytes n (xs ++ rest) = some (xs, rest) := by
  rw [bytes, ← h, bytesOnto_append, List.reverse_nil, List.nil_append]

theorem natural_bigEndian {width n : Nat} (h : n < 256 ^ width) (rest : List UInt8) :
    natural width (bigEndian width n ++ rest) = some (n, rest) := by
  simp [natural, bytes_append (length_bigEndian width n), foldl_bigEndian, Nat.mod_eq_of_lt h]

/-- A number below zero is written as its two's complement. -/
theorem integer_bigEndian {width n : Nat} {i : Int} (hn : (n : Int) = i + (256 ^ width : Nat))
    (hlow : -(256 ^ width : Nat) ≤ 2 * i) (hneg : i < 0) (rest : List UInt8) :
    integer width (bigEndian width n ++ rest) = some (i, rest) := by
  have hbound : n < 256 ^ width := by omega
  have hhalf : ¬ 2 * n < 256 ^ width := by omega
  have hvalue : (n : Int) - (256 ^ width : Nat) = i := by omega
  unfold integer
  rw [natural_bigEndian hbound, Option.bind_eq_bind, Option.bind_some]
  dsimp only
  rw [Nat.pow_eq, if_neg hhalf, hvalue]
  rfl

theorem counted_bigEndian {width : Nat} {xs : List UInt8} (h : xs.length < 256 ^ width)
    (rest : List UInt8) :
    counted width (bigEndian width xs.length ++ (xs ++ rest)) = some (xs, rest) := by
  simp [counted, natural_bigEndian h, bytes_append]

theorem manyOnto_flatMap {α β : Type} {step : Step β} {write : α → List UInt8} {xs : List α}
    {ys : List β}
    (h : List.Forall₂ (fun x y ↦ ∀ rest, step (write x ++ rest) = some (y, rest)) xs ys)
    (read : List β) (rest : List UInt8) :
    manyOnto step read xs.length (xs.flatMap write ++ rest) = some (read.reverse ++ ys, rest) := by
  induction h generalizing read with
  | nil => simp [manyOnto]
  | @cons x y xs ys hx _ ih =>
      rw [List.length_cons, List.flatMap_cons, List.append_assoc, manyOnto, hx]
      dsimp only
      rw [ih, List.reverse_cons, List.append_assoc, List.singleton_append]

theorem many_flatMap {α β : Type} {step : Step β} {write : α → List UInt8} {xs : List α}
    {ys : List β}
    (h : List.Forall₂ (fun x y ↦ ∀ rest, step (write x ++ rest) = some (y, rest)) xs ys)
    (rest : List UInt8) : many step xs.length (xs.flatMap write ++ rest) = some (ys, rest) := by
  rw [many, manyOnto_flatMap h, List.reverse_nil, List.nil_append]

theorem value_nil (depth : Nat) : value depth [] = none := by
  cases depth <;> rfl

theorem value_scalar {head : UInt8} {n : Nat} (hn : head.toNat = n) (h : container? n = none)
    (depth : Nat) (rest : List UInt8) : value depth (head :: rest) = scalar n rest := by
  subst hn
  cases depth <;> simp [value, h]

theorem value_array (head : UInt8) {count : Step Nat} {n depth : Nat} {rest rest' : List UInt8}
    (h : container? head.toNat = some (.array, count)) (hcount : count rest = some (n, rest')) :
    value (depth + 1) (head :: rest) = mapped .array (many (value depth) n) rest' := by
  simp [value, h, hcount]

theorem value_map (head : UInt8) {count : Step Nat} {n depth : Nat} {rest rest' : List UInt8}
    (h : container? head.toNat = some (.map, count)) (hcount : count rest = some (n, rest')) :
    value (depth + 1) (head :: rest) = mapped .map (many (pair (value depth)) n) rest' := by
  simp [value, h, hcount]

/-- The bytes that open no container: small numbers, short texts, and numbers a little below
zero. -/
theorem container?_eq_none {n : Nat} (h : n < 0x80 ∨ 0xa0 ≤ n ∧ n < 0xc0 ∨ 0xe0 ≤ n) :
    container? n = none := by
  unfold container?
  rw [if_neg (by omega), if_neg (by omega)]
  split <;> first | omega | rfl

/-- The first byte of a small number is the number. -/
theorem scalar_of_lt {n : Nat} (h : n < 0x80) (rest : List UInt8) :
    scalar n rest = some (.nat n, rest) := by
  unfold scalar
  rw [if_pos h]

theorem scalar_text {n : Nat} (h : n < 0x20) : scalar (0xa0 + n) = mapped .text (bytes n) := by
  unfold scalar
  rw [if_neg (by omega), if_pos (by omega), Nat.add_sub_cancel_left]

theorem scalar_of_ge {n : Nat} (h : 0xe0 ≤ n) (rest : List UInt8) :
    scalar n rest = some (.int ((n : Int) - 0x100), rest) := by
  unfold scalar
  rw [if_neg (by omega), if_neg (by omega), if_pos h]

end Read

theorem toNat_ofNat_of_lt {n : Nat} (h : n < 0x100) : (UInt8.ofNat n).toNat = n := by
  rw [UInt8.toNat_ofNat']
  exact Nat.mod_eq_of_lt h

/-- Bytes that are read as a value, whatever follows them. -/
def Represents (depth : Nat) (bytes : List UInt8) (v : Value) : Prop :=
  ∀ rest, Read.value depth (bytes ++ rest) = some (v, rest)

/-- Nothing is read from no bytes. -/
theorem Represents.ne_nil {depth : Nat} {bytes : List UInt8} {v : Value}
    (h : Represents depth bytes v) : bytes ≠ [] := by
  rintro rfl
  have hread := h []
  rw [List.append_nil, Read.value_nil] at hread
  contradiction

namespace Write

open Read

theorem represents_bool (depth : Nat) (b : Bool) : Represents depth (bool b) (.bool b) := by
  intro rest
  cases b
  · exact value_scalar (n := 0xc2) rfl rfl depth rest
  · exact value_scalar (n := 0xc3) rfl rfl depth rest

theorem represents_nat (depth : Nat) {n : Nat} (h : n < 256 ^ 8) :
    Represents depth (nat n) (.nat n) := by
  intro rest
  unfold nat
  split_ifs with h1 h2 h3 h4
  · rw [List.singleton_append,
      value_scalar (toNat_ofNat_of_lt (by omega)) (container?_eq_none (.inl h1)), scalar_of_lt h1]
  · rw [List.cons_append, value_scalar (n := 0xcc) rfl rfl]
    exact congrArg (Option.map _) (natural_bigEndian h2 rest)
  · rw [List.cons_append, value_scalar (n := 0xcd) rfl rfl]
    exact congrArg (Option.map _) (natural_bigEndian h3 rest)
  · rw [List.cons_append, value_scalar (n := 0xce) rfl rfl]
    exact congrArg (Option.map _) (natural_bigEndian h4 rest)
  · rw [List.cons_append, value_scalar (n := 0xcf) rfl rfl]
    exact congrArg (Option.map _) (natural_bigEndian h rest)

theorem represents_int_of_neg (depth : Nat) {i : Int} (hneg : i < 0)
    (h : -0x8000000000000000 ≤ i) : Represents depth (int i) (.int i) := by
  intro rest
  unfold int
  rw [if_neg (by omega)]
  split_ifs with h1 h2 h3 h4
  · have hhead : (UInt8.ofNat (i + 0x100).toNat).toNat = (i + 0x100).toNat :=
      toNat_ofNat_of_lt (by omega)
    have hvalue : ((i + 0x100).toNat : Int) - 0x100 = i := by omega
    rw [List.singleton_append,
      value_scalar hhead (container?_eq_none (.inr (.inr (by omega)))),
      scalar_of_ge (by omega), hvalue]
  · rw [List.cons_append, value_scalar (n := 0xd0) rfl rfl]
    refine congrArg (Option.map _) (integer_bigEndian ?_ ?_ hneg rest) <;> omega
  · rw [List.cons_append, value_scalar (n := 0xd1) rfl rfl]
    refine congrArg (Option.map _) (integer_bigEndian ?_ ?_ hneg rest) <;> omega
  · rw [List.cons_append, value_scalar (n := 0xd2) rfl rfl]
    refine congrArg (Option.map _) (integer_bigEndian ?_ ?_ hneg rest) <;> omega
  · rw [List.cons_append, value_scalar (n := 0xd3) rfl rfl]
    refine congrArg (Option.map _) (integer_bigEndian ?_ ?_ hneg rest) <;> omega

theorem length_encodeUtf8_le (s : String) : (Text.encodeUtf8 s).length ≤ (text s).length := by
  rw [text, List.length_append]
  exact Nat.le_add_left _ _

theorem represents_text (depth : Nat) {s : String} (h : (text s).length < 256 ^ 4) :
    Represents depth (text s) (.text (Text.encodeUtf8 s)) := by
  intro rest
  have hlength : (Text.encodeUtf8 s).length < 256 ^ 4 := (length_encodeUtf8_le s).trans_lt h
  rw [text, List.append_assoc]
  split_ifs with h1 h2 h3
  · rw [List.singleton_append, value_scalar (toNat_ofNat_of_lt (by omega))
      (container?_eq_none (.inr (.inl (by omega)))), scalar_text h1]
    exact congrArg (Option.map _) (bytes_append rfl rest)
  · rw [List.cons_append, value_scalar (n := 0xd9) rfl rfl]
    exact congrArg (Option.map _) (counted_bigEndian h2 rest)
  · rw [List.cons_append, value_scalar (n := 0xda) rfl rfl]
    exact congrArg (Option.map _) (counted_bigEndian h3 rest)
  · rw [List.cons_append, value_scalar (n := 0xdb) rfl rfl]
    exact congrArg (Option.map _) (counted_bigEndian hlength rest)

theorem value_arrayHead (depth : Nat) {n : Nat} (h : n < 256 ^ 4) (rest : List UInt8) :
    value (depth + 1) (arrayHead n ++ rest) = mapped .array (many (value depth) n) rest := by
  unfold arrayHead
  split_ifs with h1 h2
  · have hhead : (UInt8.ofNat (0x90 + n)).toNat = 0x90 + n := toNat_ofNat_of_lt (by omega)
    have hopen : container? (UInt8.ofNat (0x90 + n)).toNat =
        some (.array, fun rest ↦ some (n, rest)) := by
      unfold container?
      rw [hhead, if_neg (by omega), if_pos (by omega), Nat.add_sub_cancel_left]
    rw [List.singleton_append, value_array _ hopen rfl]
  · exact value_array 0xdc rfl (natural_bigEndian h2 rest)
  · exact value_array 0xdd rfl (natural_bigEndian h rest)

theorem value_mapHead (depth : Nat) {n : Nat} (h : n < 256 ^ 4) (rest : List UInt8) :
    value (depth + 1) (mapHead n ++ rest) = mapped .map (many (pair (value depth)) n) rest := by
  unfold mapHead
  split_ifs with h1 h2
  · have hhead : (UInt8.ofNat (0x80 + n)).toNat = 0x80 + n := toNat_ofNat_of_lt (by omega)
    have hopen : container? (UInt8.ofNat (0x80 + n)).toNat =
        some (.map, fun rest ↦ some (n, rest)) := by
      unfold container?
      rw [hhead, if_pos (by omega), Nat.add_sub_cancel_left]
    rw [List.singleton_append, value_map _ hopen rfl]
  · exact value_map 0xde rfl (natural_bigEndian h2 rest)
  · exact value_map 0xdf rfl (natural_bigEndian h rest)

theorem represents_array {α : Type} {depth : Nat} {write : α → List UInt8} {xs : List α}
    {vs : List Value} (hcount : xs.length < 256 ^ 4)
    (h : List.Forall₂ (fun x v ↦ Represents depth (write x) v) xs vs) :
    Represents (depth + 1) (array write xs) (.array vs) := by
  intro rest
  rw [array, List.append_assoc, value_arrayHead depth hcount, mapped, many_flatMap h]
  rfl

/-- The value a record is read as: its entries in order, each under its name. -/
def recordValue (names : List String) (vs : List Value) : Value :=
  .map (List.zipWith (fun name v ↦ (.text (Text.encodeUtf8 name), v)) names vs)

theorem represents_record {depth : Nat} {entries : List (String × List UInt8)} {vs : List Value}
    (hcount : entries.length < 256 ^ 4)
    (hnames : ∀ entry ∈ entries, (text entry.1).length < 256 ^ 4)
    (h : List.Forall₂ (fun entry v ↦ Represents depth entry.2 v) entries vs) :
    Represents (depth + 1) (record entries) (recordValue (entries.map Prod.fst) vs) := by
  have hpairs : List.Forall₂ (fun entry kv ↦ ∀ rest,
        pair (value depth) (text entry.1 ++ entry.2 ++ rest) = some (kv, rest)) entries
      (List.zipWith (fun name v ↦ (.text (Text.encodeUtf8 name), v))
        (entries.map Prod.fst) vs) := by
    clear hcount
    induction h with
    | nil => exact .nil
    | @cons entry v entries vs hentry _ ih =>
        obtain ⟨hname, hrest⟩ := List.forall_mem_cons.mp hnames
        refine .cons (fun rest ↦ ?_) (ih hrest)
        simp only [pair]
        rw [List.append_assoc, represents_text depth hname]
        simp [hentry rest]
  intro rest
  rw [record, List.append_assoc, value_mapHead depth hcount, mapped, many_flatMap hpairs]
  rfl

end Write

end MessagePack

end CoolTree
