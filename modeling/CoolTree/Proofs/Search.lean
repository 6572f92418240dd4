import CoolTree.Grammar.Language
import CoolTree.Proofs.Validity
import CoolTree.Parse.Levels

/-!
# Look-ups as searches

The indexes of a language hold numbers of two bytes, and the tables have no room for more. So each
look-up gives what a search of the table gives, and what a language lacks and how tightly its
operators bind can be read off its tables.
-/

namespace CoolTree

/-- A number of two bytes is read back from an index. -/
theorem map_toNat_ofNat {found : Option Nat} (h : ∀ n ∈ found, n ≤ 65535) :
    (found.map UInt16.ofNat).map UInt16.toNat = found := by
  cases found with
  | none => rfl
  | some n =>
      have hlt : n < UInt16.size := Nat.lt_succ_of_le (h n rfl)
      rw [Option.map_some, Option.map_some, UInt16.toNat_ofNat_of_lt' hlt]

namespace Grammar.Definition

variable {d : Definition}

theorem Valid.symbolNumber?_le (h : d.Valid) {name : String} {named : Bool} :
    ∀ n ∈ d.symbolNumber? name named, n ≤ 65535 := by
  intro n hn
  obtain ⟨i, hi, rfl⟩ := Option.map_eq_some_iff.mp hn
  obtain ⟨hlt, -⟩ := List.findIdx?_eq_some_iff_getElem.mp hi
  rw [List.length_tail] at hlt
  have hle := h.symbols_le
  omega

theorem Valid.fieldNumber?_le (h : d.Valid) {name : String} :
    ∀ n ∈ d.fieldNumber? name, n ≤ 65535 := by
  intro n hn
  obtain ⟨i, hi, rfl⟩ := Option.map_eq_some_iff.mp hn
  obtain ⟨hlt, -⟩ := List.findIdx?_eq_some_iff_getElem.mp hi
  exact Nat.le_trans hlt h.fields_le

end Grammar.Definition

namespace Language

theorem valid (l : Language) : l.definition.Valid :=
  Grammar.Definition.exists_indexes_iff.mp ⟨l.indexes, l.indexed⟩

theorem filled (l : Language) : l.definition.Filled l.indexes :=
  (Grammar.Definition.filled_of_indexes l.indexed).1

theorem kindNumber?_eq (l : Language) (name : String) (named : Bool) :
    l.kindNumber? name named = l.definition.symbolNumber? name named := by
  rw [kindNumber?, l.filled.kinds, map_toNat_ofNat l.valid.symbolNumber?_le]

theorem fieldNumber?_eq (l : Language) (name : String) :
    l.fieldNumber? name = l.definition.fieldNumber? name := by
  rw [fieldNumber?, l.filled.fields, map_toNat_ofNat l.valid.fieldNumber?_le]

theorem precedence?_eq (l : Language) (name : String) :
    l.precedence? name = l.definition.levelValue? name :=
  l.filled.levels name

theorem operator?_eq (l : Language) (token : String) :
    l.operator? token = l.definition.operatorInfo? token :=
  (Grammar.Definition.filled_of_indexes l.indexed).2 token

/-- What a language lacks shows in its tables. -/
theorem lack?_eq (l : Language) : l.lack? = Need.all.find? fun need ↦ !(match need with
    | .token k | .kind k => (l.definition.symbolNumber? k.name k.isNamed).isSome
    | .operator o => (l.definition.operatorInfo? o.spelling).isSome
    | .field f => (l.definition.fieldNumber? f.label).isSome
    | .level name => (l.definition.levelValue? name).isSome) := by
  rw [lack?]
  congr 1
  funext need
  cases need <;>
    simp only [Need.isMetBy, kindNumber?_eq, operator?_eq, fieldNumber?_eq, precedence?_eq]

end Language

end CoolTree
