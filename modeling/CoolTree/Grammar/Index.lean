import CoolTree.Grammar.Flaw
import Std.Data.HashMap

/-!
# Indexes of a grammar definition

Kinds, fields, levels and operators are found by their names in indexes. The indexes are filled
table by table, in the order in which the tables are declared, and whether the tables fit together
shows on the way: the first flaw found is the one reported.
-/

namespace CoolTree.Grammar

/-- What is known about an infix operator. -/
structure OperatorInfo where
  symbol : UInt16
  precedence : Int32
  associativity : Associativity
  deriving DecidableEq, Inhabited

structure Indexes where
  named : Std.HashMap String UInt16 := ∅
  anonymous : Std.HashMap String UInt16 := ∅
  fields : Std.HashMap String UInt16 := ∅
  levels : Std.HashMap String Int32 := ∅
  operators : Std.HashMap String OperatorInfo := ∅

/-- The largest number of a symbol or a field. -/
def lastNumber : Nat :=
  65535

namespace Indexes

/-- The index of the kinds that have a name of their own, or that of the others. -/
def kinds (x : Indexes) (named : Bool) : Std.HashMap String UInt16 :=
  if named then x.named else x.anonymous

/-- Adds a symbol with its number, which is cut down to two bytes. -/
def addSymbol (x : Indexes) (entry : SymbolEntry × Nat) : Except Flaw Indexes :=
  let (s, number) := entry
  if (x.kinds s.named).contains s.name then .error (.duplicateSymbol s.name)
  else
    let index := (x.kinds s.named).insert s.name (UInt16.ofNat number)
    .ok (if s.named then { x with named := index } else { x with anonymous := index })

/-- Adds a field by its place in the table. Numbers of fields begin with one. -/
def addField (x : Indexes) (entry : String × Nat) : Except Flaw Indexes :=
  let (name, place) := entry
  let number := place + 1
  if name = "" then .error (.unnamedField number)
  else if lastNumber < number then .error .tooManyFields
  else if x.fields.contains name then .error (.duplicateField name)
  else .ok { x with fields := x.fields.insert name (UInt16.ofNat number) }

def addLevel (x : Indexes) (l : Level) : Except Flaw Indexes :=
  if x.levels.contains l.name then .error (.duplicateLevel l.name)
  else .ok { x with levels := x.levels.insert l.name l.value }

/-- Adds an operator in place of an earlier one for the same token. -/
def addOperator (x : Indexes) (o : OperatorEntry) : Except Flaw Indexes :=
  match x.levels[o.level]? with
  | none => .error (.unknownLevel o.token o.level)
  | some precedence =>
    match x.anonymous[o.token]? with
    | none => .error (.operatorWithoutSymbol o.token)
    | some symbol =>
      let info := ⟨symbol, precedence, o.associativity⟩
      .ok { x with operators := x.operators.insert o.token info }

def checkKind (x : Indexes) (name : String) : Except Flaw Unit :=
  if x.named.contains name then .ok () else .error (.unknownKind name)

end Indexes

namespace Definition

/-- The indexes of a definition. Symbol zero, the end of input, is not found by its name. -/
def indexes (d : Definition) : Except Flaw Indexes :=
  if d.name = "" then .error .noName
  else if lastNumber < d.symbols.length then .error (.tooManySymbols d.symbols.length)
  else if d.symbols.head?.map (·.name) ≠ some endSymbol then .error .endNotFirst
  else do
    let x ← (d.symbols.zipIdx.drop 1).foldlM Indexes.addSymbol {}
    let x ← d.fields.zipIdx.foldlM Indexes.addField x
    let x ← d.levels.foldlM Indexes.addLevel x
    let x ← d.operators.foldlM Indexes.addOperator x
    (d.extras ++ d.externals).forM x.checkKind
    return x

/-- The first flaw of a definition. -/
def flaw? (d : Definition) : Option Flaw :=
  match d.indexes with
  | .ok _ => none
  | .error flaw => some flaw

theorem flaw?_eq_none_iff_indexes {d : Definition} :
    d.flaw? = none ↔ ∃ x, d.indexes = .ok x := by
  unfold flaw?
  cases d.indexes <;> simp

end Definition

end CoolTree.Grammar
