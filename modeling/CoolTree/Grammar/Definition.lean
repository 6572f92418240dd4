/-!
# Grammar definitions

A grammar as data: the names of its node kinds and fields, its levels of binding strength, its
infix operators, and the names that are special for other reasons. The place of a symbol in the
symbol table is its number, and fields are numbered from one.
-/

namespace CoolTree.Grammar

inductive Associativity where
  | left
  | right
  deriving DecidableEq, Inhabited, Repr

structure SymbolEntry where
  name : String
  named : Bool
  visible : Bool
  deriving DecidableEq, Inhabited

namespace SymbolEntry

def ofKind (name : String) : SymbolEntry :=
  ⟨name, true, true⟩

def ofSpelling (text : String) : SymbolEntry :=
  ⟨text, false, true⟩

/-- The entry of a symbol that no syntax tree shows. -/
def hidden (name : String) (named : Bool) : SymbolEntry :=
  ⟨name, named, false⟩

end SymbolEntry

/-- A named binding strength. Higher values bind tighter. -/
structure Level where
  name : String
  value : Int32
  deriving DecidableEq, Inhabited

structure OperatorEntry where
  token : String
  level : String
  associativity : Associativity
  deriving DecidableEq, Inhabited

structure Definition where
  name : String
  symbols : List SymbolEntry
  fields : List String
  levels : List Level
  operators : List OperatorEntry
  primitiveTypes : List String
  /-- Node kinds that may stand between any two tokens. -/
  extras : List String
  /-- Node kinds that are cut out of a string literal. -/
  externals : List String
  deriving DecidableEq, Inhabited

end CoolTree.Grammar
