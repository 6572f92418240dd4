import CoolTree.Grammar.Definition
import CoolTree.Tree.Kind

/-!
# The grammar of Cool

Numbers follow the order of the tables: the end of input is symbol zero, then come the named
kinds, the reserved words and the punctuation, and the error kind closes the table.
-/

namespace CoolTree.Grammar

/-- The symbol that stands for the end of input and has number zero. -/
def endSymbol : String :=
  "end"

/-- A hidden symbol that marks the places where errors are mended. -/
def errorSentinel : String :=
  "_error_sentinel"

def primitiveTypeNames : List String :=
  ["Bool", "Int", "IO", "Object", "String", "SELF_TYPE"]

namespace Definition

/-- The binding strengths of Cool, the tightest first. -/
def coolLevels : List Level :=
  [⟨"call", 8⟩, ⟨"super", 7⟩, ⟨"comp", 6⟩, ⟨"isvoid", 5⟩, ⟨"multiplicative", 4⟩, ⟨"additive", 3⟩,
    ⟨"comparative", 2⟩, ⟨"negation", 1⟩, ⟨"assign", 0⟩]

def coolLevel : Operator → String
  | .lessEqual | .less | .equal => "comparative"
  | .plus | .minus => "additive"
  | .times | .divide => "multiplicative"

def cool : Definition where
  name := "cool"
  symbols :=
    .hidden endSymbol false ::
      (Kind.named.dropLast.map fun k ↦ .ofKind k.name) ++
      (Kind.anonymous.map fun k ↦ .ofSpelling k.name) ++
      [.hidden errorSentinel true, .ofKind Kind.error.name]
  fields := Field.all.map Field.label
  levels := coolLevels
  operators := Operator.all.map fun o ↦ ⟨o.spelling, coolLevel o, .left⟩
  primitiveTypes := primitiveTypeNames
  extras := [Kind.inlineComment.name, Kind.blockComment.name]
  externals := [Kind.stringContent.name, errorSentinel]

end Definition

end CoolTree.Grammar
