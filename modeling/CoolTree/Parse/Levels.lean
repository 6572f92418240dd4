import CoolTree.Grammar.Language

/-!
# Levels

What parsing takes from a language are binding strengths. A language can be parsed with when it
names all tokens, operators, node kinds, fields and levels that occur in syntax trees of Cool;
otherwise the first one it lacks is reported.
-/

namespace CoolTree

inductive Need where
  | token (k : Kind)
  | operator (o : Operator)
  | kind (k : Kind)
  | field (f : Field)
  | level (name : String)
  deriving DecidableEq, Inhabited

namespace Need

def message : Need → String
  | token k => "missing token `" ++ k.name ++ "`"
  | operator o => "missing binary operator `" ++ o.spelling ++ "`"
  | kind k => "missing node kind `" ++ k.name ++ "`"
  | field f => "missing field `" ++ f.label ++ "`"
  | level name => "missing precedence level `" ++ name ++ "`"

def toFailure (n : Need) : Failure :=
  ⟨.incompatibleLanguage n.message, none⟩

def levelNames : List String :=
  ["call", "super", "comp", "isvoid", "negation", "assign"]

/-- All needs, in the order in which they are checked. -/
def all : List Need :=
  Kind.anonymous.map token ++ Operator.all.map operator ++ Kind.named.map kind ++
    Field.all.map field ++ levelNames.map level

def isMetBy (l : Language) : Need → Bool
  | token k | kind k => (l.kindNumber? k.name k.isNamed).isSome
  | operator o => (l.operator? o.spelling).isSome
  | field f => (l.fieldNumber? f.label).isSome
  | level name => (l.precedence? name).isSome

end Need

structure Binding where
  strength : Int
  associativity : Grammar.Associativity
  deriving DecidableEq, Inhabited

structure Levels where
  call : Int
  super : Int
  comp : Int
  isvoid : Int
  negation : Int
  assign : Int
  lessEqual : Binding
  less : Binding
  equal : Binding
  plus : Binding
  minus : Binding
  times : Binding
  divide : Binding
  deriving DecidableEq, Inhabited

namespace Levels

def operator (v : Levels) : Operator → Binding
  | .lessEqual => v.lessEqual
  | .less => v.less
  | .equal => v.equal
  | .plus => v.plus
  | .minus => v.minus
  | .times => v.times
  | .divide => v.divide

end Levels

namespace Language

/-- The first need of parsing that a language does not meet. -/
def lack? (l : Language) : Option Need :=
  Need.all.find? fun need ↦ !need.isMetBy l

def binding (l : Language) (o : Operator) : Binding :=
  match l.operator? o.spelling with
  | some info => ⟨info.precedence.toInt, info.associativity⟩
  | none => default

/-- The levels of a language. They mean something only when nothing is lacking. -/
def levels (l : Language) : Levels :=
  let level name := ((l.precedence? name).getD 0).toInt
  { call := level "call"
    super := level "super"
    comp := level "comp"
    isvoid := level "isvoid"
    negation := level "negation"
    assign := level "assign"
    lessEqual := l.binding .lessEqual
    less := l.binding .less
    equal := l.binding .equal
    plus := l.binding .plus
    minus := l.binding .minus
    times := l.binding .times
    divide := l.binding .divide }

theorem operator_levels (l : Language) (o : Operator) : l.levels.operator o = l.binding o := by
  cases o <;> rfl

/-- The strengths of operators are words of 32 bits. -/
theorem exists_toInt_strength (l : Language) (o : Operator) :
    ∃ w : Int32, (l.levels.operator o).strength = w.toInt := by
  rw [operator_levels, binding]
  cases l.operator? o.spelling with
  | none => exact ⟨0, rfl⟩
  | some info => exact ⟨info.precedence, rfl⟩

/-- The number a node kind has in a language that lacks nothing. -/
def numberOf (l : Language) (k : Kind) : Nat :=
  (l.kindNumber? k.name k.isNamed).getD 0

end Language

end CoolTree
