import CoolTree.Parse.Builder
import CoolTree.Parse.Levels

/-!
# Phrases

A phrase says what a construct is made of, part by part in reading order, and where a choice or a
repetition depends on the next tokens. Building a phrase makes its parts. Operands are left to a
function that parses an expression whose operators bind at least as tightly as a given strength.
-/

namespace CoolTree

inductive Bound where
  | assign
  | isvoid
  | negation
  | comp
  | rightOf (o : Operator)
  deriving DecidableEq, Inhabited

/-- The level above another one. Levels are words of 32 bits, and above the largest one is the
smallest one. -/
def Levels.above (strength : Int) : Int :=
  (Int32.ofInt strength + 1).toInt

/-- Operators that group to the left have only tighter ones in their right operand, unless their
level is the largest one. -/
def Levels.bound (v : Levels) : Bound → Int
  | .assign => v.assign
  | .isvoid => v.isvoid
  | .negation => v.negation
  | .comp => v.comp
  | .rightOf o =>
    match (v.operator o).associativity with
    | .left => above (v.operator o).strength
    | .right => (v.operator o).strength

theorem Levels.above_eq {strength : Int} (hmin : Int32.minValue.toInt ≤ strength)
    (hmax : strength < Int32.maxValue.toInt) : above strength = strength + 1 := by
  rw [Int32.toInt_minValue] at hmin
  rw [Int32.toInt_maxValue] at hmax
  have hone : (1 : Int32).toInt = 1 := by decide
  rw [above, Int32.toInt_add, hone, Int32.toInt_ofInt_of_le (by omega) (by omega)]
  exact Int.bmod_eq_of_le (by omega) (by omega)

/-- The level above that of an operator is one more, as it is unless the operator has the largest
level of all. -/
def Levels.Exact (v : Levels) : Prop :=
  ∀ o, above (v.operator o).strength = (v.operator o).strength + 1

theorem Language.exact_levels {l : Language}
    (hmax : ∀ o, (l.levels.operator o).strength < Int32.maxValue.toInt) : l.levels.Exact := by
  intro o
  obtain ⟨w, hw⟩ := l.exists_toInt_strength o
  exact Levels.above_eq (hw ▸ w.minValue_le_toInt) (hmax o)

inductive Phrase where
  | done
  /-- A terminal, mended if it is not there. -/
  | expect (t : Terminal) (next : Phrase)
  | take (field : Option Field) (next : Phrase)
  | word (field : Option Field) (slot : Slot) (next : Phrase)
  | literal (next : Phrase)
  | operand (field : Option Field) (bound : Bound) (next : Phrase)
  | node (field : Option Field) (kind : Kind) (body next : Phrase)
  | choose (test : Test) (yes no next : Phrase)
  /-- A part that is repeated as long as a test holds. -/
  | loop (test : Test) (body next : Phrase)
  /-- Tokens up to a class, as an error. -/
  | skip (stop : TokenClass) (next : Phrase)
  /-- An expression that should be here and is not. -/
  | absent (next : Phrase)
  deriving DecidableEq, Inhabited

namespace Phrase

/-- Makes the parts of a phrase, as children of a construct. -/
def build (levels : Levels) (expression : Int → Parsing Parcel) :
    Phrase → Builder → Parsing Builder
  | done, b => return b
  | expect t next, b => do build levels expression next (← b.expect t)
  | take field next, b => do build levels expression next (← b.take field)
  | word field slot next, b => do build levels expression next (← b.word field slot)
  | literal next, b => do build levels expression next (← b.literal)
  | operand field bound next, b => do
    let built ← expression (levels.bound bound)
    build levels expression next (b.push field built)
  | node field kind body next, b => do
    let inner ← build levels expression body {}
    build levels expression next (b.push field (← inner.finish kind false))
  | choose test yes no next, b => do
    let b ← if test.holds (← get).input then build levels expression yes b
      else build levels expression no b
    build levels expression next b
  | loop test body next, b => do
    build levels expression next (← b.repeatWhile test (build levels expression body))
  | skip stop next, b => do build levels expression next (← b.skip stop)
  | absent next, b => do build levels expression next (← b.absent)

end Phrase

end CoolTree
