import CoolTree.Grammar.Cool

/-!
# Flaws of a grammar definition

A definition makes a language when its tables fit together. What can be wrong with them, and how it
is put into words.
-/

namespace CoolTree.Grammar

inductive Flaw where
  | noName
  | tooManySymbols (count : Nat)
  | endNotFirst
  | duplicateSymbol (name : String)
  /-- A field without a name. Fields are counted from one. -/
  | unnamedField (number : Nat)
  | tooManyFields
  | duplicateField (name : String)
  | duplicateLevel (name : String)
  | unknownLevel (token level : String)
  | operatorWithoutSymbol (token : String)
  | unknownKind (name : String)
  deriving DecidableEq, Inhabited

namespace Flaw

def message : Flaw → String
  | noName => "grammar has no name"
  | tooManySymbols count => "too many symbols: " ++ toString count
  | endNotFirst => "symbol 0 must be `" ++ endSymbol ++ "`"
  | duplicateSymbol name => "duplicate symbol `" ++ name ++ "`"
  | unnamedField number => "field " ++ toString number ++ " has no name"
  | tooManyFields => "too many fields"
  | duplicateField name => "duplicate field `" ++ name ++ "`"
  | duplicateLevel name => "duplicate precedence level `" ++ name ++ "`"
  | unknownLevel token level =>
    "operator `" ++ token ++ "` uses unknown precedence level `" ++ level ++ "`"
  | operatorWithoutSymbol token => "operator `" ++ token ++ "` has no symbol"
  | unknownKind name => "extra or external `" ++ name ++ "` has no symbol"

end Flaw

end CoolTree.Grammar
