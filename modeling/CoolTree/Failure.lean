/-!
# Failures

What can go wrong with a grammar, a source text or the files around it. Every failure carries the
text that tells one case from another, and may carry the place it belongs to.
-/

namespace CoolTree

/-- Where a failure belongs: a source by name, and a line and a column in it. -/
structure Place where
  source : Option String := none
  line : Option Nat := none
  column : Option Nat := none
  deriving DecidableEq, Inhabited

namespace Place

/-- A line and a column are shown only together, and only behind a source. -/
def display (p : Place) : String :=
  match p.source with
  | none => ""
  | some source =>
    match p.line, p.column with
    | some line, some column =>
      "at " ++ source ++ ":" ++ toString line ++ ":" ++ toString column
    | _, _ => "at " ++ source

end Place

inductive Cause where
  | languageLoad (reason : String)
  | incompatibleLanguage (reason : String)
  /-- A source text is not a program. The line and the column count from one. -/
  | syntaxError (message : String) (line column : Nat) (context : String)
  | serialization (reason : String)
  | inputOutput (reason : String)
  | internal (reason : String)
  deriving DecidableEq, Inhabited

namespace Cause

def message : Cause → String
  | languageLoad reason => "failed to load grammar: " ++ reason
  | incompatibleLanguage reason => "incompatible language: " ++ reason
  | syntaxError message line column _ =>
    "parse error at " ++ toString line ++ ":" ++ toString column ++ ": " ++ message
  | serialization reason => "serialization error: " ++ reason
  | inputOutput reason => "io error: " ++ reason
  | internal reason => "internal error: " ++ reason

end Cause

structure Failure where
  cause : Cause
  place : Option Place := none
  deriving DecidableEq, Inhabited

namespace Failure

def message (f : Failure) : String :=
  f.cause.message

end Failure

end CoolTree
