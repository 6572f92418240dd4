import CoolTree.Command.Options
import CoolTree.Command.Sink
import CoolTree.Grammar.Packaged

/-!
# Batches

A batch parses files one after the other. How a file is read is left to the system: it gives a text
or the reason why there is none. For each file the tree or the tokens are written to one sink and
the problems to another. The batch stops at the first file that cannot be read and at the first byte
that does not fit.
-/

namespace CoolTree

inductive Channel where
  | output
  | diagnostics
  deriving DecidableEq, Inhabited

structure Sinks where
  output : Sink
  diagnostics : Sink

namespace Sinks

/-- Writes lines until one does not fit, and says whether all of them did. -/
def write : Sinks → List (Channel × String) → Sinks × Bool
  | sinks, [] => (sinks, true)
  | ⟨output, diagnostics⟩, (.output, text) :: rest =>
    match output.write text with
    | (output, true) => write ⟨output, diagnostics⟩ rest
    | (output, false) => (⟨output, diagnostics⟩, false)
  | ⟨output, diagnostics⟩, (.diagnostics, text) :: rest =>
    match diagnostics.write text with
    | (diagnostics, true) => write ⟨output, diagnostics⟩ rest
    | (diagnostics, false) => (⟨output, diagnostics⟩, false)

end Sinks

structure Summary where
  files : Nat := 0
  filesWithErrors : Nat := 0
  errors : Nat := 0
  deriving DecidableEq, Inhabited

namespace Summary

def isClean (s : Summary) : Bool :=
  s.errors == 0

def add (s : Summary) (errors : Nat) : Summary where
  files := s.files + 1
  filesWithErrors := s.filesWithErrors + if errors > 0 then 1 else 0
  errors := s.errors + errors

def message (s : Summary) : String :=
  toString s.errors ++ " syntax error(s) in " ++ toString s.filesWithErrors ++ " of " ++
    toString s.files ++ " file(s)\n"

end Summary

namespace Batch

def tokenLine (t : Token) : String :=
  t.start.point.display ++ " - " ++ t.stop.point.display ++ "  " ++ t.kind.description ++ "  " ++
    Text.quoteString (String.ofList t.text) ++ "\n"

/-- What is written about one file: its tokens or its tree, and then its problems. -/
def report (o : Options) (name source : String) (tree : Tree) : List (Channel × String) :=
  if o.quiet then []
  else
    (if o.tokens then (Token.ofSource source.toList).map fun t ↦ (.output, tokenLine t)
      else [(.output, tree.root.sexp ++ "\n")]) ++
    tree.errors.map fun e ↦ (.diagnostics, name ++ ":" ++ e.display ++ "\n")

/-- Parses one source and writes the report on it. The answer is the number of its problems. -/
def process (o : Options) (sinks : Sinks) (name source : String) : Sinks × Except Failure Nat :=
  let tree := Tree.parse Language.cool {} source
  match sinks.write (report o name source tree) with
  | (sinks, true) => (sinks, .ok tree.errors.length)
  | (sinks, false) => (sinks, .error ⟨.inputOutput Sink.fullReason, none⟩)

/-- Processes files, each with its source or the reason why it cannot be read, and goes on with a
summary. -/
def run (o : Options) (sinks : Sinks) (summary : Summary) :
    List (String × Except Failure String) → Sinks × Except Failure Summary
  | [] => (sinks, .ok summary)
  | (_, .error failure) :: _ => (sinks, .error failure)
  | (name, .ok source) :: rest =>
    match process o sinks name source with
    | (sinks, .error failure) => (sinks, .error failure)
    | (sinks, .ok errors) => run o sinks (summary.add errors) rest

/-- The sources with the given names, a hyphen standing for the standard input. Of that nothing is
left once it has been read. -/
def sources (read : String → Except String String) (standardInput : String) :
    List String → List (String × Except Failure String)
  | [] => []
  | name :: rest =>
    if name = "-" then (name, .ok standardInput) :: sources read "" rest
    else
      let source := match read name with
        | .ok text => .ok text
        | .error reason => .error ⟨.inputOutput (name ++ ": " ++ reason), none⟩
      (name, source) :: sources read standardInput rest

end Batch

end CoolTree
