import CoolTree.Command.Batch

/-!
# Running the command

The command answers its arguments with what it prints and an exit status. Without files it answers
what an editor gives it. How files are read and how an editor makes events of what is typed is left
to the system around the command.
-/

namespace CoolTree.Command

structure Outcome where
  status : Nat
  output : String
  diagnostics : String
  deriving DecidableEq, Inhabited

namespace Outcome

def success (output : String) : Outcome :=
  ⟨0, output, ""⟩

/-- The outcome when nothing but a message can be given. -/
def failure (output diagnostics message : String) : Outcome :=
  ⟨1, output, diagnostics ++ Repl.red ("Error: " ++ message)⟩

end Outcome

def printed (actions : List Repl.Action) : String :=
  String.join (actions.filterMap fun | .print text => some text | _ => none)

def printedErrors (actions : List Repl.Action) : String :=
  String.join (actions.filterMap fun | .printError text => some text | _ => none)

def interact (events : List Repl.Event) : Outcome :=
  let actions := Repl.session Language.cool {} events
  ⟨0, printed actions, printedErrors actions⟩

/-- Parses files. With a check, problems make the command fail. -/
def parseFiles (o : Options) (sources : List (String × Except Failure String)) : Outcome :=
  match Batch.run o ⟨.ofRoom none, .ofRoom none⟩ {} sources with
  | (sinks, .error f) => .failure sinks.output.text sinks.diagnostics.text f.message
  | (sinks, .ok summary) =>
    if o.check && !summary.isClean then
      ⟨1, sinks.output.text, sinks.diagnostics.text ++ summary.message⟩
    else ⟨0, sinks.output.text, sinks.diagnostics.text⟩

inductive Plan where
  | finish (outcome : Outcome)
  | interact
  | parse (o : Options)

/-- What the arguments ask for. The first one is the name of the program. -/
def plan (arguments : List String) : Plan :=
  match Options.ofArguments arguments with
  | .error unknown => .finish (.failure "" "" unknown.message)
  | .ok o =>
    if o.help then .finish (.success (helpText ++ "\n"))
    else if o.version then .finish (.success (versionText ++ "\n"))
    else if o.files.isEmpty then .interact
    else .parse o

/-- Runs the command on files that `read` finds and on the events of an editor. -/
def run (arguments : List String) (read : String → Except String String) (standardInput : String)
    (events : List Repl.Event) : Outcome :=
  match plan arguments with
  | .finish outcome => outcome
  | .interact => interact events
  | .parse o => parseFiles o (Batch.sources read standardInput o.files)

end CoolTree.Command
