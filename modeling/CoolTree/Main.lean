import CoolTree.Command.Run

/-!
# The program

Reads the files and the standard input that the command asks for, and prints what it answers. There
is no editor: the lines of the standard input are taken as they come.
-/

namespace CoolTree

/-- Why a file could not be read. -/
def readReason : IO.Error → String
  | .noFileOrDirectory .. => "No such file or directory (os error 2)"
  | .inappropriateType .. => "Is a directory (os error 21)"
  | e => toString e

/-- Reads a file or, for a hyphen, the standard input. -/
def readSource (name : String) : IO (String × Except Failure String) := do
  if name = "-" then
    return (name, .ok (← (← IO.getStdin).readToEnd))
  let failure (reason : String) : Failure := ⟨.inputOutput (name ++ ": " ++ reason), none⟩
  try
    match String.fromUTF8? (← IO.FS.readBinFile name) with
    | some text => return (name, .ok text)
    | none => return (name, .error (failure "stream did not contain valid UTF-8"))
  catch e => return (name, .error (failure (readReason e)))

def readEvents : IO (List Repl.Event) := do
  return ((← (← IO.getStdin).readToEnd).splitOn "\n").map .line

def runCommand (arguments : List String) : IO Command.Outcome := do
  match Command.plan ("cool-parse" :: arguments) with
  | .finish outcome => return outcome
  | .interact => return Command.interact (← readEvents)
  | .parse o => return Command.parseFiles o (← o.files.mapM readSource)

end CoolTree

def main (arguments : List String) : IO UInt32 := do
  let outcome ← CoolTree.runCommand arguments
  IO.print outcome.output
  IO.eprint outcome.diagnostics
  return UInt32.ofNat outcome.status
