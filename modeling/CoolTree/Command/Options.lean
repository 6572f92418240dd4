import CoolTree.Console.Repl

/-!
# Command-line options

Arguments are options or names of files, in any order. A lone hyphen is the name of the standard
input.
-/

namespace CoolTree

structure Options where
  files : List String := []
  help : Bool := false
  version : Bool := false
  /-- Tokens are shown in place of trees. -/
  tokens : Bool := false
  quiet : Bool := false
  /-- Syntax errors make the program fail. -/
  check : Bool := false
  deriving DecidableEq, Inhabited

structure UnknownOption where
  option : String
  deriving DecidableEq, Inhabited

namespace UnknownOption

def message (u : UnknownOption) : String :=
  "unknown option: " ++ u.option

end UnknownOption

namespace Options

def add (o : Options) (argument : String) : Except UnknownOption Options :=
  match argument with
  | "-h" | "--help" => .ok { o with help := true }
  | "-V" | "--version" => .ok { o with version := true }
  | "--tokens" => .ok { o with tokens := true }
  | "-q" | "--quiet" => .ok { o with quiet := true }
  | "--check" => .ok { o with check := true }
  | _ =>
    if argument ≠ "-" ∧ argument.toList.head? = some '-' then .error ⟨argument⟩
    else .ok { o with files := o.files ++ [argument] }

/-- The options in arguments, the first of which is the name of the program. -/
def ofArguments (arguments : List String) : Except UnknownOption Options :=
  arguments.tail.foldlM add {}

end Options

namespace Command

def versionText : String :=
  "cool-parse " ++ Repl.version

def helpText : String :=
  "\x1b[1mcool-parse\x1b[0m " ++ Repl.version ++ " - Parse Cool source into syntax trees\n" ++
  "\n" ++
  "\x1b[1mUSAGE:\x1b[0m\n" ++
  "    cool-parse [OPTIONS] [FILES...]\n" ++
  "\n" ++
  "\x1b[1mARGUMENTS:\x1b[0m\n" ++
  "    [FILES...]    Files to parse (`-` reads standard input). With none, starts the REPL.\n" ++
  "\n" ++
  "\x1b[1mOPTIONS:\x1b[0m\n" ++
  "    -h, --help       Print help information\n" ++
  "    -V, --version    Print version information\n" ++
  "    --tokens         Print tokens instead of syntax trees\n" ++
  "    -q, --quiet      Print nothing; report through the exit status\n" ++
  "    --check          Exit with failure if any file has syntax errors\n" ++
  "\n" ++
  "\x1b[1mENVIRONMENT:\x1b[0m\n" ++
  "    RUST_LOG         Enable logging, e.g. RUST_LOG=cool_syntax=debug\n" ++
  "\n" ++
  "\x1b[1mEXAMPLES:\x1b[0m\n" ++
  "    cool-parse                      Start the interactive REPL\n" ++
  "    cool-parse list.cool            Print the syntax tree of list.cool\n" ++
  "    cool-parse --check -q *.cool    Check files for syntax errors"

end Command

end CoolTree
