import CoolTree.Console.Completion
import CoolTree.Console.Snippet
import CoolTree.Parse.Source

/-!
# The read-eval-print loop

The loop asks an editor for lines and joins them until a snippet is complete. A complete snippet
that is not blank is remembered, parsed, and answered with its tree and its problems. An
interruption, an end of input or a failure inside a snippet drops the lines read so far; an end of
input in front of a snippet ends the loop.
-/

namespace CoolTree.Repl

inductive Event where
  | line (text : String)
  | interrupted
  | ended
  | failed (reason : String)
  deriving DecidableEq, Inhabited

inductive Action where
  | setWords (words : List String)
  | readLine (prompt : String)
  | readContinuation (prompt : String)
  | remember (snippet : String)
  | print (text : String)
  | printError (text : String)
  deriving DecidableEq, Inhabited

structure Settings where
  banner : Bool := true
  prompt : String := "cool> "
  continuationPrompt : String := "...   "

def version : String :=
  "0.1.0"

def banner : String :=
  "\x1b[1;36mCool parser REPL v" ++ version ++ "\x1b[0m\n" ++
    "Enter class definitions to see their syntax trees. Use Ctrl+D to exit.\n\n"

/-- The lines of the snippet that is being read, joined, unless none has been read. -/
abbrev Pending := Option String

def ask (s : Settings) : Pending → Action
  | none => .readLine s.prompt
  | some _ => .readContinuation s.continuationPrompt

def red (text : String) : String :=
  "\x1b[31m" ++ text ++ "\x1b[0m\n"

def failureText (f : Failure) : String :=
  red ("Error: " ++ f.message)

def answer (l : Language) (snippet : String) : List Action :=
  if Snippet.isBlank snippet.toList then []
  else
    let tree := Tree.parse l {} snippet
    .remember snippet :: .print ("\x1b[1m" ++ tree.root.sexp ++ "\x1b[0m\n") ::
      tree.errors.map fun e ↦ .printError (red e.display)

/-- What an event leads to, and what is pending then. After the end there is nothing. -/
def step (l : Language) (pending : Pending) : Event → List Action × Option Pending
  | .line text =>
    let joined := match pending with
      | none => text
      | some lines => lines ++ "\n" ++ text
    if Snippet.isComplete joined.toList then (answer l joined, some none)
    else ([], some (some joined))
  | .interrupted =>
    match pending with
    | none => ([], some none)
    | some _ => ([.print "\nInput cancelled.\n"], some none)
  | .ended =>
    match pending with
    | none => ([], none)
    | some _ =>
      ([.printError (failureText ⟨.internal "unexpected EOF in multi-line input", none⟩)],
        some none)
  | .failed reason => ([.printError (failureText ⟨.inputOutput reason, none⟩)], some none)

/-- Asks for events and answers them until the end. -/
def loop (l : Language) (s : Settings) (pending : Pending) : List Event → List Action
  | [] => []
  | event :: rest =>
    let (actions, next) := step l pending event
    ask s pending :: actions ++
      match next with
      | none => [.print "\nGoodbye!\n"]
      | some pending => loop l s pending rest

/-- A whole session over the given events, which the end of input follows. A session ends at the
second end at the latest. -/
def session (l : Language) (s : Settings) (events : List Event) : List Action :=
  .setWords (Completion.words l) :: (if s.banner then [.print banner] else []) ++
    loop l s none (events ++ [.ended, .ended])

end CoolTree.Repl
