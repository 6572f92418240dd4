import CoolTree.Parse.Expression
import CoolTree.Tree.Basic

/-!
# Parsing

A parser has a language that lacks nothing and a configuration. Every source has a tree; what is
wrong with the source is listed beside the tree and marked in it. Strict parsing refuses a source
that has anything wrong.
-/

namespace CoolTree

structure Config where
  /-- How many expressions may stand inside one another. -/
  maxDepth : Nat := 256
  comments : Bool := true
  deriving DecidableEq, Inhabited

namespace Tree

/-- The problems that comments have: the last one may lack its end. -/
def commentErrors (tokens : List Token) : List SyntaxError :=
  (tokens.filter (·.kind == .blockComment false)).map fun t ↦ ⟨.unterminatedComment, t.span⟩

def parsedTokens (config : Config) (tokens : List Token) : List Token :=
  if config.comments then tokens else tokens.filter (!·.kind.isComment)

/-- Parses a file with a span. The number of the root is returned, beside what has become of the
workspace. -/
def assemble (levels : Levels) (maxDepth : Nat) (span : Span) (a : Arrangement) : Nat × Workspace :=
  let file : Parsing Nat := do
    let b ← Phrase.file.build levels (Parsing.expression levels maxDepth) {}
    b.root span
  file (.start a.items a.trailing)

/-- Parses a source with a language that lacks nothing. -/
def parse (language : Language) (config : Config) (source : String) : Tree :=
  let tokens := Token.ofSource source.toList
  let span : Span := ⟨.origin, Position.origin.after source.toList⟩
  let (top, w) :=
    assemble language.levels config.maxDepth span (.ofTokens (parsedTokens config tokens))
  let errors := w.errors.reverse ++ commentErrors tokens
  { language := language
    source := source
    arena := w.arena
    top := top
    errors := errors.mergeSort (·.span.precedes ·.span) }

end Tree

structure Parser where
  language : Option Language := none
  config : Config := {}

namespace Parser

/-- Changes the language. A language that lacks something is refused. -/
def setLanguage (p : Parser) (l : Language) : Except Need Parser :=
  match l.lack? with
  | none => .ok { p with language := some l }
  | some need => .error need

def setConfig (p : Parser) (config : Config) : Parser :=
  { p with config := config }

/-- The tree of a source. Without a language there is none. -/
def parse? (p : Parser) (source : String) : Option Tree :=
  p.language.map fun l ↦ Tree.parse l p.config source

end Parser

def lineAround (source : List Char) (offset : Nat) : List Char :=
  let before := (Source.takeBytes? offset source).getD []
  let behind := (Source.dropBytes? offset source).getD []
  (before.reverse.takeWhile (· != '\n')).reverse ++ behind.takeWhile (· != '\n')

/-- Parses a source and fails at its first problem. -/
def parseStrict (l : Language) (source : String) : Except Failure Tree :=
  match l.lack? with
  | some need => .error need.toFailure
  | none =>
    let tree := Tree.parse l {} source
    match tree.errors with
    | [] => .ok tree
    | e :: _ =>
      let start := e.span.start
      let context := String.ofList (lineAround source.toList start.offset)
      .error ⟨.syntaxError e.message start.point.line start.point.displayColumn context, none⟩

end CoolTree
