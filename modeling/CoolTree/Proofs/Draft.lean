import CoolTree.Parse.Source

/-!
# Drafts

Parsing without an arena. While a construct is parsed, its nodes are collected in a draft: the nodes
so far, each with what is below it and comments among them, and the state of the parse. A finished
draft becomes one node, and the comments at its front go to the construct around it. A draft says
what is parsed and which problems are found, and leaves open which number each node has.
-/

namespace CoolTree

structure State where
  input : Input
  /-- The end of the last token read. Missing nodes are placed here. -/
  reached : Position
  /-- The problems found, the last one first. -/
  errors : List SyntaxError
  made : Nat

structure Draft where
  nodes : Array Node
  state : State

/-- A node put into a role. Comments play none. -/
def Node.assign (field : Option Field) (n : Node) : Node :=
  if n.isExtra then n else .mk { n.label with field := field } n.children

namespace Draft

def blank (s : State) : Draft :=
  ⟨#[], s⟩

def current (d : Draft) : TokenKind :=
  d.state.input.current

/-- Adds a node without children. -/
def add (d : Draft) (label : Label) : Draft where
  nodes := d.nodes.push (.mk label [])
  state := { d.state with made := d.state.made + 1 }

def report (d : Draft) (problem : Problem) (span : Span) : Draft :=
  { d with state := { d.state with errors := ⟨problem, span⟩ :: d.state.errors } }

def addComment (d : Draft) (t : Token) : Draft :=
  d.add ⟨t.kind.leafKind, t.span, none, true, false, t.kind == .blockComment false⟩

def addComments (d : Draft) (comments : List Token) : Draft :=
  comments.foldl addComment d

def pass (d : Draft) (t : Token) : Draft :=
  { d with state := { d.state with input := d.state.input.tail, reached := t.stop } }

/-- Takes the next token as a node of the given kind. At the end nothing is taken. -/
def leaf (d : Draft) (field : Option Field) (kind : Kind) (faulty : Bool) : Draft :=
  match d.state.input.items with
  | [] => d
  | item :: _ =>
    ((d.addComments item.comments).pass item.token).add
      ⟨kind, item.token.span, field, false, false, faulty⟩

def missing (d : Draft) (field : Option Field) (kind : Kind) (problem : Problem) : Draft :=
  let span := Span.emptyAt d.state.reached
  (d.report problem span).add ⟨kind, span, field, false, true, true⟩

/-- Makes one node of a draft, behind the comments at its front. -/
def enclose (d : Draft) (kind : Kind) (faulty : Bool) : Draft :=
  let nodes := d.nodes.toList
  let children := nodes.dropWhile Node.isExtra
  let span := match children.head?, children.getLast? with
    | some first, some last => first.span.cover last.span
    | _, _ => Span.emptyAt d.state.reached
  let label : Label :=
    ⟨kind, span, none, false, false, faulty || children.any Node.isFaulty⟩
  { nodes := (nodes.takeWhile Node.isExtra).toArray.push (.mk label children)
    state := { d.state with made := d.state.made + 1 } }

/-- Adds the nodes of a draft that went on from the state of this one. -/
def attach (d : Draft) (field : Option Field) (inner : Draft) : Draft where
  nodes := d.nodes ++ inner.nodes.map (Node.assign field)
  state := inner.state

def reportLast (d : Draft) (problem : Problem) : Draft :=
  d.report problem ((d.nodes.back?.map Node.span).getD (Span.emptyAt d.state.reached))

/-- Adds nodes for the pieces of a token, one behind the other. -/
def addPieces (d : Draft) (start : Position) : List (Kind × List Char) → Draft
  | [] => d
  | (kind, text) :: rest =>
    let stop := start.after text
    (d.add ⟨kind, ⟨start, stop⟩, none, false, false, false⟩).addPieces stop rest

/-- Takes a string literal with the given parts: its quotes and its parts are nodes of their own. -/
def stringLiteral (d : Draft) (item : Item) (parts : List BodyPart) (closed : Bool) : Draft :=
  let d := (d.addComments item.comments).pass item.token
  let inner := (blank d.state).addPieces item.token.start (BodyPart.pieces parts closed)
  let inner := if closed then inner else inner.missing none .quote .unterminatedString
  d.attach none (inner.enclose .stringLiteral false)

/-- Takes the next token as the node it makes on its own. -/
def tokenNode (d : Draft) : Draft :=
  match d.state.input.items with
  | [] => d
  | item :: _ =>
    match item.token.kind with
    | .string parts closed => d.stringLiteral item parts closed
    | .unknown c => d.leaf none (TokenKind.unknown c).leafKind true
    | kind => d.leaf none kind.leafKind false

def tokenNodes (d : Draft) : Nat → Draft
  | 0 => d
  | n + 1 => d.tokenNode.tokenNodes n

def literal (d : Draft) : Draft :=
  match d.state.input.items with
  | item :: _ =>
    match item.token.kind with
    | .string parts closed => d.stringLiteral item parts closed
    | _ => d
  | [] => d

/-- Makes an error node of a draft. A lone unknown character is an error node already. -/
def wrap (d : Draft) : Draft :=
  match d.nodes.toList.dropWhile Node.isExtra with
  | [node] => if node.isError then d else d.enclose .error true
  | _ => d.enclose .error true

/-- Wraps the tokens up to the first one of a kind at which to stop in an error node. -/
def skipUntil (d : Draft) (stop : TokenKind → Bool) : Draft :=
  match (d.state.input.items.takeWhile fun item ↦ !stop item.token.kind).length with
  | 0 => d
  | n + 1 =>
    let skipped := (blank d.state).tokenNodes (n + 1)
    d.attach none (skipped.wrap.reportLast (.unexpected d.current))

/-- Wraps the tokens up to the first one of a class in an error node. -/
def skip (d : Draft) (stop : TokenClass) : Draft :=
  d.skipUntil stop.has

/-- Takes a terminal. Tokens in front of it that close or separate nothing are skipped; if it is
still not there, it is missing. -/
def expect (d : Draft) (t : Terminal) : Draft :=
  let d := d.skip (.either (.only t) .synchronizing)
  if d.current = .terminal t then d.leaf none (.terminal t) false
  else d.missing none (.terminal t) (.expected (.terminal t) d.current)

/-- Takes a word for a slot, which is missing when the next token does not fit. -/
def word (d : Draft) (field : Option Field) (slot : Slot) : Draft :=
  match slot.accepts? d.current with
  | some kind => d.leaf field kind false
  | none => d.missing field slot.defaultKind (.expected slot.wanted d.current)

def take (d : Draft) (field : Option Field) : Draft :=
  d.leaf field d.current.leafKind false

def absent (d : Draft) : Draft :=
  d.missing none .identifier (.expected .expression d.current)

/-- Repeats a round as long as a test holds. A round that takes no token is the last one. -/
def repeatWhile (test : Test) (round : Draft → Draft) (d : Draft) : Draft :=
  if test.holds d.state.input then
    let next := round d
    if next.state.input.size < d.state.input.size then repeatWhile test round next else next
  else d
  termination_by d.state.input.size

end Draft

namespace Phrase

/-- Drafts the parts of a phrase. -/
def run (levels : Levels) (expression : Int → State → Draft) : Phrase → Draft → Draft
  | done, d => d
  | expect t next, d => run levels expression next (d.expect t)
  | take field next, d => run levels expression next (d.take field)
  | word field slot next, d => run levels expression next (d.word field slot)
  | literal next, d => run levels expression next d.literal
  | operand field bound next, d =>
    run levels expression next (d.attach field (expression (levels.bound bound) d.state))
  | node field kind body next, d =>
    let inner := run levels expression body (.blank d.state)
    run levels expression next (d.attach field (inner.enclose kind false))
  | choose test yes no next, d =>
    run levels expression next
      (if test.holds d.state.input then run levels expression yes d else run levels expression no d)
  | loop test body next, d =>
    run levels expression next (d.repeatWhile test (run levels expression body))
  | skip stop next, d => run levels expression next (d.skip stop)
  | absent next, d => run levels expression next d.absent

end Phrase

namespace Draft

def tooDeep (s : State) : Draft :=
  (((blank s).tokenNodes (overrun 0 s.input.items)).enclose .error true).reportLast .tooDeep

/-- Continues an expression. A continuation that takes no token is the last one. -/
def climb (levels : Levels) (expression : Int → State → Draft) (least : Int) (d : Draft) : Draft :=
  match Continuation.of? levels least d.current with
  | none => d
  | some next =>
    let inside := (blank d.state).attach (some next.field) d
    let whole := (next.phrase.run levels expression inside).enclose next.kind false
    if whole.state.input.size < d.state.input.size then climb levels expression least whole
    else whole
  termination_by d.state.input.size

/-- Drafts an expression whose operators bind at least as tightly as `least`, with at most `depth`
expressions inside one another. -/
def expression (levels : Levels) : Nat → Int → State → Draft
  | 0, _, s => tooDeep s
  | depth + 1, least, s =>
    let inner := expression levels depth
    climb levels inner least
      ((Phrase.opening s.input.current s.input.upcoming).run levels inner (blank s))

end Draft

namespace Tree

def initialState (items : List Item) : State where
  input := .ofItems items
  reached := .origin
  errors := []
  made := 0

def draft (levels : Levels) (maxDepth : Nat) (a : Arrangement) : Draft :=
  let expression := Draft.expression levels maxDepth
  let file := Phrase.file.run levels expression (.blank (initialState a.items))
  file.addComments a.trailing

end Tree

end CoolTree
