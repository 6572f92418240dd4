import CoolTree.Parse.TokenClass
import CoolTree.Tree.Arena
import CoolTree.Tree.Problem

/-!
# Builders

While a source is parsed, its nodes are put into an arena one by one, and the children of a
construct are collected in a builder. Comments become nodes as soon as the token in front of them is
taken, and wait there for a parent. Comments in front of the first child of a construct are handed
to the construct around it, so that a construct starts with a token of its own.

Parsing never fails. A token that should be there and is not becomes a missing node without extent,
and tokens that fit nowhere are wrapped in an error node.
-/

namespace CoolTree

def TokenKind.leafKind : TokenKind → Kind
  | terminal t => .terminal t
  | selfWord => .selfValue
  | identifier => .identifier
  | typeIdentifier => .typeIdentifier
  | primitiveType => .primitiveType
  | integer => .integerLiteral
  | string _ _ => .stringLiteral
  | lineComment => .inlineComment
  | blockComment _ => .blockComment
  | ending | unknown _ => .error

/-- What stands where a word belongs. -/
inductive Slot where
  | identifier
  | attributeName
  | typeName
  | className
  deriving DecidableEq, Inhabited

namespace Slot

/-- The kind of node a token makes in a slot, if it fits there. -/
def accepts? : Slot → TokenKind → Option Kind
  | identifier, .identifier | identifier, .typeIdentifier => some .identifier
  | attributeName, .identifier | attributeName, .typeIdentifier => some .fieldIdentifier
  | typeName, .typeIdentifier => some .typeIdentifier
  | typeName, .primitiveType => some .primitiveType
  | className, .typeIdentifier | className, .primitiveType => some .typeIdentifier
  | _, _ => none

/-- The kind of the missing node when nothing fits. -/
def defaultKind : Slot → Kind
  | identifier => .identifier
  | attributeName => .fieldIdentifier
  | typeName | className => .typeIdentifier

def wanted : Slot → Wanted
  | identifier | attributeName => .identifier
  | typeName => .typeName
  | className => .className

end Slot

/-- The text pieces of a string body and the kinds of node they become. -/
def BodyPart.piece : BodyPart → Kind × List Char
  | .content text => (.stringContent, text)
  | .escape c => (.escapeSequence, ['\\', c])

/-- The pieces of a string literal, its quotes among them. -/
def BodyPart.pieces (parts : List BodyPart) (closed : Bool) : List (Kind × List Char) :=
  let quote := (Kind.quote, ['"'])
  quote :: parts.map piece ++ if closed then [quote] else []

structure Workspace where
  input : Input
  /-- The comments behind the last token. -/
  trailing : List Token
  /-- The end of the last token read. Missing nodes are placed here. -/
  reached : Position
  /-- The problems found, the last one first. -/
  errors : List SyntaxError
  arena : Arena
  /-- The comments in front of the next token. They have no parent yet. -/
  pending : Array Nat

/-- A node that is finished, and the comments in front of it that still need a parent. -/
structure Parcel where
  id : Nat
  leading : List Nat

/-- The children of a construct, their roles, and the comments in front of the first child. -/
structure Builder where
  leading : List Nat := []
  children : Array Nat := #[]
  fields : Array (Option Field) := #[]

abbrev Parsing :=
  StateM Workspace

namespace Workspace

/-- The comments in front of the next token, or behind the last one. -/
def comments (w : Workspace) : List Token :=
  match w.input.items with
  | item :: _ => item.comments
  | [] => w.trailing

/-- Makes a node of a comment. -/
def queue (w : Workspace) (comment : Token) : Workspace :=
  let id := w.arena.size
  { w with
    arena := w.arena.push
      { kind := comment.kind.leafKind
        span := comment.span
        extra := true
        faulty := comment.kind == .blockComment false }
    pending := w.pending.push id }

/-- Makes nodes of the comments in front of the next token. -/
def fetch (w : Workspace) : Workspace :=
  w.comments.foldl queue w

def pass (w : Workspace) (t : Token) : Workspace :=
  { w with input := w.input.tail, reached := t.stop, pending := #[] }

def start (items : List Item) (trailing : List Token) : Workspace :=
  fetch
    { input := .ofItems items
      trailing := trailing
      reached := .origin
      errors := []
      arena := #[]
      pending := #[] }

end Workspace

namespace Arena

def setParent (id : Nat) (a : Arena) (child : Nat) : Arena :=
  a.modify child (·.below id)

/-- Makes a node the parent of some others. -/
def adopt (a : Arena) (id : Nat) (children : List Nat) : Arena :=
  children.foldl (setParent id) a

end Arena

namespace Parsing

/-- Moves behind a token that is next. The comments in front of it are returned. -/
def consume (t : Token) : Parsing (List Nat) :=
  modifyGet fun w ↦ (w.pending.toList, (w.pass t).fetch)

def alloc (e : Entry) : Parsing Nat :=
  modifyGet fun w ↦ (w.arena.size, { w with arena := w.arena.push e })

/-- Makes a node of children that have no parent so far. -/
def allocNode (kind : Kind) (span : Span) (children : List Nat) (fields : List (Option Field))
    (faulty : Bool) : Parsing Nat :=
  modifyGet fun w ↦
    let id := w.arena.size
    let e : Entry :=
      { kind := kind
        span := span
        children := children
        fields := fields
        faulty := faulty || children.any fun child ↦ (w.arena.entry child).faulty }
    (id, { w with arena := (w.arena.adopt id children).push e })

def report (problem : Problem) (span : Span) : Parsing Unit :=
  modify fun w ↦ { w with errors := ⟨problem, span⟩ :: w.errors }

/-- Reports a problem where a node stands. -/
def reportAt (id : Nat) (problem : Problem) : Parsing Unit :=
  modify fun w ↦ { w with errors := ⟨problem, (w.arena.entry id).span⟩ :: w.errors }

def items : Parsing (List Item) :=
  return (← get).input.items

def current : Parsing TokenKind :=
  return (← get).input.current

end Parsing

open Parsing

namespace Builder

/-- Adds a child. Comments in front of the first child stay apart, others become children without a
role. -/
def push (b : Builder) (field : Option Field) (built : Parcel) : Builder :=
  if b.children.isEmpty then
    { leading := b.leading ++ built.leading
      children := b.children.push built.id
      fields := b.fields.push field }
  else
    { leading := b.leading
      children := (b.children ++ built.leading.toArray).push built.id
      fields := (b.fields ++ Array.replicate built.leading.length none).push field }

/-- The only child, with the comments in front of it. -/
def only (b : Builder) : Parcel :=
  ⟨b.children.getD 0 0, b.leading⟩

/-- Takes the next token as a node of the given kind. At the end nothing is taken. -/
def leaf (b : Builder) (field : Option Field) (kind : Kind) (faulty : Bool) : Parsing Builder := do
  match ← items with
  | [] => return b
  | item :: _ =>
    let leading ← consume item.token
    let id ← alloc { kind := kind, span := item.token.span, faulty := faulty }
    return b.push field ⟨id, leading⟩

def missing (b : Builder) (field : Option Field) (kind : Kind) (problem : Problem) :
    Parsing Builder := do
  let span := Span.emptyAt (← get).reached
  report problem span
  let id ← alloc { kind := kind, span := span, missing := true, faulty := true }
  return b.push field ⟨id, []⟩

/-- From the first child to the last one. -/
def span (b : Builder) (w : Workspace) : Span :=
  match b.children[0]?, b.children.back? with
  | some first, some last => (w.arena.entry first).span.cover (w.arena.entry last).span
  | _, _ => Span.emptyAt w.reached

/-- Makes one node of the children. -/
def finish (b : Builder) (kind : Kind) (faulty : Bool) : Parsing Parcel := do
  let span := b.span (← get)
  let id ← allocNode kind span b.children.toList b.fields.toList faulty
  return ⟨id, b.leading⟩

/-- Adds nodes for the pieces of a token, one behind the other. -/
def addPieces (b : Builder) (start : Position) : List (Kind × List Char) → Parsing Builder
  | [] => return b
  | (kind, text) :: rest => do
    let stop := start.after text
    let id ← alloc { kind := kind, span := ⟨start, stop⟩ }
    addPieces (b.push none ⟨id, []⟩) stop rest

/-- Takes a string literal with the given parts: its quotes and its parts are nodes of their own. -/
def stringLiteral (b : Builder) (t : Token) (parts : List BodyPart) (closed : Bool) :
    Parsing Builder := do
  let inner : Builder := { leading := ← consume t }
  let inner ← inner.addPieces t.start (BodyPart.pieces parts closed)
  let inner ← if closed then pure inner else inner.missing none .quote .unterminatedString
  return b.push none (← inner.finish .stringLiteral false)

/-- Takes a token that is next as the node it makes on its own. -/
def own (b : Builder) (t : Token) : Parsing Builder :=
  match t.kind with
  | .string parts closed => b.stringLiteral t parts closed
  | .unknown c => b.leaf none (TokenKind.unknown c).leafKind true
  | kind => b.leaf none kind.leafKind false

/-- Takes the next token as the node it makes on its own. At the end nothing is taken. -/
def tokenNode (b : Builder) : Parsing Builder := do
  match ← items with
  | [] => return b
  | item :: _ => b.own item.token

def tokenNodes (b : Builder) : Nat → Parsing Builder
  | 0 => return b
  | n + 1 => do (← b.tokenNode).tokenNodes n

/-- Takes a token that is next if it is a string. -/
def quoted (b : Builder) (t : Token) : Parsing Builder :=
  match t.kind with
  | .string parts closed => b.stringLiteral t parts closed
  | _ => return b

def literal (b : Builder) : Parsing Builder := do
  match ← items with
  | [] => return b
  | item :: _ => b.quoted item.token

/-- Makes an error node of the children. A lone unknown character is an error node already. -/
def wrap (b : Builder) : Parsing Parcel := do
  match b.children.toList with
  | [child] =>
    if ((← get).arena.entry child).kind == .error then return b.only else b.finish .error true
  | _ => b.finish .error true

/-- Wraps the tokens up to the first one of a kind at which to stop in an error node. -/
def skipUntil (b : Builder) (stop : TokenKind → Bool) : Parsing Builder := do
  let count := ((← items).takeWhile fun item ↦ !stop item.token.kind).length
  if count = 0 then return b
  let found ← current
  let skipped ← (← tokenNodes {} count).wrap
  reportAt skipped.id (.unexpected found)
  return b.push none skipped

/-- Wraps the tokens up to the first one of a class in an error node. -/
def skip (b : Builder) (stop : TokenClass) : Parsing Builder :=
  b.skipUntil stop.has

/-- Takes a terminal. Tokens in front of it that close or separate nothing are skipped; if it is
still not there, it is missing. -/
def expect (b : Builder) (t : Terminal) : Parsing Builder := do
  let b ← b.skip (.either (.only t) .synchronizing)
  let found ← current
  if found = .terminal t then b.leaf none (.terminal t) false
  else b.missing none (.terminal t) (.expected (.terminal t) found)

/-- Fills a slot at a token. The word is missing when the token does not fit. -/
def fill (b : Builder) (field : Option Field) (slot : Slot) (found : TokenKind) :
    Parsing Builder :=
  match slot.accepts? found with
  | some kind => b.leaf field kind false
  | none => b.missing field slot.defaultKind (.expected slot.wanted found)

/-- Takes a word for a slot. -/
def word (b : Builder) (field : Option Field) (slot : Slot) : Parsing Builder := do
  b.fill field slot (← current)

def take (b : Builder) (field : Option Field) : Parsing Builder := do
  b.leaf field (← current).leafKind false

def absent (b : Builder) : Parsing Builder := do
  b.missing none .identifier (.expected .expression (← current))

/-- Repeats a round as long as a test holds. A round that takes no token is the last one. -/
def repeatWhile (test : Test) (round : Builder → Parsing Builder) (b : Builder) :
    Parsing Builder := fun w ↦
  if test.holds w.input then
    let size := w.input.size
    let next := round b w
    if next.2.input.size < size then repeatWhile test round next.1 next.2 else next
  else (b, w)
  termination_by w => w.input.size

/-- Makes the root of the children, the comments that are left, and those in front. -/
def root (b : Builder) (span : Span) : Parsing Nat := do
  let trailing := (← get).pending.toList
  let children := b.leading ++ b.children.toList ++ trailing
  let fields :=
    List.replicate b.leading.length none ++ b.fields.toList ++ List.replicate trailing.length none
  allocNode .sourceFile span children fields false

end Builder

end CoolTree
