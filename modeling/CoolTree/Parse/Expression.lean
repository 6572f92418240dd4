import CoolTree.Parse.Construct

/-!
# Expressions

An expression is a first construct and what follows it: calls on it, and infix operators with
their right operands, as long as they bind at least as tightly as asked for. Expressions inside
expressions are one level deeper, and the recursion is on the number of levels left. Where none is
left, what would have been an expression is an error, up to a token that the constructs around it
are waiting for.
-/

namespace CoolTree

/-- What goes on with an expression: the role that the expression so far plays in a larger one. -/
structure Continuation where
  field : Field
  kind : Kind
  phrase : Phrase
  deriving DecidableEq, Inhabited

namespace Continuation

/-- How the next token continues an expression, if it binds at least as tightly as `least`. -/
def of? (levels : Levels) (least : Int) : TokenKind → Option Continuation
  | .terminal .dot =>
    if least ≤ levels.call then some ⟨.value, .dispatchExpression, .dispatch⟩ else none
  | .terminal .atSign =>
    if least ≤ levels.super then some ⟨.value, .dispatchExpression, .dispatch⟩ else none
  | .terminal t => do
    let o ← Operator.ofTerminal? t
    if least ≤ (levels.operator o).strength then some ⟨.left, .binaryExpression, .binary o⟩
    else none
  | _ => none

end Continuation

/-- Number of tokens an expression takes that is nested too deeply. Brackets that it opens are
closed before it ends at a token that closes or separates something. -/
def overrun (opened : Nat) : List Item → Nat
  | [] => 0
  | item :: rest =>
    match item.token.kind with
    | .terminal .leftParen | .terminal .leftBrace => overrun (opened + 1) rest + 1
    | kind =>
      if opened = 0 then if kind.isSynchronizing then 0 else overrun 0 rest + 1
      else match kind with
        | .terminal .rightParen | .terminal .rightBrace => overrun (opened - 1) rest + 1
        | _ => overrun opened rest + 1

namespace Parsing

def tooDeep : Parsing Parcel := do
  let swallowed ← Builder.tokenNodes {} (overrun 0 (← items))
  let built ← swallowed.finish .error true
  reportAt built.id .tooDeep
  return built

/-- Makes an expression the first part of a larger one. -/
def extend (levels : Levels) (expression : Int → Parsing Parcel) (c : Continuation)
    (left : Parcel) : Parsing Parcel := do
  let b ← c.phrase.build levels expression (Builder.push {} (some c.field) left)
  b.finish c.kind false

/-- Continues an expression. A continuation that takes no token is the last one. -/
def climb (levels : Levels) (expression : Int → Parsing Parcel) (least : Int) (left : Parcel) :
    Parsing Parcel := fun w ↦
  match Continuation.of? levels least w.input.current with
  | none => (left, w)
  | some next =>
    let size := w.input.size
    let whole := extend levels expression next left w
    if whole.2.input.size < size then climb levels expression least whole.1 whole.2 else whole
  termination_by w => w.input.size

/-- Parses an expression whose operators bind at least as tightly as `least`, with at most `depth`
expressions inside one another. -/
def expression (levels : Levels) : Nat → Int → Parsing Parcel
  | 0, _ => tooDeep
  | depth + 1, least => do
    let input := (← get).input
    let opening := Phrase.opening input.current input.upcoming
    let first ← opening.build levels (expression levels depth) {}
    climb levels (expression levels depth) least first.only

end Parsing

end CoolTree
