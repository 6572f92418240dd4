import CoolTree.Proofs.Sentence

/-!
# A recognizer with a stack

What may still come is kept as a stack of symbols. The kind of the next token decides what becomes
of the symbol on top; a symbol that may be empty gives way to the one below it. How far a text can
be read is `refusal`.
-/

namespace CoolTree

/-- A symbol of the stack: something that is still to come. -/
inductive Pending where
  | token (k : TokenKind)
  | name
  | typeName
  | expression
  /-- What may follow an expression. -/
  | tail
  /-- What may follow a name that starts an expression. -/
  | nameTail
  | arguments
  | moreArguments
  | block
  | statements
  | alternative
  | initializer
  | bindings
  | moreBindings
  | arms
  | moreArms
  /-- What may follow the semicolon behind an arm. -/
  | armAgain
  | closing
  | classes
  | heritage
  | features
  | featureRest
  | parameters
  | moreParameters
  deriving DecidableEq, Inhabited

namespace Pending

def terminal (t : Terminal) : Pending :=
  token (.terminal t)

/-- What is to come behind the first token of what follows an expression. -/
def afterTail? : TokenKind → Option (List Pending)
  | .terminal .dot => some [name, terminal .leftParen, arguments, terminal .rightParen, tail]
  | .terminal .atSign =>
    some [typeName, terminal .dot, name, terminal .leftParen, arguments, terminal .rightParen, tail]
  | .terminal t => if (Operator.ofTerminal? t).isSome then some [expression] else none
  | _ => none

/-- What is to come behind the first token of an expression. -/
def afterStart? : TokenKind → Option (List Pending)
  | .identifier | .typeIdentifier => some [nameTail]
  | .selfWord | .integer | .string _ true => some [tail]
  | .terminal .trueWord | .terminal .falseWord => some [tail]
  | .terminal .tilde | .terminal .isvoidWord | .terminal .notWord => some [expression]
  | .terminal .newWord => some [typeName, tail]
  | .terminal .leftParen => some [expression, terminal .rightParen, tail]
  | .terminal .leftBrace => some [block, terminal .rightBrace, tail]
  | .terminal .ifWord =>
    some [expression, terminal .thenWord, expression, alternative, terminal .fiWord, tail]
  | .terminal .whileWord =>
    some [expression, terminal .loopWord, expression, terminal .poolWord, tail]
  | .terminal .letWord => some [bindings, terminal .inWord, expression]
  | .terminal .caseWord => some [expression, terminal .ofWord, arms, terminal .esacWord, tail]
  | _ => none

def behind? (t : Terminal) (xs : List Pending) (k : TokenKind) : Option (List Pending) :=
  if k = .terminal t then some xs else none

def behindName? (xs : List Pending) (k : TokenKind) : Option (List Pending) :=
  if k.isIdentifier then some xs else none

/-- What is to come behind a token that a symbol can start with. -/
def after? (x : Pending) (k : TokenKind) : Option (List Pending) :=
  match x with
  | token k' => if k = k' then some [] else none
  | name => behindName? [] k
  | typeName => if k.isTypeName then some [] else none
  | expression => afterStart? k
  | tail => afterTail? k
  | nameTail =>
    if k = .terminal .assign then some [expression]
    else if k = .terminal .leftParen then some [arguments, terminal .rightParen, tail]
    else afterTail? k
  | arguments => (afterStart? k).map (· ++ [moreArguments])
  | moreArguments => behind? .comma [expression, moreArguments] k
  | block =>
    if k = .terminal .semicolon then some []
    else (afterStart? k).map (· ++ [terminal .semicolon, statements])
  | statements => (afterStart? k).map (· ++ [terminal .semicolon, statements])
  | alternative => behind? .elseWord [expression] k
  | initializer => behind? .assign [expression] k
  | bindings => behindName? [terminal .colon, typeName, initializer, moreBindings] k
  | moreBindings =>
    behind? .comma [name, terminal .colon, typeName, initializer, moreBindings] k
  | arms =>
    if k = .terminal .semicolon then some []
    else behindName? [terminal .colon, typeName, terminal .arrow, expression, moreArms] k
  | moreArms => behind? .semicolon [armAgain] k
  | armAgain => behindName? [terminal .colon, typeName, terminal .arrow, expression, moreArms] k
  | closing => behind? .semicolon [] k
  | classes =>
    behind? .classWord [typeName, heritage, terminal .leftBrace, features, terminal .rightBrace,
      terminal .semicolon, classes] k
  | heritage => behind? .inheritsWord [typeName] k
  | features => behindName? [featureRest, terminal .semicolon, features] k
  | featureRest =>
    if k = .terminal .leftParen then
      some [parameters, terminal .rightParen, terminal .colon, typeName, terminal .leftBrace,
        expression, terminal .rightBrace]
    else behind? .colon [typeName, initializer] k
  | parameters => behindName? [terminal .colon, typeName, moreParameters] k
  | moreParameters => behind? .comma [name, terminal .colon, typeName, moreParameters] k

def isNullable : Pending → Bool
  | tail | nameTail | arguments | moreArguments | statements | alternative | initializer
  | bindings | moreBindings | arms | moreArms | armAgain | closing | classes | heritage
  | features | parameters | moreParameters => true
  | _ => false

theorem behind?_eq_some_iff {t : Terminal} {xs ys : List Pending} {k : TokenKind} :
    behind? t xs k = some ys ↔ k = .terminal t ∧ xs = ys := by
  simp [behind?]

theorem behindName?_eq_some_iff {xs ys : List Pending} {k : TokenKind} :
    behindName? xs k = some ys ↔ k.isIdentifier = true ∧ xs = ys := by
  simp [behindName?]

end Pending

namespace Recognizer

open Pending

def step : List Pending → TokenKind → Option (List Pending)
  | [], _ => none
  | x :: rest, k =>
    match x.after? k with
    | some xs => some (xs ++ rest)
    | none => if x.isNullable then step rest k else none

def run : List Pending → List TokenKind → Option (List Pending)
  | stack, [] => some stack
  | stack, k :: w => (step stack k).bind fun stack ↦ run stack w

/-- Number of tokens in front of the first one that does not fit, or of all tokens if more should
come. There is none if everything fits. -/
def refusal : List Pending → List TokenKind → Option Nat
  | stack, [] => if stack.all isNullable then none else some 0
  | stack, k :: w =>
    match step stack k with
    | none => some 0
    | some stack => (refusal stack w).map (· + 1)

theorem step_of_after? {x : Pending} {k : TokenKind} {xs : List Pending} (h : x.after? k = some xs)
    (rest : List Pending) : step (x :: rest) k = some (xs ++ rest) := by
  rw [step, h]

theorem step_of_isNullable {x : Pending} {k : TokenKind} (h : x.after? k = none)
    (hx : x.isNullable = true) (rest : List Pending) : step (x :: rest) k = step rest k := by
  rw [step, h]
  simp [hx]

theorem step_eq_none {x : Pending} {k : TokenKind} (h : x.after? k = none)
    (hx : x.isNullable = false) (rest : List Pending) : step (x :: rest) k = none := by
  rw [step, h]
  simp [hx]

@[simp] theorem run_nil (stack : List Pending) : run stack [] = some stack := rfl

theorem run_cons {stack next : List Pending} {k : TokenKind} (h : step stack k = some next)
    (w : List TokenKind) : run stack (k :: w) = run next w := by
  rw [run, h, Option.bind_some]

theorem run_append (stack : List Pending) (v w : List TokenKind) :
    run stack (v ++ w) = (run stack v).bind fun stack ↦ run stack w := by
  induction v generalizing stack with
  | nil => rfl
  | cons k v ih =>
      simp only [List.cons_append, run]
      cases step stack k with
      | none => rfl
      | some next => simp [ih]

theorem refusal_cons {stack next : List Pending} {k : TokenKind} (h : step stack k = some next)
    (w : List TokenKind) : refusal stack (k :: w) = (refusal next w).map (· + 1) := by
  rw [refusal, h]

theorem refusal_of_step_eq_none {stack : List Pending} {k : TokenKind} (h : step stack k = none)
    (w : List TokenKind) : refusal stack (k :: w) = some 0 := by
  rw [refusal, h]

theorem run_of_refusal_eq_none {stack : List Pending} {w : List TokenKind}
    (h : refusal stack w = none) :
    ∃ last, run stack w = some last ∧ last.all isNullable = true := by
  induction w generalizing stack with
  | nil =>
      rw [refusal] at h
      split at h
      · exact ⟨stack, rfl, ‹_›⟩
      · cases h
  | cons k w ih =>
      rw [refusal] at h
      split at h
      · cases h
      · rename_i next hstep
        obtain ⟨last, hrun, hlast⟩ := ih (Option.map_eq_none_iff.mp h)
        exact ⟨last, by rw [run_cons hstep, hrun], hlast⟩

theorem refusal_eq_none {stack last : List Pending} {w : List TokenKind}
    (h : run stack w = some last) (hlast : last.all isNullable = true) :
    refusal stack w = none := by
  induction w generalizing stack with
  | nil =>
      cases h
      simp [refusal, hlast]
  | cons k w ih =>
      obtain ⟨next, hstep, hrun⟩ := Option.bind_eq_some_iff.mp h
      rw [refusal_cons hstep, ih hrun, Option.map_none]

/-- In front of the token that does not fit everything does, and the token itself leads nowhere. -/
theorem of_refusal_eq_some {stack : List Pending} {w : List TokenKind} {n : Nat}
    (h : refusal stack w = some n) :
    ∃ before behind next, w = before ++ behind ∧ before.length = n ∧
      run stack before = some next ∧
      match behind with
      | [] => next.all isNullable = false
      | k :: _ => step next k = none := by
  induction w generalizing stack n with
  | nil =>
      rw [refusal] at h
      split at h
      · cases h
      · cases h
        exact ⟨[], [], stack, rfl, rfl, rfl, Bool.eq_false_iff.mpr ‹_›⟩
  | cons k w ih =>
      rw [refusal] at h
      split at h
      · rename_i hstep
        cases h
        exact ⟨[], k :: w, stack, rfl, rfl, rfl, hstep⟩
      · rename_i next hstep
        obtain ⟨m, hm, rfl⟩ := Option.map_eq_some_iff.mp h
        obtain ⟨before, behind, last, rfl, rfl, hrun, hbehind⟩ := ih hm
        exact ⟨k :: before, behind, last, rfl, rfl, by rw [run_cons hstep, hrun], hbehind⟩

end Recognizer

end CoolTree
