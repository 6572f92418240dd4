import CoolTree.Token.Basic

/-!
# Sentences of Cool

The grammar of Cool over kinds of tokens, without precedence: whatever groups its operators in some
way is an expression. Comments and the ending take no part in it.
-/

namespace CoolTree

/-- Words that can name a type. -/
def TokenKind.isTypeName : TokenKind → Bool
  | typeIdentifier | primitiveType => true
  | _ => false

namespace Sentence

/-- Parts with a terminal between them. -/
def separated (t : Terminal) : List (List TokenKind) → List TokenKind
  | [] => []
  | part :: rest => part ++ rest.flatMap (.terminal t :: ·)

/-- Parts with a terminal behind each of them. -/
def terminated (t : Terminal) (parts : List (List TokenKind)) : List TokenKind :=
  parts.flatMap (· ++ [.terminal t])

/-- A part headed by a terminal, or nothing. -/
def headed (t : Terminal) : Option (List TokenKind) → List TokenKind
  | none => []
  | some part => .terminal t :: part

/-- A name with its type: `name : Type`. -/
structure Declaration where
  name : TokenKind
  type : TokenKind

namespace Declaration

def word (d : Declaration) : List TokenKind :=
  [d.name, .terminal .colon, d.type]

def Proper (d : Declaration) : Prop :=
  d.name.isIdentifier = true ∧ d.type.isTypeName = true

end Declaration

/-- A declaration with an initial value, if there is one. -/
structure Variable extends Declaration where
  value : Option (List TokenKind)

def Variable.word (v : Variable) : List TokenKind :=
  v.toDeclaration.word ++ headed .assign v.value

/-- A declaration with a value for it: `name : Type => value`. -/
structure Arm extends Declaration where
  value : List TokenKind

def Arm.word (a : Arm) : List TokenKind :=
  a.toDeclaration.word ++ .terminal .arrow :: a.value

/-- A method name with arguments in parentheses. -/
def call (name : TokenKind) (arguments : List (List TokenKind)) : List TokenKind :=
  name :: .terminal .leftParen :: (separated .comma arguments ++ [.terminal .rightParen])

inductive Expression : List TokenKind → Prop
  | name {k : TokenKind} (hk : k.isIdentifier = true) : Expression [k]
  | self : Expression [.selfWord]
  | integer : Expression [.integer]
  | string (parts : List BodyPart) : Expression [.string parts true]
  | trueWord : Expression [.terminal .trueWord]
  | falseWord : Expression [.terminal .falseWord]
  | assignment {k : TokenKind} {e : List TokenKind} (hk : k.isIdentifier = true)
      (he : Expression e) : Expression (k :: .terminal .assign :: e)
  | call {k : TokenKind} {as : List (List TokenKind)} (hk : k.isIdentifier = true)
      (has : ∀ a ∈ as, Expression a) : Expression (call k as)
  | dispatch {x : List TokenKind} {k : TokenKind} {as : List (List TokenKind)} (hx : Expression x)
      (hk : k.isIdentifier = true) (has : ∀ a ∈ as, Expression a) :
      Expression (x ++ .terminal .dot :: call k as)
  | staticDispatch {x : List TokenKind} {t k : TokenKind} {as : List (List TokenKind)}
      (hx : Expression x) (ht : t.isTypeName = true) (hk : k.isIdentifier = true)
      (has : ∀ a ∈ as, Expression a) :
      Expression (x ++ .terminal .atSign :: t :: .terminal .dot :: call k as)
  | binary {x y : List TokenKind} (o : Operator) (hx : Expression x) (hy : Expression y) :
      Expression (x ++ .terminal o.terminal :: y)
  | comp {e : List TokenKind} (he : Expression e) : Expression (.terminal .tilde :: e)
  | isvoid {e : List TokenKind} (he : Expression e) : Expression (.terminal .isvoidWord :: e)
  | not {e : List TokenKind} (he : Expression e) : Expression (.terminal .notWord :: e)
  | new {t : TokenKind} (ht : t.isTypeName = true) : Expression [.terminal .newWord, t]
  | parenthesized {e : List TokenKind} (he : Expression e) :
      Expression (.terminal .leftParen :: (e ++ [.terminal .rightParen]))
  | emptyBlock :
      Expression [.terminal .leftBrace, .terminal .semicolon, .terminal .rightBrace]
  | block {e : List TokenKind} {es : List (List TokenKind)} (he : Expression e)
      (hes : ∀ s ∈ es, Expression s) :
      Expression (.terminal .leftBrace ::
        (terminated .semicolon (e :: es) ++ [.terminal .rightBrace]))
  | conditional {c t : List TokenKind} {f : Option (List TokenKind)} (hc : Expression c)
      (ht : Expression t) (hf : ∀ e ∈ f, Expression e) :
      Expression (.terminal .ifWord :: (c ++ .terminal .thenWord ::
        (t ++ (headed .elseWord f ++ [.terminal .fiWord]))))
  | loop {c b : List TokenKind} (hc : Expression c) (hb : Expression b) :
      Expression (.terminal .whileWord :: (c ++ .terminal .loopWord ::
        (b ++ [.terminal .poolWord])))
  | letIn {vs : List Variable} {b : List TokenKind} (hvs : ∀ v ∈ vs, v.Proper)
      (hvalues : ∀ v ∈ vs, ∀ e ∈ v.value, Expression e) (hb : Expression b) :
      Expression (.terminal .letWord ::
        (separated .comma (vs.map Variable.word) ++ .terminal .inWord :: b))
  | caseOf {x : List TokenKind} {as : List Arm} (closed : Bool) (hx : Expression x)
      (has : ∀ a ∈ as, a.Proper) (hvalues : ∀ a ∈ as, Expression a.value) :
      Expression (.terminal .caseWord :: (x ++ .terminal .ofWord ::
        (separated .semicolon (as.map Arm.word) ++
          ((if closed then [.terminal .semicolon] else []) ++ [.terminal .esacWord]))))

inductive Feature : List TokenKind → Prop
  | method {k t : TokenKind} {ps : List Declaration} {e : List TokenKind}
      (hk : k.isIdentifier = true) (hps : ∀ p ∈ ps, p.Proper) (ht : t.isTypeName = true)
      (he : Expression e) :
      Feature (k :: .terminal .leftParen :: (separated .comma (ps.map Declaration.word) ++
        .terminal .rightParen :: .terminal .colon :: t :: .terminal .leftBrace ::
          (e ++ [.terminal .rightBrace])))
  | field {v : Variable} (hv : v.Proper) (hvalue : ∀ e ∈ v.value, Expression e) :
      Feature v.word

inductive Class : List TokenKind → Prop
  | mk {t : TokenKind} {h : Option TokenKind} {fs : List (List TokenKind)}
      (ht : t.isTypeName = true) (hh : ∀ u ∈ h, u.isTypeName = true) (hfs : ∀ f ∈ fs, Feature f) :
      Class (.terminal .classWord :: t :: (headed .inheritsWord (h.map ([·])) ++
        .terminal .leftBrace :: (terminated .semicolon fs ++
          [.terminal .rightBrace, .terminal .semicolon])))

/-- Programs are any number of classes. -/
def Program (w : List TokenKind) : Prop :=
  ∃ cs : List (List TokenKind), (∀ c ∈ cs, Class c) ∧ w = cs.flatten

/-- What some program starts with. -/
def Viable (w : List TokenKind) : Prop :=
  ∃ rest, Program (w ++ rest)

end Sentence

end CoolTree
