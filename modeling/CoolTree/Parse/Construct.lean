import CoolTree.Parse.Phrase

/-!
# The constructs of Cool

One phrase for each construct. A file is a sequence of classes, a class holds features, and
everything else is an expression, whose first construct is found from the next two tokens.
-/

namespace CoolTree.Phrase

def declaration : Phrase :=
  .word (some .name) .identifier <| .expect .colon <| .word (some .type) .typeName .done

def initializer : Phrase :=
  .take none <| .operand (some .right) .assign .done

def separated (part : Phrase → Phrase) : Phrase :=
  part <| .loop (.within (.only .comma)) (.take none <| part .done) .done

def parameters : Phrase :=
  .expect .leftParen <|
  .choose (.within .identifier) (separated (.node none .parameter declaration)) .done <|
  .expect .rightParen .done

def method : Phrase :=
  .word (some .name) .identifier <|
  .node (some .parameters) .parameters parameters <|
  .expect .colon <|
  .word (some .returnType) .typeName <|
  .expect .leftBrace <|
  .operand (some .body) .assign <|
  .expect .rightBrace .done

def attributeItem : Phrase :=
  .word (some .name) .attributeName <|
  .expect .colon <|
  .word (some .type) .typeName <|
  .choose (.within (.only .assign)) initializer .done .done

def feature : Phrase :=
  .choose (.ahead (.only .leftParen))
    (.node none .methodDeclaration method .done)
    (.node none .attributeDeclaration attributeItem .done) <|
  .expect .semicolon .done

/-- Where a list of features ends: at a closing brace, at the next class or at the end. -/
def featuresEnd : TokenClass :=
  .either (.only .rightBrace) (.either (.only .classWord) .ending)

def features : Phrase :=
  .expect .leftBrace <|
  .loop (.outside featuresEnd)
    (.choose (.within .identifier) feature
      (.skip (.either .identifier (.either (.only .rightBrace) (.only .classWord))) .done) .done) <|
  .expect .rightBrace .done

def classItem : Phrase :=
  .take none <|
  .word (some .name) .className <|
  .choose (.within (.only .inheritsWord))
    (.take none <| .word (some .inherits) .typeName .done) .done <|
  .node (some .features) .fieldDeclarationList features <|
  .expect .semicolon .done

def file : Phrase :=
  .loop (.outside .ending)
    (.choose (.within (.only .classWord))
      (.node none .classItem classItem .done)
      (.skip (.only .classWord) .done) .done) .done

def arguments : Phrase :=
  .expect .leftParen <|
  .choose (.within .expressionStart) (separated (.operand none .assign)) .done <|
  .expect .rightParen .done

def call : Phrase :=
  .word (some .method) .identifier <| .node (some .arguments) .arguments arguments .done

/-- What follows the receiver of a call: `.method(…)` or `@Type.method(…)`. -/
def dispatch : Phrase :=
  .choose (.within (.only .atSign)) (.take none <| .word (some .type) .typeName .done) .done <|
  .expect .dot call

def binary (o : Operator) : Phrase :=
  .take (some .operator) <| .operand (some .right) (.rightOf o) .done

def assignment : Phrase :=
  .word (some .left) .identifier initializer

def unary (bound : Bound) : Phrase :=
  .take none <| .operand none bound .done

def conditional : Phrase :=
  .take none <|
  .operand (some .condition) .assign <|
  .expect .thenWord <|
  .operand (some .consequence) .assign <|
  .choose (.within (.only .elseWord))
    (.take none <| .operand (some .alternative) .assign .done) .done <|
  .expect .fiWord .done

def whileLoop : Phrase :=
  .take none <|
  .operand (some .condition) .assign <|
  .expect .loopWord <|
  .operand (some .body) .assign <|
  .expect .poolWord .done

def statement : Phrase :=
  .operand none .assign <| .expect .semicolon .done

/-- A block holds statements or a lone semicolon. -/
def block : Phrase :=
  .take none <|
  .choose (.within (.only .semicolon)) (.take none .done)
    (.operand none .assign <| .expect .semicolon <|
      .loop (.within .expressionStart) statement .done) <|
  .expect .rightBrace .done

def binder (next : Phrase) : Phrase :=
  .word (some .name) .identifier <|
  .expect .colon <|
  .word (some .type) .typeName <|
  .choose (.within (.only .assign)) initializer .done next

/-- The variables of a `let` may be left out. -/
def letIn : Phrase :=
  .take none <|
  .choose (.outside (.only .inWord)) (separated binder) .done <|
  .expect .inWord <|
  .operand (some .body) .assign .done

def caseArm : Phrase :=
  .node (some .pattern) .casePattern declaration <|
  .expect .arrow <|
  .operand (some .value) .assign .done

/-- Arms are separated by semicolons, and one more semicolon may close them. -/
def caseOf : Phrase :=
  let arm := Phrase.node (some .body) .caseArm caseArm
  .take none <|
  .operand (some .value) .assign <|
  .expect .ofWord <|
  .choose (.within .identifier)
    (arm <|
      .loop (.both (.within (.only .semicolon)) (.ahead .identifier))
        (.take none <| arm .done) .done)
    .done <|
  .choose (.within (.only .semicolon)) (.take none .done) .done <|
  .expect .esacWord .done

def newObject : Phrase :=
  .take none <| .word (some .type) .typeName .done

def parenthesized : Phrase :=
  .take none <| .operand none .assign <| .expect .rightParen .done

/-- The first construct of an expression, by the next two tokens. -/
def opening (current upcoming : TokenKind) : Phrase :=
  let construct kind body := Phrase.node none kind body .done
  match current with
  | .identifier | .typeIdentifier =>
    if upcoming = .terminal .assign then construct .assignmentExpression assignment
    else if upcoming = .terminal .leftParen then construct .dispatchExpression call
    else .word none .identifier .done
  | .selfWord | .integer => .take none .done
  | .string _ _ => .literal .done
  | .terminal .trueWord | .terminal .falseWord => construct .booleanLiteral (.take none .done)
  | .terminal .ifWord => construct .ifExpression conditional
  | .terminal .whileWord => construct .whileExpression whileLoop
  | .terminal .leftBrace => construct .block block
  | .terminal .letWord => construct .letExpression letIn
  | .terminal .caseWord => construct .caseExpression caseOf
  | .terminal .newWord => construct .newExpression newObject
  | .terminal .isvoidWord => construct .isvoidExpression (unary .isvoid)
  | .terminal .notWord => construct .notExpression (unary .negation)
  | .terminal .tilde => construct .unaryExpression (unary .comp)
  | .terminal .leftParen => construct .parenthesizedExpression parenthesized
  | kind =>
    if kind.isSynchronizing then .absent .done
    else .skip (.either .synchronizing .expressionStart) .done

end CoolTree.Phrase
