import CoolTree.Token.Terminal

/-!
# Node kinds and fields

The kinds of node a syntax tree is made of. A construct, a word and a literal have a kind with a
name of its own; a token that is known by its spelling has an anonymous kind, and so has the quote
around a string. Fields are the roles a node can play in the node above it.
-/

namespace CoolTree

inductive Kind where
  | sourceFile | classItem | fieldDeclarationList | attributeDeclaration | methodDeclaration
  | parameters | parameter | typeIdentifier | primitiveType | fieldIdentifier | identifier
  | selfValue | assignmentExpression | dispatchExpression | arguments | ifExpression
  | whileExpression | block | letExpression | caseExpression | caseArm | casePattern | newExpression
  | isvoidExpression | notExpression | unaryExpression | binaryExpression | parenthesizedExpression
  | booleanLiteral | integerLiteral | stringLiteral | stringContent | escapeSequence | inlineComment
  | blockComment
  | error
  | terminal (t : Terminal)
  | quote
  deriving DecidableEq, Inhabited, Repr

namespace Kind

def name : Kind → String
  | sourceFile => "source_file"
  | classItem => "class_item"
  | fieldDeclarationList => "field_declaration_list"
  | attributeDeclaration => "attribute_declaration"
  | methodDeclaration => "method_declaration"
  | parameters => "parameters"
  | parameter => "parameter"
  | typeIdentifier => "type_identifier"
  | primitiveType => "primitive_type"
  | fieldIdentifier => "field_identifier"
  | identifier => "identifier"
  | selfValue => "self"
  | assignmentExpression => "assignment_expression"
  | dispatchExpression => "dispatch_expression"
  | arguments => "arguments"
  | ifExpression => "if_expression"
  | whileExpression => "while_expression"
  | block => "block"
  | letExpression => "let_expression"
  | caseExpression => "case_expression"
  | caseArm => "case_arm"
  | casePattern => "case_pattern"
  | newExpression => "new_expression"
  | isvoidExpression => "isvoid_expression"
  | notExpression => "not_expression"
  | unaryExpression => "unary_expression"
  | binaryExpression => "binary_expression"
  | parenthesizedExpression => "parenthesized_expression"
  | booleanLiteral => "boolean_literal"
  | integerLiteral => "integer_literal"
  | stringLiteral => "string_literal"
  | stringContent => "string_content"
  | escapeSequence => "escape_sequence"
  | inlineComment => "inline_comment"
  | blockComment => "block_comment"
  | error => "ERROR"
  | terminal t => t.spelling
  | quote => "\""

def isNamed : Kind → Bool
  | terminal _ | quote => false
  | _ => true

/-- The kinds with a name of their own, the error kind last. -/
def named : List Kind :=
  [sourceFile, classItem, fieldDeclarationList, attributeDeclaration, methodDeclaration, parameters,
    parameter, typeIdentifier, primitiveType, fieldIdentifier, identifier, selfValue,
    assignmentExpression, dispatchExpression, arguments, ifExpression, whileExpression, block,
    letExpression, caseExpression, caseArm, casePattern, newExpression, isvoidExpression,
    notExpression, unaryExpression, binaryExpression, parenthesizedExpression, booleanLiteral,
    integerLiteral, stringLiteral, stringContent, escapeSequence, inlineComment, blockComment,
    error]

/-- The kinds that are known by a spelling, words first. -/
def anonymous : List Kind :=
  Terminal.all.map terminal ++ [quote]

theorem mem_named_or_mem_anonymous (k : Kind) : k ∈ named ∨ k ∈ anonymous := by
  cases k with
  | terminal t => exact .inr (by simp [anonymous, t.mem_all])
  | quote => exact .inr (by simp [anonymous])
  | _ => exact .inl (by decide)

end Kind

inductive Field where
  | alternative | arguments | body | condition | consequence | features | inherits | left | method
  | name | operator | parameters | pattern | returnType | right | type | value
  deriving DecidableEq, Inhabited, Repr

namespace Field

def label : Field → String
  | alternative => "alternative"
  | arguments => "arguments"
  | body => "body"
  | condition => "condition"
  | consequence => "consequence"
  | features => "features"
  | inherits => "inherits"
  | left => "left"
  | method => "method"
  | name => "name"
  | operator => "operator"
  | parameters => "parameters"
  | pattern => "pattern"
  | returnType => "return_type"
  | right => "right"
  | type => "type"
  | value => "value"

def all : List Field :=
  [alternative, arguments, body, condition, consequence, features, inherits, left, method, name,
    operator, parameters, pattern, returnType, right, type, value]

theorem mem_all (f : Field) : f ∈ all := by
  cases f <;> decide

end Field

end CoolTree
