import Tsvm.Diagnostics

set_option autoImplicit false

/-!
# The syntax tree

Every node carries its span as the last argument of its constructor.
-/
namespace Tsvm.Ast

inductive VariableKind where
  | let
  | const
  | var
  deriving Repr, DecidableEq

inductive UnaryOperator where
  | negate
  | not
  deriving Repr, DecidableEq

inductive BinaryOperator where
  | add
  | subtract
  | multiply
  | divide
  | remainder
  | equal
  | strictEqual
  | notEqual
  | strictNotEqual
  | less
  | lessEqual
  | greater
  | greaterEqual
  | logicalAnd
  | logicalOr
  | nullishCoalesce
  deriving Repr, DecidableEq

inductive AssignmentOperator where
  | assign
  | addAssign
  | subtractAssign
  | multiplyAssign
  | divideAssign
  | remainderAssign
  deriving Repr, DecidableEq

mutual

inductive TypeNode where
  | number (span : Span)
  | string (span : Span)
  | boolean (span : Span)
  | null (span : Span)
  | undefined (span : Span)
  | named (name : String) (span : Span)
  | array (inner : TypeNode) (span : Span)
  | object (members : List TypeMember) (span : Span)

inductive TypeMember where
  | mk (name : String) (ty : TypeNode) (span : Span)

end

mutual

inductive Expression where
  | identifier (name : String) (span : Span)
  | number (value : String) (span : Span)
  | string (value : String) (span : Span)
  | boolean (value : Bool) (span : Span)
  | null (span : Span)
  | undefined (span : Span)
  | object (properties : List ObjectProperty) (span : Span)
  | array (elements : List Expression) (span : Span)
  | member (object : Expression) (property : String) (span : Span)
  | call (callee : Expression) (arguments : List Expression) (span : Span)
  | unary (operator : UnaryOperator) (argument : Expression) (span : Span)
  | binary (left : Expression) (operator : BinaryOperator) (right : Expression) (span : Span)
  | assignment (left : Expression) (operator : AssignmentOperator) (right : Expression)
      (span : Span)
  | error (span : Span)

inductive ObjectProperty where
  | mk (name : String) (value : Expression) (span : Span)

end

structure ImportDeclaration where
  names : List String
  «from» : String
  deriving Repr, DecidableEq

structure InterfaceDeclaration where
  name : String
  members : List TypeMember

structure TypeAliasDeclaration where
  name : String
  ty : TypeNode

structure ClassMember where
  name : String
  ty : Option TypeNode
  initializer : Option Expression
  span : Span

structure ClassDeclaration where
  name : String
  members : List ClassMember

structure Parameter where
  name : String
  ty : Option TypeNode
  span : Span

structure VariableDeclaration where
  kind : VariableKind
  name : String
  ty : Option TypeNode
  initializer : Option Expression

/-- The body is a list of statements; the parameter ties the knot with `Statement`. -/
structure FunctionDeclarationOf (σ : Type) where
  name : String
  params : List Parameter
  returnType : Option TypeNode
  body : List σ

inductive Statement where
  | import (declaration : ImportDeclaration) (span : Span)
  | export (inner : Statement) (span : Span)
  | interface (declaration : InterfaceDeclaration) (span : Span)
  | typeAlias (declaration : TypeAliasDeclaration) (span : Span)
  | class (declaration : ClassDeclaration) (span : Span)
  | function (declaration : FunctionDeclarationOf Statement) (span : Span)
  | variable (declaration : VariableDeclaration) (span : Span)
  | return (value : Option Expression) (span : Span)
  | throw (value : Expression) (span : Span)
  | if (test : Expression) (consequent : Statement) (alternate : Option Statement) (span : Span)
  | while (test : Expression) (body : Statement) (span : Span)
  | for (initializer : Option Statement) (test update : Option Expression) (body : Statement)
      (span : Span)
  | block (body : List Statement) (span : Span)
  | expression (value : Expression) (span : Span)
  | empty (span : Span)
  | error (span : Span)

abbrev FunctionDeclaration := FunctionDeclarationOf Statement

structure Program where
  body : List Statement
  span : Option Span

def TypeNode.span : TypeNode → Span
  | .number span | .string span | .boolean span | .null span | .undefined span
  | .named _ span | .array _ span | .object _ span => span

def Expression.span : Expression → Span
  | .identifier _ span | .number _ span | .string _ span | .boolean _ span | .null span
  | .undefined span | .object _ span | .array _ span | .member _ _ span | .call _ _ span
  | .unary _ _ span | .binary _ _ _ span | .assignment _ _ _ span | .error span => span

def Statement.span : Statement → Span
  | .import _ span | .export _ span | .interface _ span | .typeAlias _ span | .class _ span
  | .function _ span | .variable _ span | .return _ span | .throw _ span | .if _ _ _ span
  | .while _ _ span | .for _ _ _ _ span | .block _ span | .expression _ span | .empty span
  | .error span => span

end Tsvm.Ast
