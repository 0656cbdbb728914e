import Tsvm.Relocation

set_option autoImplicit false

/-!
# Printed programs

A program as the tokens of the language: operands in parentheses where they bind
too loosely, braces around an `if` that would take the `else` of another one, and
parentheses around a statement's expression that starts with a brace.
-/
namespace Tsvm.Printing
open Ast Lexing

def kinds (w : List Token) : List TokenKind := w.map Token.kind

/-- Every position is the same one: what a tree is up to its spans. -/
def nowhere (_ : Position) : Position := ⟨0, 0, 0⟩

def separated : List (List TokenKind) → List TokenKind
  | [] => []
  | [item] => item
  | item :: items => item ++ .comma :: separated items

mutual

def typeKinds : TypeNode → List TokenKind
  | .number _ => [.numberType]
  | .string _ => [.stringType]
  | .boolean _ => [.booleanType]
  | .null _ => [.null]
  | .undefined _ => [.undefined]
  | .named name _ => [.identifier name]
  | .array inner _ => typeKinds inner ++ [.leftBracket, .rightBracket]
  | .object members _ => .leftBrace :: (membersKinds members ++ [.rightBrace])

def memberKinds : TypeMember → List TokenKind
  | .mk name ty _ => .identifier name :: .colon :: (typeKinds ty ++ [.semicolon])

def membersKinds : List TypeMember → List TokenKind
  | [] => []
  | member :: members => memberKinds member ++ membersKinds members

end

def unaryKind : UnaryOperator → TokenKind
  | .negate => .minus
  | .not => .bang

def binaryKind : BinaryOperator → TokenKind
  | .add => .plus
  | .subtract => .minus
  | .multiply => .star
  | .divide => .slash
  | .remainder => .percent
  | .equal => .equalsEquals
  | .strictEqual => .strictEquals
  | .notEqual => .bangEquals
  | .strictNotEqual => .strictBangEquals
  | .less => .less
  | .lessEqual => .lessEquals
  | .greater => .greater
  | .greaterEqual => .greaterEquals
  | .logicalAnd => .andAnd
  | .logicalOr => .pipePipe
  | .nullishCoalesce => .questionQuestion

def assignmentKind : AssignmentOperator → TokenKind
  | .assign => .equals
  | .addAssign => .plusEquals
  | .subtractAssign => .minusEquals
  | .multiplyAssign => .starEquals
  | .divideAssign => .slashEquals
  | .remainderAssign => .percentEquals

def precedence : BinaryOperator → ℕ
  | .logicalOr | .nullishCoalesce => 1
  | .logicalAnd => 2
  | .equal | .strictEqual | .notEqual | .strictNotEqual => 3
  | .less | .lessEqual | .greater | .greaterEqual => 4
  | .add | .subtract => 5
  | .multiply | .divide | .remainder => 6

/-- How tightly an expression binds. -/
def level : Expression → ℕ
  | .assignment .. => 0
  | .binary _ operator _ _ => precedence operator
  | .unary .. => 7
  | _ => 8

/-- The tokens of an operand, in parentheses where it has to bind more tightly. -/
def operandKinds (least : ℕ) (value : Expression) (tokens : List TokenKind) : List TokenKind :=
  if level value < least then .leftParen :: (tokens ++ [.rightParen]) else tokens

mutual

def expressionKinds : Expression → List TokenKind
  | .identifier name _ => [.identifier name]
  | .number value _ => [.numberLiteral value]
  | .string value _ => [.stringLiteral value]
  | .boolean value _ => [.booleanLiteral value]
  | .null _ => [.null]
  | .undefined _ => [.undefined]
  | .object properties _ => .leftBrace :: (separated (propertiesKinds properties) ++ [.rightBrace])
  | .array elements _ => .leftBracket :: (separated (expressionsKinds elements) ++ [.rightBracket])
  | .member object property _ =>
    operandKinds 8 object (expressionKinds object) ++ [.dot, .identifier property]
  | .call callee arguments _ =>
    operandKinds 8 callee (expressionKinds callee) ++
      .leftParen :: (separated (expressionsKinds arguments) ++ [.rightParen])
  | .unary operator argument _ =>
    unaryKind operator :: operandKinds 7 argument (expressionKinds argument)
  | .binary left operator right _ =>
    operandKinds (precedence operator) left (expressionKinds left) ++
      binaryKind operator :: operandKinds (precedence operator + 1) right (expressionKinds right)
  | .assignment left operator right _ =>
    operandKinds 1 left (expressionKinds left) ++ assignmentKind operator :: expressionKinds right
  | .error _ => []

def propertyKinds : ObjectProperty → List TokenKind
  | .mk name value _ => .identifier name :: .colon :: expressionKinds value

def propertiesKinds : List ObjectProperty → List (List TokenKind)
  | [] => []
  | property :: properties => propertyKinds property :: propertiesKinds properties

def expressionsKinds : List Expression → List (List TokenKind)
  | [] => []
  | value :: values => expressionKinds value :: expressionsKinds values

end

def optionalTypeKinds : Option TypeNode → List TokenKind
  | none => []
  | some ty => .colon :: typeKinds ty

def optionalInitializerKinds : Option Expression → List TokenKind
  | none => []
  | some value => .equals :: expressionKinds value

def optionalKinds : Option Expression → List TokenKind
  | none => []
  | some value => expressionKinds value

def parameterKinds (param : Parameter) : List TokenKind :=
  .identifier param.name :: optionalTypeKinds param.ty

def classMemberKinds (member : ClassMember) : List TokenKind :=
  .identifier member.name ::
    (optionalTypeKinds member.ty ++ (optionalInitializerKinds member.initializer ++ [.semicolon]))

def classMembersKinds : List ClassMember → List TokenKind
  | [] => []
  | member :: members => classMemberKinds member ++ classMembersKinds members

def variableKeyword : VariableKind → TokenKind
  | .let => .let
  | .const => .const
  | .var => .var

def variableKinds (declaration : VariableDeclaration) : List TokenKind :=
  variableKeyword declaration.kind :: .identifier declaration.name ::
    (optionalTypeKinds declaration.ty ++ optionalInitializerKinds declaration.initializer)

def initializerKinds : Option Statement → List TokenKind
  | some (.variable declaration _) => variableKinds declaration
  | some (.expression value _) => expressionKinds value
  | _ => []

def statementExpressionKinds (value : Expression) : List TokenKind :=
  if (expressionKinds value).head? = some .leftBrace then
    .leftParen :: (expressionKinds value ++ [.rightParen])
  else expressionKinds value

mutual

def statementKinds : Statement → List TokenKind
  | .import declaration _ =>
    .import :: .leftBrace :: (separated (declaration.names.map fun name => [.identifier name]) ++
      [.rightBrace, .from, .stringLiteral declaration.from, .semicolon])
  | .export inner _ => .export :: statementKinds inner
  | .interface declaration _ =>
    .interface :: .identifier declaration.name :: .leftBrace ::
      (membersKinds declaration.members ++ [.rightBrace])
  | .typeAlias declaration _ =>
    .type :: .identifier declaration.name :: .equals :: (typeKinds declaration.ty ++ [.semicolon])
  | .class declaration _ =>
    .class :: .identifier declaration.name :: .leftBrace ::
      (classMembersKinds declaration.members ++ [.rightBrace])
  | .function ⟨name, params, returnType, body⟩ _ =>
    .function :: .identifier name :: .leftParen :: (separated (params.map parameterKinds) ++
      .rightParen :: (optionalTypeKinds returnType ++ .leftBrace ::
        (statementsKinds body ++ [.rightBrace])))
  | .variable declaration _ => variableKinds declaration ++ [.semicolon]
  | .return value _ => .return :: (optionalKinds value ++ [.semicolon])
  | .throw value _ => .throw :: (expressionKinds value ++ [.semicolon])
  | .if test consequent alternate _ =>
    .if :: .leftParen :: (expressionKinds test ++
      .rightParen :: (statementKinds consequent ++ alternateKinds alternate))
  | .while test body _ =>
    .while :: .leftParen :: (expressionKinds test ++ .rightParen :: statementKinds body)
  | .for initializer test update body _ =>
    .for :: .leftParen :: (initializerKinds initializer ++ .semicolon :: (optionalKinds test ++
      .semicolon :: (optionalKinds update ++ .rightParen :: statementKinds body)))
  | .block body _ => .leftBrace :: (statementsKinds body ++ [.rightBrace])
  | .expression value _ => statementExpressionKinds value ++ [.semicolon]
  | .empty _ => [.semicolon]
  | .error _ => []

def alternateKinds : Option Statement → List TokenKind
  | none => []
  | some alternate => .else :: statementKinds alternate

def statementsKinds : List Statement → List TokenKind
  | [] => []
  | statement :: body => statementKinds statement ++ statementsKinds body

end

mutual

/-- An `else` behind the statement would be one of its own. -/
def opensElse : Statement → Bool
  | .export inner _ => opensElse inner
  | .if _ _ alternate _ => alternateOpensElse alternate
  | .while _ body _ => opensElse body
  | .for _ _ _ body _ => opensElse body
  | _ => false

def alternateOpensElse : Option Statement → Bool
  | none => true
  | some alternate => opensElse alternate

end

mutual

/-- Braces around every dangling `if`. -/
def braced : Statement → Statement
  | .export inner span => .export (braced inner) span
  | .function ⟨name, params, returnType, body⟩ span =>
    .function ⟨name, params, returnType, bracedStatements body⟩ span
  | .if test consequent alternate span =>
    .if test (if alternate.isSome && opensElse consequent then
      .block [braced consequent] consequent.span else braced consequent)
      (bracedAlternate alternate) span
  | .while test body span => .while test (braced body) span
  | .for initializer test update body span => .for initializer test update (braced body) span
  | .block body span => .block (bracedStatements body) span
  | statement => statement

def bracedAlternate : Option Statement → Option Statement
  | none => none
  | some alternate => some (braced alternate)

def bracedStatements : List Statement → List Statement
  | [] => []
  | statement :: body => braced statement :: bracedStatements body

end

mutual

def undangling : Statement → Bool
  | .export inner _ => undangling inner
  | .function ⟨_, _, _, body⟩ _ => undanglingStatements body
  | .if _ consequent alternate _ =>
    !(alternate.isSome && opensElse consequent) && undangling consequent &&
      undanglingAlternate alternate
  | .while _ body _ => undangling body
  | .for _ _ _ body _ => undangling body
  | .block body _ => undanglingStatements body
  | _ => true

def undanglingAlternate : Option Statement → Bool
  | none => true
  | some alternate => undangling alternate

def undanglingStatements : List Statement → Bool
  | [] => true
  | statement :: body => undangling statement && undanglingStatements body

end

mutual

/-- No part of the expression is an error node. -/
def complete : Expression → Bool
  | .object properties _ => completeProperties properties
  | .array elements _ => completeExpressions elements
  | .member object _ _ => complete object
  | .call callee arguments _ => complete callee && completeExpressions arguments
  | .unary _ argument _ => complete argument
  | .binary left _ right _ => complete left && complete right
  | .assignment left _ right _ => complete left && complete right
  | .error _ => false
  | _ => true

def completeProperty : ObjectProperty → Bool
  | .mk _ value _ => complete value

def completeProperties : List ObjectProperty → Bool
  | [] => true
  | property :: properties => completeProperty property && completeProperties properties

def completeExpressions : List Expression → Bool
  | [] => true
  | value :: values => complete value && completeExpressions values

end

def completeOption : Option Expression → Bool
  | none => true
  | some value => complete value

/-- A `for` is initialized by a declaration or an expression, if at all. -/
def completeInitializer : Option Statement → Bool
  | none => true
  | some (.variable declaration _) => completeOption declaration.initializer
  | some (.expression value _) => complete value
  | some _ => false

mutual

def completeStatement : Statement → Bool
  | .export inner _ => completeStatement inner
  | .class declaration _ => declaration.members.all fun member => completeOption member.initializer
  | .function ⟨_, _, _, body⟩ _ => completeStatements body
  | .variable declaration _ => completeOption declaration.initializer
  | .return value _ => completeOption value
  | .throw value _ => complete value
  | .if test consequent alternate _ =>
    complete test && completeStatement consequent && completeAlternate alternate
  | .while test body _ => complete test && completeStatement body
  | .for initializer test update body _ =>
    completeInitializer initializer && completeOption test && completeOption update &&
      completeStatement body
  | .block body _ => completeStatements body
  | .expression value _ => complete value
  | .error _ => false
  | _ => true

def completeAlternate : Option Statement → Bool
  | none => true
  | some alternate => completeStatement alternate

def completeStatements : List Statement → Bool
  | [] => true
  | statement :: body => completeStatement statement && completeStatements body

end

mutual

/-- Every `for` in the statement has an initializer. -/
def initialized : Statement → Bool
  | .export inner _ => initialized inner
  | .function ⟨_, _, _, body⟩ _ => initializedStatements body
  | .if _ consequent alternate _ => initialized consequent && initializedAlternate alternate
  | .while _ body _ => initialized body
  | .for initializer _ _ body _ => initializer.isSome && initialized body
  | .block body _ => initializedStatements body
  | _ => true

def initializedAlternate : Option Statement → Bool
  | none => true
  | some alternate => initialized alternate

def initializedStatements : List Statement → Bool
  | [] => true
  | statement :: body => initialized statement && initializedStatements body

end

end Tsvm.Printing
