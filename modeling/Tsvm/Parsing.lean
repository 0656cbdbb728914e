import Tsvm.Ast
import Tsvm.Lexing

set_option autoImplicit false

/-!
# The parser

The recursive descent of the source as computations on its cursor. Expressions,
types and statements are nested at most as deep as there are tokens, and every
turn of a loop reads a token, so both get budgets by the tokens that are left.
-/
namespace Tsvm.Parsing
open Ast Lexing

structure Parser where
  tokens : List Token
  cursor : ℕ
  diagnostics : List ParseDiagnostic

structure ParseOutput where
  program : Program
  diagnostics : List ParseDiagnostic

abbrev Parse (α : Type) := StateM Parser α

def isPrintable (ch : Char) : Bool :=
  !(ch.toNat < 0x20 || (0x7f ≤ ch.toNat && ch.toNat < 0xa0) || ch.toNat = 0xad)

/-- The escapes of Rust's `Debug` for strings, exact up to U+00FF. The tables of the standard
    library for the code points above are left out: such a character is copied. -/
def debugChar (ch : Char) : String :=
  match ch with
  | '\x00' => "\\0"
  | '\t' => "\\t"
  | '\r' => "\\r"
  | '\n' => "\\n"
  | '"' => "\\\""
  | '\\' => "\\\\"
  | other =>
    if isPrintable other then other.toString
    else "\\u\x7b" ++ String.ofList (Nat.toDigits 16 other.toNat) ++ "\x7d"

def debugString (text : String) : String :=
  "\"" ++ String.join (text.toList.map debugChar) ++ "\""

/-- The name of a token kind as `Debug` prints it. -/
def debugKind : TokenKind → String
  | .identifier name => "Identifier(" ++ debugString name ++ ")"
  | .numberLiteral value => "NumberLiteral(" ++ debugString value ++ ")"
  | .stringLiteral value => "StringLiteral(" ++ debugString value ++ ")"
  | .booleanLiteral value => "BooleanLiteral(" ++ (if value then "true" else "false") ++ ")"
  | .let => "Let"
  | .const => "Const"
  | .var => "Var"
  | .function => "Function"
  | .interface => "Interface"
  | .type => "Type"
  | .class => "Class"
  | .import => "Import"
  | .export => "Export"
  | .from => "From"
  | .if => "If"
  | .else => "Else"
  | .switch => "Switch"
  | .case => "Case"
  | .default => "Default"
  | .for => "For"
  | .while => "While"
  | .do => "Do"
  | .try => "Try"
  | .catch => "Catch"
  | .finally => "Finally"
  | .throw => "Throw"
  | .return => "Return"
  | .new => "New"
  | .as => "As"
  | .extends => "Extends"
  | .implements => "Implements"
  | .numberType => "NumberType"
  | .stringType => "StringType"
  | .booleanType => "BooleanType"
  | .null => "Null"
  | .undefined => "Undefined"
  | .plus => "Plus"
  | .minus => "Minus"
  | .star => "Star"
  | .slash => "Slash"
  | .percent => "Percent"
  | .equals => "Equals"
  | .plusEquals => "PlusEquals"
  | .minusEquals => "MinusEquals"
  | .starEquals => "StarEquals"
  | .slashEquals => "SlashEquals"
  | .percentEquals => "PercentEquals"
  | .equalsEquals => "EqualsEquals"
  | .strictEquals => "StrictEquals"
  | .bangEquals => "BangEquals"
  | .strictBangEquals => "StrictBangEquals"
  | .bang => "Bang"
  | .less => "Less"
  | .lessEquals => "LessEquals"
  | .greater => "Greater"
  | .greaterEquals => "GreaterEquals"
  | .andAnd => "AndAnd"
  | .pipePipe => "PipePipe"
  | .questionQuestion => "QuestionQuestion"
  | .arrow => "Arrow"
  | .colon => "Colon"
  | .semicolon => "Semicolon"
  | .comma => "Comma"
  | .dot => "Dot"
  | .question => "Question"
  | .leftParen => "LeftParen"
  | .rightParen => "RightParen"
  | .leftBrace => "LeftBrace"
  | .rightBrace => "RightBrace"
  | .leftBracket => "LeftBracket"
  | .rightBracket => "RightBracket"

namespace Parser

def peek (s : Parser) : Option Token := s.tokens[s.cursor]?

def peekKind (s : Parser) : Option TokenKind := s.peek.map Token.kind

def isAtEnd (s : Parser) : Bool := s.tokens.length ≤ s.cursor

def remaining (s : Parser) : ℕ := s.tokens.length - s.cursor

def fallbackPosition (s : Parser) : Position :=
  match s.tokens.getLast? with
  | some token => token.span.end
  | none => ⟨0, 1, 1⟩

def currentStart (s : Parser) : Position :=
  match s.peek with
  | some token => token.span.start
  | none => s.fallbackPosition

def previousEnd (s : Parser) (fallback : Position) : Position :=
  match s.cursor with
  | 0 => fallback
  | index + 1 =>
    match s.tokens[index]? with
    | some token => token.span.end
    | none => fallback

/-- Only kinds without a text are checked for, so their discriminants are the kinds. -/
def check (s : Parser) (expected : TokenKind) : Bool := s.peekKind = some expected

end Parser

def errorAt (span : Span) (message : String) : Parse Unit :=
  modify fun s => { s with diagnostics := s.diagnostics ++ [⟨message, span⟩] }

def errorHere (message : String) : Parse Unit := do
  let position := (← get).currentStart
  errorAt ⟨position, position⟩ message

def advance : Parse (Option Token) := do
  let s ← get
  match s.peek with
  | some token => do
    set { s with cursor := s.cursor + 1 }
    pure (some token)
  | none => pure none

def matchKind (expected : TokenKind) : Parse Bool := do
  if (← get).check expected then do
    let _ ← advance
    pure true
  else pure false

def expect (expected : TokenKind) (label : String) : Parse Unit := do
  if (← get).check expected then do
    let _ ← advance
  else errorHere ("expected " ++ label)

def expectAny (label : String) : Parse Token := do
  match ← advance with
  | some token => pure token
  | none => do
    let position := (← get).fallbackPosition
    errorAt ⟨position, position⟩ ("expected " ++ label)
    pure ⟨.semicolon, ⟨position, position⟩⟩

def consumeIdentifier (expected : String) : Parse (Option String) := do
  match ← advance with
  | some ⟨.identifier name, _⟩ => pure (some name)
  | some token => do
    errorAt token.span ("expected " ++ expected)
    pure none
  | none => do
    errorHere ("expected " ++ expected)
    pure none

def consumePropertyName (expected : String) : Parse (Option String) := do
  match ← advance with
  | some ⟨.identifier name, _⟩ => pure (some name)
  | some ⟨.stringLiteral name, _⟩ => pure (some name)
  | some ⟨.numberLiteral name, _⟩ => pure (some name)
  | some token => do
    errorAt token.span ("expected " ++ expected)
    pure none
  | none => do
    errorHere ("expected " ++ expected)
    pure none

def consumeOptionalSemicolon : Parse (Option Position) := do
  if ← matchKind .semicolon then do
    let s ← get
    pure (some (s.previousEnd s.fallbackPosition))
  else pure none

/-- The end of a construct that may be closed by a semicolon. -/
def endOrPrevious («end» : Option Position) (start : Position) : Parse Position := do
  match «end» with
  | some position => pure position
  | none => pure ((← get).previousEnd start)

def errorExpression : Parse Expression := do
  let position := (← get).fallbackPosition
  errorAt ⟨position, position⟩ "expected expression"
  pure (.error ⟨position, position⟩)

def errorType (start : Position) : TypeNode := .named "<error>" ⟨start, start⟩

/-- `while !self.check(close) && !self.is_at_end()`, where a turn may also break. -/
def loopUntil {α : Type} (close : TokenKind) (turn : Parse (Option α × Bool)) :
    ℕ → List α → Parse (List α)
  | 0, items => pure items
  | turns + 1, items => do
    let s ← get
    if s.check close || s.isAtEnd then pure items
    else do
      let (item, goOn) ← turn
      let items := items ++ item.toList
      if goOn then loopUntil close turn turns items else pure items

def listUntil {α : Type} (close : TokenKind) (turn : Parse (Option α × Bool)) :
    Parse (List α) := do
  loopUntil close turn ((← get).remaining + 1) []

def typeMember (type : Parse TypeNode) : Parse (Option TypeMember × Bool) := do
  let start := (← get).currentStart
  let name ← consumePropertyName "type member name"
  expect .colon "colon after type member name"
  let ty ← type
  let «end» ←
    match ← consumeOptionalSemicolon with
    | some position => pure position
    | none => do
      let _ ← matchKind .comma
      pure ((← get).previousEnd start)
  pure (some (.mk (name.getD "<error>") ty ⟨start, «end»⟩), true)

def arraySuffixes (start : Position) : ℕ → TypeNode → Parse TypeNode
  | 0, ty => pure ty
  | turns + 1, ty => do
    if ← matchKind .leftBracket then do
      expect .rightBracket "closing array type suffix"
      let «end» := (← get).previousEnd start
      arraySuffixes start turns (.array ty ⟨start, «end»⟩)
    else pure ty

def parseType : ℕ → Parse TypeNode
  | 0 => do pure (errorType (← get).currentStart)
  | fuel + 1 => do
    let start := (← get).currentStart
    match ← advance with
    | none => do
      errorHere "expected type"
      pure (errorType start)
    | some token => do
      let ty ←
        match token.kind with
        | .numberType => pure (.number token.span)
        | .stringType => pure (.string token.span)
        | .booleanType => pure (.boolean token.span)
        | .null => pure (.null token.span)
        | .undefined => pure (.undefined token.span)
        | .identifier name => pure (.named name token.span)
        | .leftBrace => do
          let members ← listUntil .rightBrace (typeMember (parseType fuel))
          expect .rightBrace "closing object type"
          pure (.object members ⟨start, (← get).previousEnd start⟩)
        | unexpected => do
          errorAt token.span ("expected type, found " ++ debugKind unexpected)
          pure (errorType token.span.start)
      arraySuffixes start ((← get).remaining + 1) ty

def parseAnyType : Parse TypeNode := do parseType ((← get).remaining + 1)

def parseTypeMembers : Parse (List TypeMember) := do
  expect .leftBrace "type member list"
  let members ← listUntil .rightBrace (typeMember parseAnyType)
  expect .rightBrace "closing type member list"
  pure members

def optionalType : Parse (Option TypeNode) := do
  if ← matchKind .colon then do
    let ty ← parseAnyType
    pure (some ty)
  else pure none

section Expressions

variable (expression : Parse Expression)

def argument : Parse (Option Expression × Bool) := do
  let value ← expression
  let goOn ← matchKind .comma
  pure (some value, goOn)

def objectProperty : Parse (Option ObjectProperty × Bool) := do
  let start := (← get).currentStart
  let name ← consumePropertyName "object property name"
  expect .colon "colon after object property name"
  let value ← expression
  let goOn ← matchKind .comma
  pure (some (.mk (name.getD "<error>") value ⟨start, value.span.end⟩), goOn)

def finishObjectExpression (start : Position) : Parse Expression := do
  let properties ← listUntil .rightBrace (objectProperty expression)
  expect .rightBrace "closing object literal"
  pure (.object properties ⟨start, (← get).previousEnd start⟩)

def finishArrayExpression (start : Position) : Parse Expression := do
  let elements ← listUntil .rightBracket (argument expression)
  expect .rightBracket "closing array literal"
  pure (.array elements ⟨start, (← get).previousEnd start⟩)

def parsePrimary : Parse Expression := do
  match ← advance with
  | none => errorExpression
  | some token =>
    match token.kind with
    | .identifier name => pure (.identifier name token.span)
    | .numberLiteral value => pure (.number value token.span)
    | .stringLiteral value => pure (.string value token.span)
    | .booleanLiteral value => pure (.boolean value token.span)
    | .null => pure (.null token.span)
    | .undefined => pure (.undefined token.span)
    | .leftParen => do
      let inner ← expression
      expect .rightParen "closing parenthesized expression"
      pure inner
    | .leftBrace => finishObjectExpression expression token.span.start
    | .leftBracket => finishArrayExpression expression token.span.start
    | unexpected => do
      errorAt token.span ("expected expression, found " ++ debugKind unexpected)
      pure (.error token.span)

def callMemberLoop : ℕ → Expression → Parse Expression
  | 0, value => pure value
  | turns + 1, value => do
    let start := value.span.start
    if ← matchKind .dot then do
      let property ← consumeIdentifier "member property name"
      let «end» := (← get).previousEnd start
      callMemberLoop turns (.member value (property.getD "<error>") ⟨start, «end»⟩)
    else if ← matchKind .leftParen then do
      let arguments ← listUntil .rightParen (argument expression)
      expect .rightParen "closing call arguments"
      let «end» := (← get).previousEnd start
      callMemberLoop turns (.call value arguments ⟨start, «end»⟩)
    else pure value

def parseCallMember : Parse Expression := do
  let value ← parsePrimary expression
  callMemberLoop expression ((← get).remaining + 1) value

def unaryOperator : TokenKind → Option UnaryOperator
  | .bang => some .not
  | .minus => some .negate
  | _ => none

def parseUnary : ℕ → Parse Expression
  | 0 => errorExpression
  | turns + 1 => do
    match (← get).peek with
    | none => errorExpression
    | some token =>
      match unaryOperator token.kind with
      | some operator => do
        let _ ← advance
        let argument ← parseUnary turns
        pure (.unary operator argument ⟨token.span.start, argument.span.end⟩)
      | none => parseCallMember expression

def binaryOperator : TokenKind → Option (BinaryOperator × ℕ)
  | .pipePipe => some (.logicalOr, 1)
  | .questionQuestion => some (.nullishCoalesce, 1)
  | .andAnd => some (.logicalAnd, 2)
  | .equalsEquals => some (.equal, 3)
  | .strictEquals => some (.strictEqual, 3)
  | .bangEquals => some (.notEqual, 3)
  | .strictBangEquals => some (.strictNotEqual, 3)
  | .less => some (.less, 4)
  | .lessEquals => some (.lessEqual, 4)
  | .greater => some (.greater, 4)
  | .greaterEquals => some (.greaterEqual, 4)
  | .plus => some (.add, 5)
  | .minus => some (.subtract, 5)
  | .star => some (.multiply, 6)
  | .slash => some (.divide, 6)
  | .percent => some (.remainder, 6)
  | _ => none

def assignmentOperator : TokenKind → Option AssignmentOperator
  | .equals => some .assign
  | .plusEquals => some .addAssign
  | .minusEquals => some .subtractAssign
  | .starEquals => some .multiplyAssign
  | .slashEquals => some .divideAssign
  | .percentEquals => some .remainderAssign
  | _ => none

mutual

def parseBinary : ℕ → ℕ → Parse Expression
  | 0, _ => errorExpression
  | turns + 1, minPrecedence => do
    let left ← parseUnary expression ((← get).remaining + 1)
    binaryLoop turns minPrecedence left

def binaryLoop : ℕ → ℕ → Expression → Parse Expression
  | 0, _, left => pure left
  | turns + 1, minPrecedence, left => do
    match (← get).peekKind.bind binaryOperator with
    | none => pure left
    | some (operator, precedence) =>
      if precedence < minPrecedence then pure left
      else do
        let _ ← advance
        let right ← parseBinary turns (precedence + 1)
        binaryLoop turns minPrecedence
          (.binary left operator right ⟨left.span.start, right.span.end⟩)

end

/-- A token costs the two functions above a turn each. -/
def parseAssignment : Parse Expression := do
  let left ← parseBinary expression (2 * (← get).remaining + 2) 0
  match (← get).peekKind.bind assignmentOperator with
  | none => pure left
  | some operator => do
    let _ ← advance
    let right ← expression
    pure (.assignment left operator right ⟨left.span.start, right.span.end⟩)

end Expressions

def parseExpressionWithin : ℕ → Parse Expression
  | 0 => errorExpression
  | fuel + 1 => parseAssignment (parseExpressionWithin fuel)

def parseExpression : Parse Expression := do parseExpressionWithin ((← get).remaining + 1)

def optionalInitializer : Parse (Option Expression) := do
  if ← matchKind .equals then do
    let value ← parseExpression
    pure (some value)
  else pure none

def parseImport : Parse Statement := do
  let start := (← expectAny "import declaration start").span.start
  let names ←
    if ← matchKind .leftBrace then do
      let names ← listUntil .rightBrace (do
        let name ← consumeIdentifier "import binding"
        let goOn ← matchKind .comma
        pure (name, goOn))
      expect .rightBrace "closing import brace"
      pure names
    else do
      let name ← consumeIdentifier "default import binding"
      pure name.toList
  expect .from "`from` in import declaration"
  let «from» ←
    match ← advance with
    | some ⟨.stringLiteral value, _⟩ => pure value
    | some token => do
      errorAt token.span "expected string module specifier"
      pure ""
    | none => do
      errorHere "expected string module specifier"
      pure ""
  let «end» ← endOrPrevious (← consumeOptionalSemicolon) start
  pure (.import ⟨names, «from»⟩ ⟨start, «end»⟩)

def parseInterface : Parse Statement := do
  let start := (← expectAny "interface declaration start").span.start
  let name ← consumeIdentifier "interface name"
  let members ← parseTypeMembers
  pure (.interface ⟨name.getD "<error>", members⟩ ⟨start, (← get).previousEnd start⟩)

def parseTypeAlias : Parse Statement := do
  let start := (← expectAny "type alias start").span.start
  let name ← consumeIdentifier "type alias name"
  expect .equals "`=` in type alias"
  let ty ← parseAnyType
  let «end» ← endOrPrevious (← consumeOptionalSemicolon) start
  pure (.typeAlias ⟨name.getD "<error>", ty⟩ ⟨start, «end»⟩)

def synchronizeMember : ℕ → Parse Unit
  | 0 => pure ()
  | turns + 1 => do
    if (← get).isAtEnd then pure ()
    else if ← matchKind .semicolon then pure ()
    else if ← matchKind .comma then pure ()
    else if (← get).check .rightBrace then pure ()
    else do
      let _ ← advance
      synchronizeMember turns

def classMember : Parse (Option ClassMember × Bool) := do
  let start := (← get).currentStart
  match ← consumeIdentifier "class member name" with
  | none => do
    synchronizeMember ((← get).remaining + 1)
    pure (none, true)
  | some name => do
    let ty ← optionalType
    let initializer ← optionalInitializer
    let «end» ← endOrPrevious (← consumeOptionalSemicolon) start
    pure (some ⟨name, ty, initializer, ⟨start, «end»⟩⟩, true)

def parseClass : Parse Statement := do
  let start := (← expectAny "class declaration start").span.start
  let name ← consumeIdentifier "class name"
  expect .leftBrace "class body"
  let members ← listUntil .rightBrace classMember
  expect .rightBrace "closing class body"
  pure (.class ⟨name.getD "<error>", members⟩ ⟨start, (← get).previousEnd start⟩)

def parameter : Parse (Option Parameter × Bool) := do
  let start := (← get).currentStart
  let name ← consumeIdentifier "parameter name"
  let ty ← optionalType
  let «end» := (← get).previousEnd start
  let goOn ← matchKind .comma
  pure (some ⟨name.getD "<error>", ty, ⟨start, «end»⟩⟩, goOn)

def parseParameters : Parse (List Parameter) := do
  expect .leftParen "parameter list"
  let params ← listUntil .rightParen parameter
  expect .rightParen "closing parameter list"
  pure params

/-- The caller has seen one of the three keywords. -/
def variableKind : TokenKind → VariableKind
  | .const => .const
  | .var => .var
  | _ => .let

def parseVariable (consumeSemicolon : Bool) : Parse Statement := do
  let startToken ← expectAny "variable declaration start"
  let start := startToken.span.start
  let name ← consumeIdentifier "variable name"
  let ty ← optionalType
  let initializer ← optionalInitializer
  let «end» ← if consumeSemicolon then consumeOptionalSemicolon else pure none
  let «end» ← endOrPrevious «end» start
  pure (.variable ⟨variableKind startToken.kind, name.getD "<error>", ty, initializer⟩
    ⟨start, «end»⟩)

def parseReturn : Parse Statement := do
  let start := (← expectAny "return statement start").span.start
  let s ← get
  let value ←
    if s.check .semicolon || s.check .rightBrace then pure none
    else do
      let value ← parseExpression
      pure (some value)
  let «end» ← endOrPrevious (← consumeOptionalSemicolon) start
  pure (.return value ⟨start, «end»⟩)

def parseThrow : Parse Statement := do
  let start := (← expectAny "throw statement start").span.start
  let value ← parseExpression
  let «end» ← endOrPrevious (← consumeOptionalSemicolon) start
  pure (.throw value ⟨start, «end»⟩)

def parseExpressionStatementWithoutSemicolon : Parse Statement := do
  let value ← parseExpression
  pure (.expression value value.span)

def parseExpressionStatement : Parse Statement := do
  let statement ← parseExpressionStatementWithoutSemicolon
  let _ ← consumeOptionalSemicolon
  pure statement

section Statements

variable (statement : Parse Statement)

def parseExport : Parse Statement := do
  let start := (← expectAny "export declaration start").span.start
  let inner ← statement
  pure (.export inner ⟨start, inner.span.end⟩)

def parseBlockBody : Parse (List Statement × Span) := do
  let start := (← get).currentStart
  expect .leftBrace "block start"
  let body ← listUntil .rightBrace (do
    let inner ← statement
    pure (some inner, true))
  expect .rightBrace "block end"
  pure (body, ⟨start, (← get).previousEnd start⟩)

def parseBlockStatement : Parse Statement := do
  let (body, span) ← parseBlockBody statement
  pure (.block body span)

def parseFunction : Parse Statement := do
  let start := (← expectAny "function declaration start").span.start
  let name ← consumeIdentifier "function name"
  let params ← parseParameters
  let returnType ← optionalType
  let (body, span) ← parseBlockBody statement
  pure (.function ⟨name.getD "<error>", params, returnType, body⟩ ⟨start, span.end⟩)

def parseIf : Parse Statement := do
  let start := (← expectAny "if statement start").span.start
  expect .leftParen "if condition"
  let test ← parseExpression
  expect .rightParen "closing if condition"
  let consequent ← statement
  let alternate ←
    if ← matchKind .else then do
      let alternate ← statement
      pure (some alternate)
    else pure none
  let «end» := (alternate.getD consequent).span.end
  pure (.if test consequent alternate ⟨start, «end»⟩)

def parseWhile : Parse Statement := do
  let start := (← expectAny "while statement start").span.start
  expect .leftParen "while condition"
  let test ← parseExpression
  expect .rightParen "closing while condition"
  let body ← statement
  pure (.while test body ⟨start, body.span.end⟩)

def isVariableKeyword (kind : Option TokenKind) : Bool :=
  kind = some .let || kind = some .const || kind = some .var

def forInitializer : Parse (Option Statement) := do
  if ← matchKind .semicolon then pure none
  else if isVariableKeyword (← get).peekKind then do
    let declaration ← parseVariable false
    pure (some declaration)
  else do
    let value ← parseExpressionStatementWithoutSemicolon
    pure (some value)

def forPart (close : TokenKind) : Parse (Option Expression) := do
  if (← get).check close then pure none
  else do
    let value ← parseExpression
    pure (some value)

def parseFor : Parse Statement := do
  let start := (← expectAny "for statement start").span.start
  expect .leftParen "for header"
  let initializer ← forInitializer
  expect .semicolon "semicolon after for initializer"
  let test ← forPart .semicolon
  expect .semicolon "semicolon after for test"
  let update ← forPart .rightParen
  expect .rightParen "closing for header"
  let body ← statement
  pure (.for initializer test update body ⟨start, body.span.end⟩)

def parseEmpty : Parse Statement := do
  match ← advance with
  | some token => pure (.empty token.span)
  | none => pure (.empty ⟨(← get).fallbackPosition, (← get).fallbackPosition⟩)

def parseStatementWith : Parse Statement := do
  match (← get).peekKind with
  | some .import => parseImport
  | some .export => parseExport statement
  | some .interface => parseInterface
  | some .type => parseTypeAlias
  | some .class => parseClass
  | some .function => parseFunction statement
  | some .let | some .const | some .var => parseVariable true
  | some .return => parseReturn
  | some .throw => parseThrow
  | some .if => parseIf statement
  | some .while => parseWhile statement
  | some .for => parseFor statement
  | some .leftBrace => parseBlockStatement statement
  | some .semicolon => parseEmpty
  | _ => parseExpressionStatement

end Statements

def parseStatementWithin : ℕ → Parse Statement
  | 0 => parseExpressionStatement
  | fuel + 1 => parseStatementWith (parseStatementWithin fuel)

def parseStatement : Parse Statement := do parseStatementWithin ((← get).remaining + 1)

def mergeStatementSpans (body : List Statement) : Option Span :=
  match body.head?, body.getLast? with
  | some first, some last => some ⟨first.span.start, last.span.end⟩
  | _, _ => none

def programLoop : ℕ → List Statement → Parse (List Statement)
  | 0, body => pure body
  | turns + 1, body => do
    let s ← get
    if s.isAtEnd then pure body
    else do
      let statement ← parseStatement
      if (← get).cursor = s.cursor then do
        errorHere "parser made no progress"
        let _ ← advance
      programLoop turns (body ++ [statement])

def parseProgram (tokens : List Token) : ParseOutput :=
  let (body, s) := (programLoop (tokens.length + 1) []).run ⟨tokens, 0, []⟩
  ⟨⟨body, mergeStatementSpans body⟩, s.diagnostics⟩

def diagnosticFromLexError (error : LexError) : ParseDiagnostic := ⟨error.message, error.span⟩

def parseSource (source : String) : ParseOutput :=
  match lex source with
  | .ok tokens => parseProgram tokens
  | .error error => ⟨⟨[], none⟩, [diagnosticFromLexError error]⟩

end Tsvm.Parsing
