import Tsvm.Diagnostics

set_option autoImplicit false

/-!
# The lexer

The lexer holds the characters it has not read and the position of the first of
them. Every turn of its loops reads a character, so a loop gets one turn more
than there are characters left.
-/
namespace Tsvm.Lexing

inductive TokenKind where
  | identifier (name : String)
  | numberLiteral (value : String)
  | stringLiteral (value : String)
  | booleanLiteral (value : Bool)
  | let
  | const
  | var
  | function
  | interface
  | type
  | «class»
  | import
  | export
  | from
  | if
  | else
  | switch
  | case
  | default
  | for
  | while
  | do
  | try
  | catch
  | finally
  | throw
  | return
  | new
  | as
  | extends
  | implements
  | numberType
  | stringType
  | booleanType
  | null
  | undefined
  | plus
  | minus
  | star
  | slash
  | percent
  | equals
  | plusEquals
  | minusEquals
  | starEquals
  | slashEquals
  | percentEquals
  | equalsEquals
  | strictEquals
  | bangEquals
  | strictBangEquals
  | bang
  | less
  | lessEquals
  | greater
  | greaterEquals
  | andAnd
  | pipePipe
  | questionQuestion
  | arrow
  | colon
  | semicolon
  | comma
  | dot
  | question
  | leftParen
  | rightParen
  | leftBrace
  | rightBrace
  | leftBracket
  | rightBracket
  deriving Repr, DecidableEq

structure Token where
  kind : TokenKind
  span : Span
  deriving Repr, DecidableEq

inductive LexErrorKind where
  | unexpectedCharacter (ch : Char)
  | unterminatedString
  | unterminatedBlockComment
  deriving Repr, DecidableEq

structure LexError where
  kind : LexErrorKind
  span : Span
  deriving Repr, DecidableEq

def LexError.message (error : LexError) : String :=
  let at_ := s!"at {error.span.start.line}:{error.span.start.column}"
  match error.kind with
  | .unexpectedCharacter ch => s!"unexpected character `{ch}` {at_}"
  | .unterminatedString => s!"unterminated string {at_}"
  | .unterminatedBlockComment => s!"unterminated block comment {at_}"

structure Lexer where
  rest : List Char
  position : Position
  deriving Repr, DecidableEq

/-- `char::is_whitespace`, the Unicode property `White_Space`. -/
def isWhitespace (ch : Char) : Bool :=
  let code := ch.toNat
  (0x09 ≤ code && code ≤ 0x0D) || code == 0x20 || code == 0x85 || code == 0xA0 ||
    code == 0x1680 || (0x2000 ≤ code && code ≤ 0x200A) || code == 0x2028 || code == 0x2029 ||
    code == 0x202F || code == 0x205F || code == 0x3000

def isAsciiDigit (ch : Char) : Bool := '0' ≤ ch && ch ≤ '9'

def isIdentifierStart (ch : Char) : Bool :=
  ('a' ≤ ch && ch ≤ 'z') || ('A' ≤ ch && ch ≤ 'Z') || ch == '_' || ch == '$'

def isIdentifierPart (ch : Char) : Bool := isIdentifierStart ch || isAsciiDigit ch

namespace Lexer

def new (source : String) : Lexer := ⟨source.toList, ⟨0, 1, 1⟩⟩

def peek (s : Lexer) : Option Char := s.rest[0]?

def peekNext (s : Lexer) : Option Char := s.rest[1]?

def isAtEnd (s : Lexer) : Bool := s.rest.isEmpty

def step (ch : Char) (position : Position) : Position :=
  let byte := position.byte + ch.utf8Size
  if ch = '\n' then ⟨byte, position.line + 1, 1⟩ else ⟨byte, position.line, position.column + 1⟩

def advance (s : Lexer) : Lexer :=
  match s.rest with
  | [] => s
  | ch :: rest => ⟨rest, step ch s.position⟩

def matchChar (s : Lexer) (expected : Char) : Bool × Lexer :=
  if s.peek = some expected then (true, s.advance) else (false, s)

def consumeWhileFrom (predicate : Char → Bool) : List Char → Position → Lexer
  | [], position => ⟨[], position⟩
  | ch :: rest, position =>
    if predicate ch then consumeWhileFrom predicate rest (step ch position)
    else ⟨ch :: rest, position⟩

def consumeWhile (s : Lexer) (predicate : Char → Bool) : Lexer :=
  consumeWhileFrom predicate s.rest s.position

/-- `source[start..end]`. -/
def slice (start stop : Lexer) : String :=
  String.ofList (start.rest.take (start.rest.length - stop.rest.length))

end Lexer

/-- The text after `/*`, up to and with the closing `*/`. -/
def skipBlockCommentFrom (start : Position) : List Char → Position → Except LexError Lexer
  | [], position => .error ⟨.unterminatedBlockComment, ⟨start, position⟩⟩
  | '*' :: '/' :: rest, position => .ok ⟨rest, Lexer.step '/' (Lexer.step '*' position)⟩
  | ch :: rest, position => skipBlockCommentFrom start rest (Lexer.step ch position)

def skipBlockComment (s : Lexer) : Except LexError Lexer :=
  let inside := s.advance.advance
  skipBlockCommentFrom s.position inside.rest inside.position

def skipTriviaWithin : ℕ → Lexer → Except LexError Lexer
  | 0, s => .ok s
  | turns + 1, s =>
    match s.peek with
    | some ch =>
      if isWhitespace ch then skipTriviaWithin turns s.advance
      else if ch = '/' ∧ s.peekNext = some '/' then
        skipTriviaWithin turns (s.advance.advance.consumeWhile fun ch => ch ≠ '\n')
      else if ch = '/' ∧ s.peekNext = some '*' then do
        let s ← skipBlockComment s
        skipTriviaWithin turns s
      else .ok s
    | none => .ok s

def skipTrivia (s : Lexer) : Except LexError Lexer := skipTriviaWithin (s.rest.length + 1) s

def keyword (text : String) : Option TokenKind :=
  match text with
  | "let" => some .let
  | "const" => some .const
  | "var" => some .var
  | "function" => some .function
  | "interface" => some .interface
  | "type" => some .type
  | "class" => some .class
  | "import" => some .import
  | "export" => some .export
  | "from" => some .from
  | "if" => some .if
  | "else" => some .else
  | "switch" => some .switch
  | "case" => some .case
  | "default" => some .default
  | "for" => some .for
  | "while" => some .while
  | "do" => some .do
  | "try" => some .try
  | "catch" => some .catch
  | "finally" => some .finally
  | "throw" => some .throw
  | "return" => some .return
  | "new" => some .new
  | "as" => some .as
  | "extends" => some .extends
  | "implements" => some .implements
  | "number" => some .numberType
  | "string" => some .stringType
  | "boolean" => some .booleanType
  | "true" => some (.booleanLiteral true)
  | "false" => some (.booleanLiteral false)
  | "null" => some .null
  | "undefined" => some .undefined
  | _ => none

/-- The first character is read already; `start` is the lexer before it. -/
def identifierOrKeyword (start s : Lexer) : TokenKind × Lexer :=
  let stop := s.consumeWhile isIdentifierPart
  let text := start.slice stop
  ((keyword text).getD (.identifier text), stop)

def digitAt (ch : Option Char) : Bool := ch.any isAsciiDigit

/-- A decimal point only belongs to the number when a digit follows it. -/
def fraction (s : Lexer) : Lexer :=
  if s.peek = some '.' ∧ digitAt s.peekNext then s.advance.consumeWhile isAsciiDigit else s

/-- An `e` without digits after it is not part of the number. -/
def exponent (s : Lexer) : Lexer :=
  if s.peek = some 'e' ∨ s.peek = some 'E' then
    let sign := s.advance
    let digits := if sign.peek = some '+' ∨ sign.peek = some '-' then sign.advance else sign
    if digitAt digits.peek then digits.consumeWhile isAsciiDigit else s
  else s

def numberLiteral (start s : Lexer) : TokenKind × Lexer :=
  let stop := exponent (fraction (s.consumeWhile isAsciiDigit))
  (.numberLiteral (start.slice stop), stop)

def escape (escaped : Char) : Char :=
  match escaped with
  | 'n' => '\n'
  | 'r' => '\r'
  | 't' => '\t'
  | other => other

def stringLiteralFrom (start : Position) (quote : Char) : List Char → Position → List Char →
    Except LexError (TokenKind × Lexer)
  | [], position, _ => .error ⟨.unterminatedString, ⟨start, position⟩⟩
  | ch :: rest, position, value =>
    if ch = quote then
      .ok (.stringLiteral (String.ofList value), ⟨rest, Lexer.step ch position⟩)
    else if ch = '\n' ∨ ch = '\r' then .error ⟨.unterminatedString, ⟨start, position⟩⟩
    else if ch = '\\' then
      match rest with
      | [] => .error ⟨.unterminatedString, ⟨start, Lexer.step ch position⟩⟩
      | escaped :: rest =>
        stringLiteralFrom start quote rest (Lexer.step escaped (Lexer.step ch position))
          (value ++ [escape escaped])
    else stringLiteralFrom start quote rest (Lexer.step ch position) (value ++ [ch])

def stringLiteral (start : Position) (quote : Char) (s : Lexer) :
    Except LexError (TokenKind × Lexer) :=
  stringLiteralFrom start quote s.rest s.position []

def matchOr (s : Lexer) (matched unmatched : TokenKind) (expected : Char) : TokenKind × Lexer :=
  let (found, s) := s.matchChar expected
  (if found then matched else unmatched, s)

/-- `=` and `!`, with one or two more `=` behind them. -/
def equalsChain (s : Lexer) (none one two : TokenKind) : TokenKind × Lexer :=
  if s.peek = some '=' then
    if s.advance.peek = some '=' then (two, s.advance.advance) else (one, s.advance)
  else (none, s)

def doubled (start : Lexer) (ch : Char) (kind : TokenKind) (s : Lexer) :
    Except LexError (TokenKind × Lexer) :=
  if s.peek = some ch then .ok (kind, s.advance)
  else .error ⟨.unexpectedCharacter ch, ⟨start.position, s.position⟩⟩

def tokenKind (start : Lexer) (ch : Char) (s : Lexer) : Except LexError (TokenKind × Lexer) :=
  if isIdentifierStart ch then .ok (identifierOrKeyword start s)
  else if isAsciiDigit ch then .ok (numberLiteral start s)
  else match ch with
  | '"' | '\'' => stringLiteral start.position ch s
  | '+' => .ok (matchOr s .plusEquals .plus '=')
  | '-' => .ok (matchOr s .minusEquals .minus '=')
  | '*' => .ok (matchOr s .starEquals .star '=')
  | '/' => .ok (matchOr s .slashEquals .slash '=')
  | '%' => .ok (matchOr s .percentEquals .percent '=')
  | '=' =>
    if s.peek = some '>' then .ok (.arrow, s.advance)
    else .ok (equalsChain s .equals .equalsEquals .strictEquals)
  | '!' => .ok (equalsChain s .bang .bangEquals .strictBangEquals)
  | '<' => .ok (matchOr s .lessEquals .less '=')
  | '>' => .ok (matchOr s .greaterEquals .greater '=')
  | '&' => doubled start ch .andAnd s
  | '|' => doubled start ch .pipePipe s
  | '?' => .ok (matchOr s .questionQuestion .question '?')
  | ':' => .ok (.colon, s)
  | ';' => .ok (.semicolon, s)
  | ',' => .ok (.comma, s)
  | '.' => .ok (.dot, s)
  | '(' => .ok (.leftParen, s)
  | ')' => .ok (.rightParen, s)
  | '{' => .ok (.leftBrace, s)
  | '}' => .ok (.rightBrace, s)
  | '[' => .ok (.leftBracket, s)
  | ']' => .ok (.rightBracket, s)
  | unexpected => .error ⟨.unexpectedCharacter unexpected, ⟨start.position, s.position⟩⟩

/-- The token that starts with the character `ch`, which `s` is in front of. -/
def nextToken (s : Lexer) (ch : Char) : Except LexError (Token × Lexer) := do
  let (kind, stop) ← tokenKind s ch s.advance
  pure (⟨kind, ⟨s.position, stop.position⟩⟩, stop)

def lexWithin : ℕ → Lexer → Except LexError (List Token)
  | 0, _ => .ok []
  | turns + 1, s => do
    let s ← skipTrivia s
    match s.peek with
    | none => pure []
    | some ch => do
      let (token, s) ← nextToken s ch
      let tokens ← lexWithin turns s
      pure (token :: tokens)

def lex (source : String) : Except LexError (List Token) :=
  let s := Lexer.new source
  lexWithin (s.rest.length + 1) s

end Tsvm.Lexing
