import Tsvm.Parsing

set_option autoImplicit false

/-!
# The semantic analyzer

Scopes are kept with the innermost first, maps as association lists. The order
in which a loop runs over the fields of an object type is a choice of the hash
map: `IterationOrder` fixes one for each loop of an analysis.
-/
namespace Tsvm.Semantic
open Ast Parsing

/-- The source's `Type`. The fields of an object have distinct names. -/
inductive Ty where
  | number
  | string
  | boolean
  | null
  | undefined
  | object (fields : List (String × Ty))
  | array (element : Ty)
  | function (params : List Ty) (returnType : Ty) (variadic : Bool)
  | unknown

inductive SymbolKind where
  | variable
  | function
  | interface
  | typeAlias
  | «class»
  | import
  deriving Repr, DecidableEq

structure Symbol where
  name : String
  kind : SymbolKind
  deriving Repr, DecidableEq

structure SymbolTable where
  values : List Symbol
  types : List Symbol
  deriving Repr, DecidableEq

structure SemanticOutput where
  symbols : SymbolTable
  diagnostics : List SemanticDiagnostic

structure FunctionBinding where
  declaration : FunctionDeclaration
  statementSpan : Span

abbrev Scope := List (String × Ty)

structure Analyzer where
  symbols : SymbolTable
  typeBindings : List (String × Ty)
  valueScopes : List Scope
  functions : List FunctionBinding
  diagnostics : List SemanticDiagnostic
  currentReturnType : Option Ty
  /-- How many loops over the fields of a type were made. -/
  iterations : ℕ

/-- The order of the `n`-th loop over a map with these keys. -/
structure IterationOrder where
  arrange : ℕ → List String → List String
  perm : ∀ n names, (arrange n names).Perm names

/-- Every loop goes through the keys as they are listed. -/
def IterationOrder.listed : IterationOrder := ⟨fun _ names => names, fun _ _ => .refl _⟩

def Ty.isUnknown : Ty → Bool
  | .unknown => true
  | _ => false

def Ty.isString : Ty → Bool
  | .string => true
  | _ => false

def Ty.isNullish : Ty → Bool
  | .null | .undefined => true
  | _ => false

/-- Insertion into a hash map of fields. -/
def insertField (name : String) (ty : Ty) : List (String × Ty) → List (String × Ty)
  | [] => [(name, ty)]
  | (key, value) :: fields =>
    if key = name then (key, ty) :: fields else (key, value) :: insertField name ty fields

def collectFields (fields : List (String × Ty)) : List (String × Ty) :=
  fields.foldl (fun collected field => insertField field.1 field.2 collected) []

namespace Analyzer

def new : Analyzer := ⟨⟨[], []⟩, [], [], [], [], none, 0⟩

def diagnostic (code : DiagnosticCode) (message : String) (span : Span) (s : Analyzer) : Analyzer :=
  { s with diagnostics := s.diagnostics ++ [⟨code, message, span⟩] }

def pushScope (s : Analyzer) : Analyzer := { s with valueScopes := [] :: s.valueScopes }

def popScope (s : Analyzer) : Analyzer := { s with valueScopes := s.valueScopes.tail }

def lookupValue (s : Analyzer) (name : String) : Option Ty :=
  s.valueScopes.findSome? fun scope => scope.lookup name

def defineType (name : String) (ty : Ty) (kind : SymbolKind) (span : Span) (s : Analyzer) :
    Analyzer :=
  if (s.typeBindings.lookup name).isSome then
    s.diagnostic .duplicateSymbol s!"duplicate type `{name}`" span
  else
    { s with
      typeBindings := (name, ty) :: s.typeBindings
      symbols := { s.symbols with types := s.symbols.types ++ [⟨name, kind⟩] } }

def defineValue (name : String) (ty : Ty) (kind : SymbolKind) (span : Option Span)
    (s : Analyzer) : Analyzer :=
  match s.valueScopes with
  | [] => s
  | scope :: scopes =>
    if (scope.lookup name).isSome then
      match span with
      | some span => s.diagnostic .duplicateSymbol s!"duplicate value `{name}`" span
      | none => s
    else
      let s := { s with valueScopes := ((name, ty) :: scope) :: scopes }
      if scopes.isEmpty then
        { s with symbols := { s.symbols with values := s.symbols.values ++ [⟨name, kind⟩] } }
      else s

end Analyzer

mutual

def resolveTypeNode : TypeNode → Analyzer → Ty × Analyzer
  | .number _, s => (.number, s)
  | .string _, s => (.string, s)
  | .boolean _, s => (.boolean, s)
  | .null _, s => (.null, s)
  | .undefined _, s => (.undefined, s)
  | .named name span, s =>
    match s.typeBindings.lookup name with
    | some ty => (ty, s)
    | none => (.unknown, s.diagnostic .unknownType s!"unknown type `{name}`" span)
  | .array inner _, s =>
    let (ty, s) := resolveTypeNode inner s
    (.array ty, s)
  | .object members _, s =>
    let (fields, s) := resolveTypeMembers members s
    (.object (collectFields fields), s)

def resolveTypeMembers : List TypeMember → Analyzer → List (String × Ty) × Analyzer
  | [], s => ([], s)
  | .mk name ty _ :: members, s =>
    let (ty, s) := resolveTypeNode ty s
    let (fields, s) := resolveTypeMembers members s
    ((name, ty) :: fields, s)

end

def resolveOptionalType (default : Ty) (ty : Option TypeNode) (s : Analyzer) : Ty × Analyzer :=
  match ty with
  | some ty => resolveTypeNode ty s
  | none => (default, s)

section Analysis

variable (order : IterationOrder)

mutual

/-- The diagnostics of `require_assignable`, and the loops it has made. -/
def assignableErrors (span : Span) (code : DiagnosticCode) :
    Ty → Ty → ℕ → List SemanticDiagnostic × ℕ
  | .unknown, _, n => ([], n)
  | .number, actual, n =>
    match actual with
    | .unknown | .number => ([], n)
    | _ => ([⟨code, "type mismatch", span⟩], n)
  | .string, actual, n =>
    match actual with
    | .unknown | .string => ([], n)
    | _ => ([⟨code, "type mismatch", span⟩], n)
  | .boolean, actual, n =>
    match actual with
    | .unknown | .boolean => ([], n)
    | _ => ([⟨code, "type mismatch", span⟩], n)
  | .null, actual, n =>
    match actual with
    | .unknown | .null => ([], n)
    | _ => ([⟨code, "type mismatch", span⟩], n)
  | .undefined, actual, n =>
    match actual with
    | .unknown | .undefined => ([], n)
    | _ => ([⟨code, "type mismatch", span⟩], n)
  | .array expected, actual, n =>
    match actual with
    | .unknown => ([], n)
    | .array actual => assignableErrors span code expected actual n
    | _ => ([⟨code, "type mismatch", span⟩], n)
  | .object expected, actual, n =>
    match actual with
    | .unknown => ([], n)
    | .object actual =>
      let (errors, next) := fieldErrors span code expected actual (n + 1)
      ((order.arrange n (expected.map Prod.fst)).flatMap fun name =>
        (errors.lookup name).getD [], next)
    | _ => ([⟨code, "type mismatch", span⟩], n)
  | .function _ _ _, actual, n =>
    match actual with
    | .unknown => ([], n)
    | _ => ([⟨code, "type mismatch", span⟩], n)

/-- What one turn of the loop over the expected fields reports, for each field. -/
def fieldErrors (span : Span) (code : DiagnosticCode) :
    List (String × Ty) → List (String × Ty) → ℕ → List (String × List SemanticDiagnostic) × ℕ
  | [], _, n => ([], n)
  | (name, expected) :: fields, actuals, n =>
    let (errors, n) :=
      match actuals.lookup name with
      | some actual => assignableErrors span code expected actual n
      | none => ([⟨.missingProperty, s!"missing property `{name}`", span⟩], n)
    let (rest, n) := fieldErrors span code fields actuals n
    ((name, errors) :: rest, n)

end

def requireAssignable (expected actual : Ty) (span : Span) (code : DiagnosticCode)
    (s : Analyzer) : Analyzer :=
  let (errors, iterations) := assignableErrors order span code expected actual s.iterations
  { s with diagnostics := s.diagnostics ++ errors, iterations }

def memberType (objectType : Ty) (property : String) (span : Span) (s : Analyzer) :
    Ty × Analyzer :=
  match objectType with
  | .object fields =>
    match fields.lookup property with
    | some ty => (ty, s)
    | none =>
      (.unknown,
        s.diagnostic .invalidMemberAccess s!"property `{property}` does not exist" span)
  | .unknown => (.unknown, s)
  | _ => (.unknown, s.diagnostic .invalidMemberAccess "member access requires an object" span)

def requireNumbers (leftType rightType : Ty) (leftSpan rightSpan : Span) (s : Analyzer) :
    Analyzer :=
  requireAssignable order .number rightType rightSpan .typeMismatch
    (requireAssignable order .number leftType leftSpan .typeMismatch s)

def binaryResult (operator : BinaryOperator) (leftType rightType : Ty) (leftSpan rightSpan : Span)
    (s : Analyzer) : Ty × Analyzer :=
  match operator with
  | .add =>
    if leftType.isString || rightType.isString then (.string, s)
    else (.number, requireNumbers order leftType rightType leftSpan rightSpan s)
  | .subtract | .multiply | .divide | .remainder =>
    (.number, requireNumbers order leftType rightType leftSpan rightSpan s)
  | .logicalAnd | .logicalOr =>
    (.boolean, requireAssignable order .boolean rightType rightSpan .typeMismatch
      (requireAssignable order .boolean leftType leftSpan .typeMismatch s))
  | .nullishCoalesce => (if leftType.isNullish then rightType else leftType, s)
  | .equal | .strictEqual | .notEqual | .strictNotEqual | .less | .lessEqual | .greater
  | .greaterEqual => (.boolean, s)

def assignmentResult (operator : AssignmentOperator) (leftType rightType : Ty)
    (leftSpan rightSpan span : Span) (s : Analyzer) : Ty × Analyzer :=
  match operator with
  | .assign => (leftType, requireAssignable order leftType rightType span .typeMismatch s)
  | _ => (.number, requireNumbers order leftType rightType leftSpan rightSpan s)

mutual

def inferExpression : Expression → Analyzer → Ty × Analyzer
  | .identifier name span, s =>
    match s.lookupValue name with
    | some ty => (ty, s)
    | none => (.unknown, s.diagnostic .unknownIdentifier s!"unknown identifier `{name}`" span)
  | .number _ _, s => (.number, s)
  | .string _ _, s => (.string, s)
  | .boolean _ _, s => (.boolean, s)
  | .null _, s => (.null, s)
  | .undefined _, s => (.undefined, s)
  | .object properties _, s =>
    let (fields, s) := inferProperties properties s
    (.object (collectFields fields), s)
  | .array elements _, s =>
    let (element, s) := inferElements elements .unknown s
    (.array element, s)
  | .member object property span, s =>
    let (objectType, s) := inferExpression object s
    memberType objectType property span s
  | .call callee arguments span, s =>
    -- `infer_call`
    let (calleeType, s) := inferExpression callee s
    match calleeType with
    | .function params returnType variadic =>
      let s :=
        if !variadic && params.length != arguments.length then
          s.diagnostic .wrongArgumentCount
            s!"expected {params.length} arguments, found {arguments.length}" span
        else s
      (returnType, inferArguments params arguments s)
    | .unknown => (.unknown, s)
    | _ => (.unknown, s.diagnostic .invalidCallTarget "value is not callable" span)
  | .unary operator argument _, s =>
    let (actual, s) := inferExpression argument s
    match operator with
    | .negate => (.number, requireAssignable order .number actual argument.span .typeMismatch s)
    | .not => (.boolean, s)
  | .binary left operator right _, s =>
    let (leftType, s) := inferExpression left s
    let (rightType, s) := inferExpression right s
    binaryResult order operator leftType rightType left.span right.span s
  | .assignment left operator right span, s =>
    let (leftType, s) := inferExpression left s
    let (rightType, s) := inferExpression right s
    assignmentResult order operator leftType rightType left.span right.span span s
  | .error _, s => (.unknown, s)

def inferProperties : List ObjectProperty → Analyzer → List (String × Ty) × Analyzer
  | [], s => ([], s)
  | .mk name value _ :: properties, s =>
    let (ty, s) := inferExpression value s
    let (fields, s) := inferProperties properties s
    ((name, ty) :: fields, s)

/-- The elements of an array; the first known type is the one of all. -/
def inferElements : List Expression → Ty → Analyzer → Ty × Analyzer
  | [], elementType, s => (elementType, s)
  | element :: elements, elementType, s =>
    let (actual, s) := inferExpression element s
    if elementType.isUnknown then inferElements elements actual s
    else inferElements elements elementType
      (requireAssignable order elementType actual element.span .typeMismatch s)

/-- `params.iter().zip(arguments)`: an argument without a parameter is not inferred. -/
def inferArguments : List Ty → List Expression → Analyzer → Analyzer
  | expected :: params, argument :: arguments, s =>
    let (actual, s) := inferExpression argument s
    inferArguments params arguments
      (requireAssignable order expected actual argument.span .typeMismatch s)
  | _, _, s => s

end

def inferOptional (expression : Option Expression) (s : Analyzer) : Option Ty × Analyzer :=
  match expression with
  | some expression =>
    let (ty, s) := inferExpression order expression s
    (some ty, s)
  | none => (none, s)

def analyzeVariable (declaration : VariableDeclaration) (span : Span) (s : Analyzer) : Analyzer :=
  let (declared, s) :=
    match declaration.ty with
    | some ty =>
      let (ty, s) := resolveTypeNode ty s
      (some ty, s)
    | none => (none, s)
  let (initializer, s) := inferOptional order declaration.initializer s
  let s :=
    match declared, initializer with
    | some expected, some actual => requireAssignable order expected actual span .typeMismatch s
    | _, _ => s
  s.defineValue declaration.name ((declared.or initializer).getD .unknown) .variable (some span)

def analyzeReturn (value : Option Expression) (span : Span) (s : Analyzer) : Analyzer :=
  let (actual, s) := inferOptional order value s
  match s.currentReturnType with
  | none => s
  | some expected =>
    requireAssignable order expected (actual.getD .undefined) span .returnTypeMismatch s

mutual

def analyzeStatement : Statement → Analyzer → Analyzer
  | .variable declaration span, s => analyzeVariable order declaration span s
  | .return value span, s => analyzeReturn order value span s
  | .throw value _, s => (inferExpression order value s).2
  | .expression value _, s => (inferExpression order value s).2
  | .if test consequent alternate _, s =>
    analyzeOptional alternate (analyzeStatement consequent (inferExpression order test s).2)
  | .while test body _, s => analyzeStatement body (inferExpression order test s).2
  | .for initializer test update body _, s =>
    let s := analyzeOptional initializer s.pushScope
    let s := (inferOptional order test s).2
    let s := (inferOptional order update s).2
    (analyzeStatement body s).popScope
  | .block body _, s => (analyzeStatements body s.pushScope).popScope
  | .export inner _, s => analyzeStatement inner s
  | .interface _ _, s | .typeAlias _ _, s | .class _ _, s | .function _ _, s | .import _ _, s
  | .empty _, s | .error _, s => s

def analyzeOptional : Option Statement → Analyzer → Analyzer
  | some statement, s => analyzeStatement statement s
  | none, s => s

def analyzeStatements : List Statement → Analyzer → Analyzer
  | [], s => s
  | statement :: statements, s => analyzeStatements statements (analyzeStatement statement s)

end

def resolveParams : List Parameter → Analyzer → List Ty × Analyzer
  | [], s => ([], s)
  | param :: params, s =>
    let (ty, s) := resolveOptionalType .unknown param.ty s
    let (types, s) := resolveParams params s
    (ty :: types, s)

def resolveClassMembers : List ClassMember → Analyzer → List (String × Ty) × Analyzer
  | [], s => ([], s)
  | member :: members, s =>
    let (ty, s) := resolveOptionalType .unknown member.ty s
    let (fields, s) := resolveClassMembers members s
    ((member.name, ty) :: fields, s)

/-- Every caller is at the top level. -/
def collectStatementSymbol : Statement → Analyzer → Analyzer
  | .interface declaration span, s =>
    let (fields, s) := resolveTypeMembers declaration.members s
    s.defineType declaration.name (.object (collectFields fields)) .interface span
  | .typeAlias declaration span, s =>
    let (ty, s) := resolveTypeNode declaration.ty s
    s.defineType declaration.name ty .typeAlias span
  | .class declaration span, s =>
    let (fields, s) := resolveClassMembers declaration.members s
    s.defineType declaration.name (.object (collectFields fields)) .class span
  | .function declaration span, s =>
    let (params, s) := resolveParams declaration.params s
    let (returnType, s) := resolveOptionalType .undefined declaration.returnType s
    let s := s.defineValue declaration.name (.function params returnType false) .function
      (some span)
    { s with functions := s.functions ++ [⟨declaration, span⟩] }
  | .export inner _, s => collectStatementSymbol inner s
  | _, s => s

def defineParams : List Parameter → Analyzer → Analyzer
  | [], s => s
  | param :: params, s =>
    let (ty, s) := resolveOptionalType .unknown param.ty s
    defineParams params (s.defineValue param.name ty .variable (some param.span))

def analyzeFunctionBody (binding : FunctionBinding) (s : Analyzer) : Analyzer :=
  let function := binding.declaration
  let (returnType, s) := resolveOptionalType .undefined function.returnType s
  let previousReturn := s.currentReturnType
  let s := defineParams function.params { s with currentReturnType := some returnType }.pushScope
  let s := (analyzeStatements order function.body s).popScope
  let s := { s with currentReturnType := previousReturn }
  if function.body.isEmpty then
    s.diagnostic .returnTypeMismatch "function body is empty" binding.statementSpan
  else s

def installBrowserBuiltins (s : Analyzer) : Analyzer :=
  s.defineValue "console" (.object [("log", .function [] .undefined true)]) .import none

def isFunctionStatement : Statement → Bool
  | .function _ _ => true
  | _ => false

def analyzeProgram (program : Program) (s : Analyzer) : SemanticOutput :=
  let s := installBrowserBuiltins s.pushScope
  let s := program.body.foldl (fun s statement => collectStatementSymbol statement s) s
  let s := s.functions.foldl (fun s binding => analyzeFunctionBody order binding s) s
  let s := analyzeStatements order
    (program.body.filter fun statement => !isFunctionStatement statement) s
  ⟨s.symbols, s.diagnostics⟩

def analyzeSource (source : String) : SemanticOutput :=
  let parsed := parseSource source
  let diagnostics := parsed.diagnostics.map fun diagnostic =>
    (⟨.typeMismatch, diagnostic.message, diagnostic.span⟩ : SemanticDiagnostic)
  analyzeProgram order parsed.program { Analyzer.new with diagnostics }

end Analysis

end Tsvm.Semantic
