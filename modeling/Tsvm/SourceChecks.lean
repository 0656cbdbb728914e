import Tsvm.LoweringBlocks

set_option autoImplicit false

/-!
# Programs the verifier can accept

A check of the syntax tree. Up to its first `if` a function may only read names
it has stored before, and every operator needs a known type; from then on it may
not use a value. `checkCode` and `LeafCode` are the same conditions on the
lowered code.
-/
namespace Tsvm.SourceChecks
open Ast Ir Lowering LoweringCode LoweringBlocks

section

variable (types : List (String × IrType))

mutual

def expressionType : Expression → IrType
  | .identifier name _ => (types.lookup name).getD .unknown
  | .number _ _ => .number
  | .string _ _ => .string
  | .boolean _ _ => .boolean
  | .null _ => .null
  | .undefined _ => .undefined
  | .object properties _ => .object (propertyTypes properties)
  | .array elements _ =>
    .array ((expressionTypes elements).foldl
      (fun elementType ty => if elementType.isUnknown then ty else elementType) .unknown)
  | .member object property _ => memberType (expressionType object) property
  | .call _ _ _ => .unknown
  | .unary _ argument _ => expressionType argument
  | .binary _ operator _ _ => binaryType operator
  | .assignment _ _ right _ => expressionType right
  | .error _ => .unknown

def expressionTypes : List Expression → List IrType
  | [] => []
  | expression :: expressions => expressionType expression :: expressionTypes expressions

def propertyTypes : List ObjectProperty → List (String × IrType)
  | [] => []
  | .mk name value _ :: properties => (name, expressionType value) :: propertyTypes properties

end

mutual

/-- The names that are stored after an expression, which may only read the `known`
    ones. -/
def checkExpression : Expression → List String → Option (List String)
  | .identifier name _, known => if name ∈ known then some known else none
  | .number _ _, known | .string _ _, known | .boolean _ _, known | .null _, known
  | .undefined _, known | .error _, known => some known
  | .object properties _, known => checkProperties properties known
  | .array elements _, known => checkExpressions elements known
  | .member object _ _, known => checkExpression object known
  | .call _ arguments _, known => checkExpressions arguments known
  | .unary _ argument _, known => checkExpression argument known
  | .binary left operator right _, known => do
    let known ← checkExpression left known
    let known ← checkExpression right known
    if operator = .nullishCoalesce then none else some known
  | .assignment left operator right _, known =>
    match left with
    | .identifier name _ => do
      let known ← checkExpression right known
      some (name :: known)
    | .member object _ _ => do
      let known ← checkExpression object known
      let known ← checkExpression right known
      if operator ≠ .assign ∧ (expressionType types right).isUnknown then none else some known
    | _ => checkExpression right known

def checkExpressions : List Expression → List String → Option (List String)
  | [], known => some known
  | expression :: expressions, known => do
    let known ← checkExpression expression known
    checkExpressions expressions known

def checkProperties : List ObjectProperty → List String → Option (List String)
  | [], known => some known
  | .mk _ value _ :: properties, known => do
    let known ← checkExpression value known
    checkProperties properties known

end

end

def leafExpression (params : List String) : Expression → Bool
  | .identifier name _ => params.contains name
  | .number _ _ | .string _ _ | .boolean _ _ | .null _ | .undefined _ | .error _ => true
  | .object properties _ => properties.isEmpty
  | .array elements _ => elements.isEmpty
  | .call _ arguments _ => arguments.isEmpty
  | .member _ _ _ | .binary _ _ _ _ => false
  | .unary _ argument _ => leafExpression params argument
  | .assignment left _ right _ =>
    match left with
    | .identifier _ _ | .member _ _ _ => false
    | _ => leafExpression params right

/-- How far the check of a function has come: without an `if` so far, where `ends`
    says whether there was a `return`, or past one. -/
inductive Phase where
  | straight (known : List String) (types : List (String × IrType)) (ends : Bool)
  | branched

def checkVariable (declaration : VariableDeclaration) : Phase → Option Phase
  | .straight known types ends =>
    let declaredType := (declaration.ty.map typeFromNode).getD .unknown
    match declaration.initializer with
    | some expression => do
      let known ← checkExpression types expression known
      let ty := expressionType types expression
      some (.straight (declaration.name :: known)
        ((declaration.name, if declaredType.isUnknown then ty else declaredType) :: types) ends)
    | none =>
      some (.straight (declaration.name :: known)
        ((declaration.name, if declaredType.isUnknown then .undefined else declaredType) :: types)
        ends)
  | .branched => none

def checkReturn (value : Option Expression) : Phase → Option Phase
  | .straight known types _ =>
    match value with
    | some expression => do
      let known ← checkExpression types expression known
      some (.straight known types true)
    | none => some (.straight known types true)
  | .branched => if value.isNone then some .branched else none

def checkValue (params : List String) (value : Expression) : Phase → Option Phase
  | .straight known types ends => do
    let known ← checkExpression types value known
    some (.straight known types ends)
  | .branched => if leafExpression params value then some .branched else none

def checkTest (test : Expression) : Phase → Option Phase
  | .straight known types _ => do
    let _ ← checkExpression types test known
    some .branched
  | .branched => none

section

variable (params : List String)

mutual

def checkStatement : Statement → Phase → Option Phase
  | .variable declaration _, phase => checkVariable declaration phase
  | .return value _, phase => checkReturn value phase
  | .expression value _, phase | .throw value _, phase => checkValue params value phase
  | .if test consequent alternate _, phase => do
    let phase ← checkTest test phase
    let phase ← checkStatement consequent phase
    checkAlternate alternate phase
  | .block body _, phase => checkStatements body phase
  | .export inner _, phase => checkStatement inner phase
  | .interface _ _, phase | .typeAlias _ _, phase | .class _ _, phase | .function _ _, phase
  | .import _ _, phase | .empty _, phase | .error _, phase | .while _ _ _, phase
  | .for _ _ _ _ _, phase => some phase

def checkAlternate : Option Statement → Phase → Option Phase
  | some alternate, phase => checkStatement alternate phase
  | none, phase => some phase

def checkStatements : List Statement → Phase → Option Phase
  | [], phase => some phase
  | statement :: statements, phase => do
    let phase ← checkStatement statement phase
    checkStatements statements phase

end

end

def Phase.terminated : Phase → Bool
  | .straight _ _ ends => ends
  | .branched => true

def verifiableFunction (function : FunctionDeclaration) : Bool :=
  let types := (function.params.map fun param =>
    (param.name, (param.ty.map typeFromNode).getD .unknown)).reverse
  let params := function.params.map Parameter.name
  ((checkStatements params function.body (.straight params types false)).map
    Phase.terminated).getD false

/-- The top level statements end with a `return` of the lowerer's own. -/
def verifiableEntry (statements : List Statement) : Bool :=
  (checkStatements [] statements (.straight [] [] false)).isSome

def verifiableDeclaration : Statement → Bool
  | .function declaration _ => verifiableFunction declaration
  | _ => true

def Verifiable (program : Program) : Bool :=
  program.body.all verifiableDeclaration && verifiableEntry (program.body.filter isEntryStatement)

end Tsvm.SourceChecks
