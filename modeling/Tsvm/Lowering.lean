import Tsvm.Ir

set_option autoImplicit false

/-!
# Lowering of the syntax tree

`FunctionLowerer` keeps the blocks made so far, the block code is added to and
the next value. The map of the local types is an association list with the last
insertion in front.
-/
namespace Tsvm.Lowering
open Ast Ir

structure FunctionLowerer where
  name : String
  params : List IrParam
  returnType : IrType
  blocks : List IrBlock
  currentBlock : BlockId
  nextValue : ℕ
  locals : List (String × IrType)
  sourceSpan : Span

mutual

def typeFromNode : TypeNode → IrType
  | .number _ => .number
  | .string _ => .string
  | .boolean _ => .boolean
  | .null _ => .null
  | .undefined _ => .undefined
  | .named name _ => .named name
  | .array inner _ => .array (typeFromNode inner)
  | .object members _ => .object (typeFromMembers members)

def typeFromMembers : List TypeMember → List (String × IrType)
  | [] => []
  | .mk name ty _ :: members => (name, typeFromNode ty) :: typeFromMembers members

end

def memberType (objectType : IrType) (property : String) : IrType :=
  match objectType with
  | .object fields => (fields.lookup property).getD .unknown
  | _ => .unknown

def calleeName : Expression → String
  | .identifier name _ => name
  | .member object property _ => calleeName object ++ "." ++ property
  | _ => "<expr>"

def binaryOp : BinaryOperator → IrBinaryOp
  | .add => .add
  | .subtract => .subtract
  | .multiply => .multiply
  | .divide => .divide
  | .remainder => .remainder
  | .equal => .equal
  | .strictEqual => .strictEqual
  | .notEqual => .notEqual
  | .strictNotEqual => .strictNotEqual
  | .less => .less
  | .lessEqual => .lessEqual
  | .greater => .greater
  | .greaterEqual => .greaterEqual
  | .logicalAnd => .logicalAnd
  | .logicalOr => .logicalOr
  | .nullishCoalesce => .nullishCoalesce

def binaryType : BinaryOperator → IrType
  | .add | .subtract | .multiply | .divide | .remainder => .number
  | .equal | .strictEqual | .notEqual | .strictNotEqual | .less | .lessEqual | .greater
  | .greaterEqual | .logicalAnd | .logicalOr => .boolean
  | .nullishCoalesce => .unknown

def assignmentBinaryOp : AssignmentOperator → IrBinaryOp
  | .assign => .add
  | .addAssign => .add
  | .subtractAssign => .subtract
  | .multiplyAssign => .multiply
  | .divideAssign => .divide
  | .remainderAssign => .remainder

def emptySpan : Span := ⟨⟨0, 1, 1⟩, ⟨0, 1, 1⟩⟩

namespace FunctionLowerer

def new (name : String) (params : List IrParam) (returnType : IrType) (sourceSpan : Span) :
    FunctionLowerer where
  name := name
  params := params
  returnType := returnType
  blocks := [⟨0, []⟩]
  currentBlock := 0
  nextValue := 0
  locals := (params.map fun param => (param.name, param.ty)).reverse
  sourceSpan := sourceSpan

def finish (s : FunctionLowerer) : IrFunction :=
  ⟨s.name, s.params, s.returnType, s.blocks, s.sourceSpan⟩

def createBlock (s : FunctionLowerer) : BlockId × FunctionLowerer :=
  (s.blocks.length, { s with blocks := s.blocks ++ [⟨s.blocks.length, []⟩] })

def allocateValue (s : FunctionLowerer) : ValueId × FunctionLowerer :=
  (s.nextValue, { s with nextValue := s.nextValue + 1 })

def emit (kind : IrInstructionKind) (result : Option ValueId) (ty : IrType) (sourceSpan : Span)
    (s : FunctionLowerer) : FunctionLowerer :=
  { s with blocks := s.blocks.modify s.currentBlock fun block =>
      { block with instructions := block.instructions ++ [⟨kind, result, ty, sourceSpan⟩] } }

/-- Allocates a value and emits the instruction that produces it. -/
def emitValue (kind : IrInstructionKind) (ty : IrType) (span : Span) (s : FunctionLowerer) :
    (ValueId × IrType) × FunctionLowerer :=
  let (value, s) := s.allocateValue
  ((value, ty), s.emit kind (some value) ty span)

def loadConst (constant : IrConst) (ty : IrType) (span : Span) (s : FunctionLowerer) :
    (ValueId × IrType) × FunctionLowerer :=
  s.emitValue (.loadConst constant) ty span

def enterBlock (block : BlockId) (s : FunctionLowerer) : FunctionLowerer :=
  { s with currentBlock := block }

def insertLocal (name : String) (ty : IrType) (s : FunctionLowerer) : FunctionLowerer :=
  { s with locals := (name, ty) :: s.locals }

end FunctionLowerer

/-- The second half of `lower_assignment` to a member, once both sides are lowered. -/
def lowerMemberStore (object : ValueId) (property : String) (operator : AssignmentOperator)
    (right : ValueId) (rightType : IrType) (leftSpan span : Span) (s : FunctionLowerer) :
    (ValueId × IrType) × FunctionLowerer :=
  let (stored, s) :=
    match operator with
    | .assign => (right, s)
    | operator =>
      let (current, s) := s.emitValue (.loadMember object property) rightType leftSpan
      let (result, s) :=
        s.emitValue (.binary (assignmentBinaryOp operator) current.1 right) rightType span
      (result.1, s)
  ((stored, rightType), s.emit (.storeMember object property stored) none rightType span)

mutual

def lowerExpression : Expression → FunctionLowerer → (ValueId × IrType) × FunctionLowerer
  | .identifier name span, s =>
    s.emitValue (.loadLocal name) ((s.locals.lookup name).getD .unknown) span
  | .number value span, s => s.loadConst (.number value) .number span
  | .string value span, s => s.loadConst (.string value) .string span
  | .boolean value span, s => s.loadConst (.boolean value) .boolean span
  | .null span, s => s.loadConst .null .null span
  | .undefined span, s => s.loadConst .undefined .undefined span
  | .object properties span, s =>
    let (lowered, s) := lowerProperties properties s
    s.loadConst (.object (lowered.map fun field => (field.1, field.2.1)))
      (.object (lowered.map fun field => (field.1, field.2.2))) span
  | .array elements span, s =>
    let (lowered, s) := lowerExpressions elements s
    let elementType := (lowered.map Prod.snd).foldl
      (fun elementType ty => if elementType.isUnknown then ty else elementType) .unknown
    s.loadConst (.array (lowered.map Prod.fst)) (.array elementType) span
  | .member object property span, s =>
    let ((object, objectType), s) := lowerExpression object s
    s.emitValue (.loadMember object property) (memberType objectType property) span
  | .call callee arguments span, s =>
    let (lowered, s) := lowerExpressions arguments s
    s.emitValue (.call (calleeName callee) (lowered.map Prod.fst)) .unknown span
  | .binary left operator right span, s =>
    let ((left, _), s) := lowerExpression left s
    let ((right, _), s) := lowerExpression right s
    s.emitValue (.binary (binaryOp operator) left right) (binaryType operator) span
  | .assignment left operator right span, s =>
    -- `lower_assignment`
    match left with
    | .identifier name _ =>
      let ((right, rightType), s) := lowerExpression right s
      ((right, rightType), s.emit (.storeLocal name right) none rightType span)
    | .member object property leftSpan =>
      let ((object, _), s) := lowerExpression object s
      let ((right, rightType), s) := lowerExpression right s
      lowerMemberStore object property operator right rightType leftSpan span s
    | _ => lowerExpression right s
  | .unary _ argument _, s => lowerExpression argument s
  | .error span, s => s.loadConst .undefined .unknown span

def lowerExpressions : List Expression → FunctionLowerer →
    List (ValueId × IrType) × FunctionLowerer
  | [], s => ([], s)
  | expression :: expressions, s =>
    let (value, s) := lowerExpression expression s
    let (values, s) := lowerExpressions expressions s
    (value :: values, s)

def lowerProperties : List ObjectProperty → FunctionLowerer →
    List (String × ValueId × IrType) × FunctionLowerer
  | [], s => ([], s)
  | .mk name value _ :: properties, s =>
    let (value, s) := lowerExpression value s
    let (values, s) := lowerProperties properties s
    ((name, value) :: values, s)

end

def lowerVariable (declaration : VariableDeclaration) (span : Span) (s : FunctionLowerer) :
    FunctionLowerer :=
  let declaredType := (declaration.ty.map typeFromNode).getD .unknown
  let ((value, ty), s) :=
    match declaration.initializer with
    | some expression => lowerExpression expression s
    | none => s.loadConst .undefined .undefined span
  let localType := if declaredType.isUnknown then ty else declaredType
  (s.insertLocal declaration.name localType).emit (.storeLocal declaration.name value) none
    localType span

def lowerReturn (value : Option Expression) (span : Span) (s : FunctionLowerer) :
    FunctionLowerer :=
  match value with
  | some expression =>
    let ((value, _), s) := lowerExpression expression s
    s.emit (.return (some value)) none .undefined span
  | none => s.emit (.return none) none .undefined span

mutual

def lowerStatement : Statement → FunctionLowerer → FunctionLowerer
  | .variable declaration span, s => lowerVariable declaration span s
  | .return value span, s => lowerReturn value span s
  | .expression value _, s => (lowerExpression value s).2
  | .throw value _, s => (lowerExpression value s).2
  | .if test consequent alternate span, s =>
    let ((condition, _), s) := lowerExpression test s
    let (thenBlock, s) := s.createBlock
    let (elseBlock, s) := s.createBlock
    let (mergeBlock, s) := s.createBlock
    let s := s.emit (.branch condition thenBlock elseBlock) none .undefined test.span
    let s := lowerStatement consequent (s.enterBlock thenBlock)
    let s := s.emit (.jump mergeBlock) none .undefined span
    let s := lowerAlternate alternate (s.enterBlock elseBlock)
    let s := s.emit (.jump mergeBlock) none .undefined span
    s.enterBlock mergeBlock
  | .block body _, s => lowerStatements body s
  | .export inner _, s => lowerStatement inner s
  | .interface _ _, s | .typeAlias _ _, s | .class _ _, s | .function _ _, s | .import _ _, s
  | .empty _, s | .error _, s | .while _ _ _, s | .for _ _ _ _ _, s => s

def lowerAlternate : Option Statement → FunctionLowerer → FunctionLowerer
  | some alternate, s => lowerStatement alternate s
  | none, s => s

def lowerStatements : List Statement → FunctionLowerer → FunctionLowerer
  | [], s => s
  | statement :: statements, s => lowerStatements statements (lowerStatement statement s)

end

def lowerFunction (function : FunctionDeclaration) (span : Span) : IrFunction :=
  let params := function.params.map fun param =>
    (⟨param.name, (param.ty.map typeFromNode).getD .unknown⟩ : IrParam)
  let returnType := (function.returnType.map typeFromNode).getD .undefined
  (lowerStatements function.body (.new function.name params returnType span)).finish

/-- The statements of the program that become the entry function. -/
def isEntryStatement : Statement → Bool
  | .function _ _ | .interface _ _ | .typeAlias _ _ | .class _ _ => false
  | _ => true

def lowerProgram (program : Program) : IrProgram :=
  let entrySpan := program.span.getD emptySpan
  let entry := lowerStatements (program.body.filter isEntryStatement)
    (.new "__entry" [] .undefined entrySpan)
  { functions := program.body.filterMap fun statement =>
      match statement with
      | .function declaration span => some (lowerFunction declaration span)
      | _ => none
    entry := (entry.emit (.return none) none .undefined entrySpan).finish
    sourceSpan := program.span }

end Tsvm.Lowering
