import Tsvm.LinkedPrograms

set_option autoImplicit false

/-!
# The code of a relocated program

The lowerer copies the positions of the syntax tree into the instructions and looks at none of
them. The checks of the code and its size look at none of them either.
-/
namespace Tsvm.RelocatedLowering
open Ast Grammar Ir Lowering LoweringBlocks LoweredChecks CompiledOperands SourceChecks
open RelocatedChecks (relocateStatements_eq_map)
open LinkedPrograms (calleeName_relocate isEntryStatement_relocate)

section Lowering

variable (φ : Position → Position)

def relocateInstruction (instruction : IrInstruction) : IrInstruction :=
  { instruction with sourceSpan := instruction.sourceSpan.relocate φ }

def relocateBlock (block : IrBlock) : IrBlock :=
  { block with instructions := block.instructions.map (relocateInstruction φ) }

def relocateLowerer (s : FunctionLowerer) : FunctionLowerer :=
  { s with
    blocks := s.blocks.map (relocateBlock φ)
    sourceSpan := s.sourceSpan.relocate φ }

variable {φ}

theorem map_modify {α : Type} (f g g' : α → α) (h : ∀ x, g' (f x) = f (g x)) (l : List α) (i : ℕ) :
    (l.map f).modify i g' = (l.modify i g).map f := by
  induction l generalizing i with
  | nil => simp only [List.map_nil, List.modify_nil]
  | cons x l ih =>
    cases i with
    | zero => simp only [List.map_cons, List.modify_zero_cons, h]
    | succ i => simp only [List.map_cons, List.modify_succ_cons, ih]

@[simp] theorem emit_relocate (kind : IrInstructionKind) (result : Option ValueId) (ty : IrType)
    (span : Span) (s : FunctionLowerer) :
    (relocateLowerer φ s).emit kind result ty (span.relocate φ) =
      relocateLowerer φ (s.emit kind result ty span) := by
  simp only [FunctionLowerer.emit, relocateLowerer]
  congr 1
  refine map_modify _ _ _ (fun block => ?_) _ _
  simp only [relocateBlock, List.map_append, List.map_singleton, relocateInstruction]

@[simp] theorem emitValue_relocate (kind : IrInstructionKind) (ty : IrType) (span : Span)
    (s : FunctionLowerer) :
    (relocateLowerer φ s).emitValue kind ty (span.relocate φ) =
      ((s.emitValue kind ty span).1, relocateLowerer φ (s.emitValue kind ty span).2) :=
  Prod.ext rfl (emit_relocate _ _ _ _ { s with nextValue := s.nextValue + 1 })

@[simp] theorem loadConst_relocate (constant : IrConst) (ty : IrType) (span : Span)
    (s : FunctionLowerer) :
    (relocateLowerer φ s).loadConst constant ty (span.relocate φ) =
      ((s.loadConst constant ty span).1, relocateLowerer φ (s.loadConst constant ty span).2) :=
  emitValue_relocate _ _ _ s

@[simp] theorem createBlock_relocate (s : FunctionLowerer) :
    (relocateLowerer φ s).createBlock =
      (s.createBlock.1, relocateLowerer φ s.createBlock.2) := by
  simp only [FunctionLowerer.createBlock, relocateLowerer, List.length_map, List.map_append,
    List.map_singleton, relocateBlock, List.map_nil]

@[simp] theorem enterBlock_relocate (block : BlockId) (s : FunctionLowerer) :
    (relocateLowerer φ s).enterBlock block = relocateLowerer φ (s.enterBlock block) := rfl

@[simp] theorem insertLocal_relocate (name : String) (ty : IrType) (s : FunctionLowerer) :
    (relocateLowerer φ s).insertLocal name ty = relocateLowerer φ (s.insertLocal name ty) := rfl

mutual

theorem typeFromNode_relocate : ∀ ty : TypeNode, typeFromNode (ty.relocate φ) = typeFromNode ty
  | .array inner _ => by simp only [TypeNode.relocate, typeFromNode, typeFromNode_relocate inner]
  | .object members _ => by
    simp only [TypeNode.relocate, typeFromNode, typeFromMembers_relocate members]
  | .number _ | .string _ | .boolean _ | .null _ | .undefined _ | .named _ _ => rfl

theorem typeFromMembers_relocate : ∀ members : List TypeMember,
    typeFromMembers (relocateMembers φ members) = typeFromMembers members
  | [] => rfl
  | .mk _ ty _ :: members => by
    simp only [relocateMembers, TypeMember.relocate, typeFromMembers, typeFromNode_relocate ty,
      typeFromMembers_relocate members]

end

theorem declaredType_relocate (ty : Option TypeNode) (default : IrType) :
    ((ty.map (TypeNode.relocate φ)).map typeFromNode).getD default =
      (ty.map typeFromNode).getD default := by
  cases ty with
  | none => rfl
  | some ty => exact typeFromNode_relocate ty

theorem lowerMemberStore_relocate (object : ValueId) (property : String)
    (operator : AssignmentOperator) (right : ValueId) (rightType : IrType) (leftSpan span : Span)
    (s : FunctionLowerer) :
    lowerMemberStore object property operator right rightType (leftSpan.relocate φ)
        (span.relocate φ) (relocateLowerer φ s) =
      ((lowerMemberStore object property operator right rightType leftSpan span s).1,
        relocateLowerer φ
          (lowerMemberStore object property operator right rightType leftSpan span s).2) := by
  cases operator <;> simp only [lowerMemberStore, emitValue_relocate, emit_relocate]

mutual

/-- The lowerer only copies the positions. -/
theorem lowerExpression_relocate : ∀ (expression : Expression) (s : FunctionLowerer),
    lowerExpression (expression.relocate φ) (relocateLowerer φ s) =
      ((lowerExpression expression s).1, relocateLowerer φ (lowerExpression expression s).2)
  | .identifier name span, s => by
    simp only [Expression.relocate, lowerExpression]
    exact emitValue_relocate _ _ span s
  | .number _ _, s | .string _ _, s | .boolean _ _, s | .null _, s | .undefined _, s
  | .error _, s => by
    simp only [Expression.relocate, lowerExpression, loadConst_relocate]
  | .object properties span, s => by
    simp only [Expression.relocate, lowerExpression, lowerProperties_relocate properties,
      loadConst_relocate]
  | .array elements span, s => by
    simp only [Expression.relocate, lowerExpression, lowerExpressions_relocate elements,
      loadConst_relocate]
  | .member object property span, s => by
    simp only [Expression.relocate, lowerExpression, lowerExpression_relocate object,
      emitValue_relocate]
  | .call callee arguments span, s => by
    simp only [Expression.relocate, lowerExpression, lowerExpressions_relocate arguments,
      calleeName_relocate, emitValue_relocate]
  | .unary operator argument span, s => by
    simp only [Expression.relocate, lowerExpression, lowerExpression_relocate argument]
  | .binary left operator right span, s => by
    simp only [Expression.relocate, lowerExpression, lowerExpression_relocate left,
      lowerExpression_relocate right, emitValue_relocate]
  | .assignment left operator right span, s => by
    cases left with
    | identifier name span =>
      simp only [Expression.relocate, lowerExpression, lowerExpression_relocate right,
        emit_relocate]
    | member object property span =>
      simp only [Expression.relocate, lowerExpression, lowerExpression_relocate object,
        lowerExpression_relocate right, lowerMemberStore_relocate]
    | _ => simp only [Expression.relocate, lowerExpression, lowerExpression_relocate right]

theorem lowerExpressions_relocate : ∀ (expressions : List Expression) (s : FunctionLowerer),
    lowerExpressions (relocateExpressions φ expressions) (relocateLowerer φ s) =
      ((lowerExpressions expressions s).1, relocateLowerer φ (lowerExpressions expressions s).2)
  | [], _ => rfl
  | expression :: expressions, s => by
    simp only [relocateExpressions, lowerExpressions, lowerExpression_relocate expression,
      lowerExpressions_relocate expressions]

theorem lowerProperties_relocate : ∀ (properties : List ObjectProperty) (s : FunctionLowerer),
    lowerProperties (relocateProperties φ properties) (relocateLowerer φ s) =
      ((lowerProperties properties s).1, relocateLowerer φ (lowerProperties properties s).2)
  | [], _ => rfl
  | .mk name value _ :: properties, s => by
    simp only [relocateProperties, ObjectProperty.relocate, lowerProperties,
      lowerExpression_relocate value, lowerProperties_relocate properties]

end

theorem lowerVariable_relocate (declaration : VariableDeclaration) (span : Span)
    (s : FunctionLowerer) :
    lowerVariable (declaration.relocate φ) (span.relocate φ) (relocateLowerer φ s) =
      relocateLowerer φ (lowerVariable declaration span s) := by
  obtain ⟨kind, name, ty, initializer⟩ := declaration
  cases initializer with
  | none =>
    simp only [VariableDeclaration.relocate, lowerVariable, declaredType_relocate, Option.map_none,
      loadConst_relocate, insertLocal_relocate, emit_relocate]
  | some value =>
    simp only [VariableDeclaration.relocate, lowerVariable, declaredType_relocate, Option.map_some,
      lowerExpression_relocate, insertLocal_relocate, emit_relocate]

theorem lowerReturn_relocate (value : Option Expression) (span : Span) (s : FunctionLowerer) :
    lowerReturn (value.map (Expression.relocate φ)) (span.relocate φ) (relocateLowerer φ s) =
      relocateLowerer φ (lowerReturn value span s) := by
  cases value with
  | none => exact emit_relocate _ _ _ _ s
  | some value =>
    simp only [Option.map_some, lowerReturn, lowerExpression_relocate, emit_relocate]

mutual

theorem lowerStatement_relocate : ∀ (statement : Statement) (s : FunctionLowerer),
    lowerStatement (statement.relocate φ) (relocateLowerer φ s) =
      relocateLowerer φ (lowerStatement statement s)
  | .variable declaration span, s => by
    simp only [Statement.relocate, lowerStatement, lowerVariable_relocate]
  | .return value span, s => by
    simp only [Statement.relocate, lowerStatement, lowerReturn_relocate]
  | .expression value _, s | .throw value _, s => by
    simp only [Statement.relocate, lowerStatement, lowerExpression_relocate]
  | .if test consequent alternate span, s => by
    simp only [Statement.relocate, lowerStatement, lowerExpression_relocate, createBlock_relocate,
      Expression.span_relocate, emit_relocate, enterBlock_relocate,
      lowerStatement_relocate consequent, lowerAlternate_relocate alternate]
  | .block body _, s => by
    simp only [Statement.relocate, lowerStatement, lowerStatements_relocate body]
  | .export inner _, s => by
    simp only [Statement.relocate, lowerStatement, lowerStatement_relocate inner]
  | .function ⟨_, _, _, _⟩ _, _ | .interface _ _, _ | .typeAlias _ _, _ | .class _ _, _
  | .import _ _, _ | .empty _, _ | .error _, _ | .while _ _ _, _ | .for _ _ _ _ _, _ => by
    simp only [Statement.relocate, lowerStatement]

theorem lowerAlternate_relocate : ∀ (alternate : Option Statement) (s : FunctionLowerer),
    lowerAlternate (relocateOption φ alternate) (relocateLowerer φ s) =
      relocateLowerer φ (lowerAlternate alternate s)
  | some alternate, s => by
    simp only [relocateOption, lowerAlternate, lowerStatement_relocate alternate]
  | none, _ => by simp only [relocateOption, lowerAlternate]

theorem lowerStatements_relocate : ∀ (statements : List Statement) (s : FunctionLowerer),
    lowerStatements (relocateStatements φ statements) (relocateLowerer φ s) =
      relocateLowerer φ (lowerStatements statements s)
  | [], _ => rfl
  | statement :: statements, s => by
    simp only [relocateStatements, lowerStatements, lowerStatement_relocate statement,
      lowerStatements_relocate statements]

end

variable (φ) in
def relocateCode (function : IrFunction) : IrFunction :=
  { function with
    blocks := function.blocks.map (relocateBlock φ)
    sourceSpan := function.sourceSpan.relocate φ }

theorem lowerFunction_relocate (name : String) (params : List Parameter)
    (returnType : Option TypeNode) (body : List Statement) (span : Span) :
    lowerFunction ⟨name, params.map (Parameter.relocate φ), returnType.map (TypeNode.relocate φ),
        relocateStatements φ body⟩ (span.relocate φ) =
      relocateCode φ (lowerFunction ⟨name, params, returnType, body⟩ span) := by
  have hparams : ((params.map (Parameter.relocate φ)).map fun param =>
      (⟨param.name, (param.ty.map typeFromNode).getD .unknown⟩ : IrParam)) =
        params.map fun param => ⟨param.name, (param.ty.map typeFromNode).getD .unknown⟩ := by
    rw [List.map_map]
    refine List.map_congr_left fun param _ => ?_
    simp only [Function.comp_apply, Parameter.relocate, declaredType_relocate]
  simp only [lowerFunction, hparams, declaredType_relocate]
  exact congrArg FunctionLowerer.finish (lowerStatements_relocate body (.new name _ _ span))

/-- The functions of a program without positions. -/
theorem allFunctions_erase (body : List Statement) (span : Option Span) :
    allFunctions (lowerProgram ⟨relocateStatements erase body, none⟩) =
      (allFunctions (lowerProgram ⟨body, span⟩)).map (relocateCode erase) := by
  simp only [allFunctions, lowerProgram, List.map_append, List.map_singleton, List.map_filterMap]
  congr 1
  · rw [relocateStatements_eq_map, List.filterMap_map]
    refine List.filterMap_congr fun statement _ => ?_
    cases statement with
    | function declaration span =>
      exact congrArg some (lowerFunction_relocate _ _ _ _ span)
    | _ => simp only [Function.comp_apply, Statement.relocate, Option.map_none]
  · congr 1
    have hfilter : (relocateStatements erase body).filter isEntryStatement =
        relocateStatements erase (body.filter isEntryStatement) := by
      rw [relocateStatements_eq_map, relocateStatements_eq_map, List.filter_map]
      congr 1
      refine List.filter_congr fun statement _ => ?_
      exact isEntryStatement_relocate statement
    have hbody := lowerStatements_relocate (φ := erase) (body.filter isEntryStatement)
      (.new "__entry" [] .undefined (span.getD emptySpan))
    have hentry := emit_relocate (φ := erase) (.return none) none .undefined (span.getD emptySpan)
      (lowerStatements (body.filter isEntryStatement)
        (.new "__entry" [] .undefined (span.getD emptySpan)))
    rw [← hbody] at hentry
    rw [hfilter]
    exact congrArg FunctionLowerer.finish hentry

theorem functionSize_relocate (function : IrFunction) :
    functionSize (relocateCode φ function) = functionSize function := by
  have hcode (code : List IrInstruction) :
      codeSize (code.map (relocateInstruction φ)) = codeSize code := by
    rw [codeSize, codeSize, List.map_map]
    rfl
  have hblock : ((fun block : IrBlock => 1 + codeSize block.instructions) ∘ relocateBlock φ) =
      fun block => 1 + codeSize block.instructions := by
    funext block
    exact congrArg (1 + ·) (hcode block.instructions)
  rw [functionSize, functionSize, relocateCode, blocksSize, blocksSize]
  dsimp only
  rw [List.map_map, hblock]

theorem checkCode_relocate (code : List IrInstruction) :
    checkCode (code.map (relocateInstruction φ)) = checkCode code := by
  induction code with
  | nil => rfl
  | cons instruction code ih =>
    funext known
    simp only [List.map_cons, checkCode, ih]
    rfl

theorem leafCode_relocate (params : List String) (code : List IrInstruction) :
    LeafCode params (code.map (relocateInstruction φ)) ↔ LeafCode params code :=
  List.forall_mem_map

theorem hasTerminator_relocate (code : List IrInstruction) :
    hasTerminator (code.map (relocateInstruction φ)) = hasTerminator code := List.any_map

theorem verifiableCode_relocate (function : IrFunction) :
    VerifiableCode (relocateCode φ function) ↔ VerifiableCode function := by
  have hblock (i : ℕ) (P : List IrInstruction → Prop)
      (hP : ∀ code, P (code.map (relocateInstruction φ)) ↔ P code) :
      (∀ block, (function.blocks.map (relocateBlock φ))[i]? = some block → P block.instructions) ↔
        ∀ block, function.blocks[i]? = some block → P block.instructions := by
    rw [List.getElem?_map]
    cases function.blocks[i]? with
    | none => simp only [Option.map_none]
    | some block =>
      simp only [Option.map_some, Option.some_inj, forall_eq']
      exact hP block.instructions
  have hfirst := hblock 0
    (fun code => (checkCode code (function.params.map IrParam.name)).isSome = true)
    fun code => by rw [checkCode_relocate]
  have hrest (i : ℕ) := hblock i (LeafCode (function.params.map IrParam.name))
    (leafCode_relocate _)
  have hends : Ends (function.blocks.map (relocateBlock φ)) ↔ Ends function.blocks := by
    simp only [Ends, List.mem_map, exists_exists_and_eq_and]
    refine exists_congr fun block => and_congr_right fun _ => ?_
    rw [relocateBlock, hasTerminator_relocate]
  constructor
  · rintro ⟨haccepted, hterminated⟩
    exact ⟨⟨hfirst.mp haccepted.first,
      fun i block hi => (hrest i).mp (fun block => haccepted.rest i block hi) block⟩,
      hends.mp hterminated⟩
  · rintro ⟨haccepted, hterminated⟩
    exact ⟨⟨hfirst.mpr haccepted.first,
      fun i block hi => (hrest i).mpr (fun block => haccepted.rest i block hi) block⟩,
      hends.mpr hterminated⟩

end Lowering

section Programs

variable {body body' : List Statement} {span span' : Option Span}

theorem irSize_same (h : relocateStatements erase body = relocateStatements erase body') :
    irSize (lowerProgram ⟨body, span⟩) = irSize (lowerProgram ⟨body', span'⟩) := by
  have hsize (body : List Statement) (span : Option Span) :
      irSize (lowerProgram ⟨relocateStatements erase body, none⟩) =
        irSize (lowerProgram ⟨body, span⟩) := by
    rw [irSize, irSize, allFunctions_erase body span, List.map_map]
    refine congrArg List.sum (List.map_congr_left fun function _ => ?_)
    exact functionSize_relocate function
  rw [← hsize body span, ← hsize body' span', h]

theorem verifiable_same (h : relocateStatements erase body = relocateStatements erase body') :
    Verifiable ⟨body, span⟩ = true ↔ Verifiable ⟨body', span'⟩ = true := by
  have hcode (body : List Statement) (span : Option Span) :
      Verifiable ⟨relocateStatements erase body, none⟩ = true ↔
        Verifiable ⟨body, span⟩ = true := by
    rw [verifiable_iff, verifiable_iff, allFunctions_erase body span, List.forall_mem_map]
    simp only [verifiableCode_relocate]
  rw [← hcode body span, ← hcode body' span', h]

end Programs

end Tsvm.RelocatedLowering
