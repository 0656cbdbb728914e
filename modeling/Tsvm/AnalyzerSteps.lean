import Tsvm.Semantic

set_option autoImplicit false

/-!
# What a step of the analyzer changes

The inference of an expression and the resolution of a type only report. A
statement declares variables besides, and the functions are those of the first
pass. Nothing that was reported is taken back.
-/
namespace Tsvm.AnalyzerSteps
open Ast Semantic

/-- The analyzer has reported more and made more loops, and is else as it was. -/
def Reports (s s' : Analyzer) : Prop :=
  ∃ errors iterations, s' = { s with diagnostics := s.diagnostics ++ errors, iterations }

namespace Reports

variable {s s' s'' : Analyzer}

theorem refl (s : Analyzer) : Reports s s := ⟨[], s.iterations, by rw [List.append_nil]⟩

theorem trans (h : Reports s s') (h' : Reports s' s'') : Reports s s'' := by
  obtain ⟨errors, iterations, rfl⟩ := h
  obtain ⟨errors', iterations', rfl⟩ := h'
  exact ⟨errors ++ errors', iterations', by rw [← List.append_assoc]⟩

theorem valueScopes (h : Reports s s') : s'.valueScopes = s.valueScopes := by
  obtain ⟨errors, iterations, rfl⟩ := h
  rfl

theorem functions (h : Reports s s') : s'.functions = s.functions := by
  obtain ⟨errors, iterations, rfl⟩ := h
  rfl

theorem typeBindings (h : Reports s s') : s'.typeBindings = s.typeBindings := by
  obtain ⟨errors, iterations, rfl⟩ := h
  rfl

theorem diagnostics (h : Reports s s') : s.diagnostics <+: s'.diagnostics := by
  obtain ⟨errors, iterations, rfl⟩ := h
  exact List.prefix_append _ _

theorem diagnostic (s : Analyzer) (code : DiagnosticCode) (message : String) (span : Span) :
    Reports s (s.diagnostic code message span) := ⟨[⟨code, message, span⟩], s.iterations, rfl⟩

end Reports

/-- Later steps of an analysis: what was reported stays, the functions are the same. -/
structure Advances (s s' : Analyzer) : Prop where
  diagnostics : s.diagnostics <+: s'.diagnostics
  functions : s'.functions = s.functions

namespace Advances

variable {s s' s'' : Analyzer}

theorem refl (s : Analyzer) : Advances s s := ⟨List.prefix_rfl, rfl⟩

theorem trans (h : Advances s s') (h' : Advances s' s'') : Advances s s'' :=
  ⟨h.diagnostics.trans h'.diagnostics, h'.functions.trans h.functions⟩

theorem of_reports (h : Reports s s') : Advances s s' := ⟨h.diagnostics, h.functions⟩

end Advances

/-- An analysis that ends without diagnostics never had any. -/
theorem quiet_of_earlier {s s' : Analyzer} (h : s.diagnostics <+: s'.diagnostics)
    (hquiet : s'.diagnostics = []) : s.diagnostics = [] := by
  rw [hquiet] at h
  exact List.prefix_nil.mp h

mutual

theorem resolveTypeNode_reports (ty : TypeNode) (s : Analyzer) :
    Reports s (resolveTypeNode ty s).2 := by
  cases ty with
  | named name span =>
    rw [resolveTypeNode]
    cases s.typeBindings.lookup name with
    | some ty => exact .refl s
    | none => exact .diagnostic s _ _ _
  | array inner span =>
    rw [resolveTypeNode]
    exact resolveTypeNode_reports inner s
  | object members span =>
    rw [resolveTypeNode]
    exact resolveTypeMembers_reports members s
  | _ =>
    rw [resolveTypeNode]
    exact .refl s

theorem resolveTypeMembers_reports (members : List TypeMember) (s : Analyzer) :
    Reports s (resolveTypeMembers members s).2 := by
  match members with
  | [] =>
    rw [resolveTypeMembers]
    exact .refl s
  | .mk name ty span :: members =>
    rw [resolveTypeMembers]
    exact (resolveTypeNode_reports ty s).trans (resolveTypeMembers_reports members _)

end

theorem resolveOptionalType_reports (default : Ty) (ty : Option TypeNode) (s : Analyzer) :
    Reports s (resolveOptionalType default ty s).2 := by
  cases ty with
  | none => exact .refl s
  | some ty => exact resolveTypeNode_reports ty s

theorem resolveParams_reports (params : List Parameter) (s : Analyzer) :
    Reports s (resolveParams params s).2 := by
  induction params generalizing s with
  | nil => exact .refl s
  | cons param params ih =>
    rw [resolveParams]
    exact (resolveOptionalType_reports _ param.ty s).trans (ih _)

theorem resolveClassMembers_reports (members : List ClassMember) (s : Analyzer) :
    Reports s (resolveClassMembers members s).2 := by
  induction members generalizing s with
  | nil => exact .refl s
  | cons member members ih =>
    rw [resolveClassMembers]
    exact (resolveOptionalType_reports _ member.ty s).trans (ih _)

section Order

variable (order : IterationOrder)

theorem requireAssignable_reports (expected actual : Ty) (span : Span) (code : DiagnosticCode)
    (s : Analyzer) : Reports s (requireAssignable order expected actual span code s) :=
  ⟨_, _, rfl⟩

theorem memberType_reports (objectType : Ty) (property : String) (span : Span) (s : Analyzer) :
    Reports s (memberType objectType property span s).2 := by
  unfold memberType
  split
  · split
    · exact .refl s
    · exact .diagnostic s _ _ _
  · exact .refl s
  · exact .diagnostic s _ _ _

theorem requireNumbers_reports (leftType rightType : Ty) (leftSpan rightSpan : Span)
    (s : Analyzer) : Reports s (requireNumbers order leftType rightType leftSpan rightSpan s) :=
  (requireAssignable_reports order _ _ _ _ s).trans (requireAssignable_reports order _ _ _ _ _)

theorem binaryResult_reports (operator : BinaryOperator) (leftType rightType : Ty)
    (leftSpan rightSpan : Span) (s : Analyzer) :
    Reports s (binaryResult order operator leftType rightType leftSpan rightSpan s).2 := by
  have hnumbers := requireNumbers_reports order leftType rightType leftSpan rightSpan s
  have hbooleans : Reports s (requireAssignable order .boolean rightType rightSpan .typeMismatch
      (requireAssignable order .boolean leftType leftSpan .typeMismatch s)) :=
    (requireAssignable_reports order _ _ _ _ s).trans (requireAssignable_reports order _ _ _ _ _)
  cases operator with
  | add =>
    by_cases hstring : (leftType.isString || rightType.isString) = true
    · rw [binaryResult, if_pos hstring]
      exact .refl s
    · rw [binaryResult, if_neg hstring]
      exact hnumbers
  | subtract | multiply | divide | remainder => exact hnumbers
  | logicalAnd | logicalOr => exact hbooleans
  | _ => exact .refl s

theorem assignmentResult_reports (operator : AssignmentOperator) (leftType rightType : Ty)
    (leftSpan rightSpan span : Span) (s : Analyzer) :
    Reports s (assignmentResult order operator leftType rightType leftSpan rightSpan span s).2 := by
  unfold assignmentResult
  split
  · exact requireAssignable_reports order _ _ _ _ s
  · exact requireNumbers_reports order _ _ _ _ s

/-- The result of `infer_call` once the callee is inferred. -/
def callResult (calleeType : Ty) (arguments : List Expression) (span : Span) (s : Analyzer) :
    Ty × Analyzer :=
  match calleeType with
  | .function params returnType variadic =>
    (returnType, inferArguments order params arguments
      (if !variadic && params.length != arguments.length then
        s.diagnostic .wrongArgumentCount
          s!"expected {params.length} arguments, found {arguments.length}" span
      else s))
  | .unknown => (.unknown, s)
  | _ => (.unknown, s.diagnostic .invalidCallTarget "value is not callable" span)

theorem inferExpression_call (callee : Expression) (arguments : List Expression) (span : Span)
    (s : Analyzer) :
    inferExpression order (.call callee arguments span) s =
      callResult order (inferExpression order callee s).1 arguments span
        (inferExpression order callee s).2 := by
  rw [inferExpression]
  rfl

mutual

theorem inferExpression_reports (expression : Expression) (s : Analyzer) :
    Reports s (inferExpression order expression s).2 := by
  cases expression with
  | identifier name span =>
    rw [inferExpression]
    cases s.lookupValue name with
    | some ty => exact .refl s
    | none => exact .diagnostic s _ _ _
  | object properties span =>
    rw [inferExpression]
    exact inferProperties_reports properties s
  | array elements span =>
    rw [inferExpression]
    exact inferElements_reports elements _ s
  | member object property span =>
    rw [inferExpression]
    exact (inferExpression_reports object s).trans (memberType_reports _ _ _ _)
  | call callee arguments span =>
    have hcallee := inferExpression_reports callee s
    rw [inferExpression_call]
    refine hcallee.trans ?_
    cases (inferExpression order callee s).1 with
    | function params returnType variadic =>
      refine .trans ?_ (inferArguments_reports params arguments _)
      split
      · exact .diagnostic _ _ _ _
      · exact .refl _
    | unknown => exact .refl _
    | _ => exact .diagnostic _ _ _ _
  | unary operator argument span =>
    have hargument := inferExpression_reports argument s
    rw [inferExpression]
    refine hargument.trans ?_
    cases operator with
    | negate => exact requireAssignable_reports order .number _ _ _ _
    | not => exact .refl _
  | binary left operator right span =>
    rw [inferExpression]
    exact ((inferExpression_reports left s).trans (inferExpression_reports right _)).trans
      (binaryResult_reports order _ _ _ _ _ _)
  | assignment left operator right span =>
    rw [inferExpression]
    exact ((inferExpression_reports left s).trans (inferExpression_reports right _)).trans
      (assignmentResult_reports order _ _ _ _ _ _ _)
  | _ =>
    rw [inferExpression]
    exact .refl s

theorem inferProperties_reports (properties : List ObjectProperty) (s : Analyzer) :
    Reports s (inferProperties order properties s).2 := by
  match properties with
  | [] =>
    rw [inferProperties]
    exact .refl s
  | .mk name value span :: properties =>
    rw [inferProperties]
    exact (inferExpression_reports value s).trans (inferProperties_reports properties _)

theorem inferElements_reports (elements : List Expression) (elementType : Ty) (s : Analyzer) :
    Reports s (inferElements order elements elementType s).2 := by
  match elements with
  | [] =>
    rw [inferElements]
    exact .refl s
  | element :: elements =>
    have helement := inferExpression_reports element s
    rw [inferElements]
    refine helement.trans ?_
    dsimp only
    by_cases hunknown : elementType.isUnknown = true
    · rw [if_pos hunknown]
      exact inferElements_reports elements _ _
    · rw [if_neg hunknown]
      exact (requireAssignable_reports order elementType _ _ _ _).trans
        (inferElements_reports elements _ _)

theorem inferArguments_reports (params : List Ty) (arguments : List Expression) (s : Analyzer) :
    Reports s (inferArguments order params arguments s) := by
  match params, arguments with
  | [], _ =>
    rw [inferArguments]
    · exact .refl s
    · simp
  | _ :: _, [] =>
    rw [inferArguments]
    · exact .refl s
    · simp
  | expected :: params, argument :: arguments =>
    rw [inferArguments]
    exact ((inferExpression_reports argument s).trans
      (requireAssignable_reports order _ _ _ _ _)).trans (inferArguments_reports params arguments _)

end

theorem inferOptional_reports (expression : Option Expression) (s : Analyzer) :
    Reports s (inferOptional order expression s).2 := by
  cases expression with
  | none => exact .refl s
  | some expression => exact inferExpression_reports order expression s

theorem analyzeReturn_reports (value : Option Expression) (span : Span) (s : Analyzer) :
    Reports s (analyzeReturn order value span s) := by
  have hvalue := inferOptional_reports order value s
  unfold analyzeReturn
  dsimp only
  split
  · exact hvalue
  · exact hvalue.trans (requireAssignable_reports order _ _ _ _ _)

theorem pushScope_advances (s : Analyzer) : Advances s s.pushScope := ⟨List.prefix_rfl, rfl⟩

theorem popScope_advances (s : Analyzer) : Advances s s.popScope := ⟨List.prefix_rfl, rfl⟩

theorem defineValue_advances (name : String) (ty : Ty) (kind : SymbolKind) (span : Option Span)
    (s : Analyzer) : Advances s (s.defineValue name ty kind span) := by
  unfold Analyzer.defineValue
  split
  · exact .refl s
  · split
    · split
      · exact .of_reports (.diagnostic s _ _ _)
      · exact .refl s
    · dsimp only
      split
      · exact ⟨List.prefix_rfl, rfl⟩
      · exact ⟨List.prefix_rfl, rfl⟩

theorem defineType_advances (name : String) (ty : Ty) (kind : SymbolKind) (span : Span)
    (s : Analyzer) : Advances s (s.defineType name ty kind span) := by
  unfold Analyzer.defineType
  split
  · exact .of_reports (.diagnostic s _ _ _)
  · exact ⟨List.prefix_rfl, rfl⟩

/-- The state in which a declaration adds its variable. -/
def checkedVariable (declaration : VariableDeclaration) (span : Span) (s : Analyzer) :
    Ty × Analyzer :=
  let (declared, s) :=
    match declaration.ty with
    | some ty =>
      let (ty, s) := resolveTypeNode ty s
      (some ty, s)
    | none => (none, s)
  let (initializer, s) := inferOptional order declaration.initializer s
  let s :=
    match declared, initializer with
    | some expected, some actual => requireAssignable order expected actual span .typeMismatch s
    | _, _ => s
  ((declared.or initializer).getD .unknown, s)

theorem analyzeVariable_eq (declaration : VariableDeclaration) (span : Span) (s : Analyzer) :
    analyzeVariable order declaration span s =
      (checkedVariable order declaration span s).2.defineValue declaration.name
        (checkedVariable order declaration span s).1 .variable (some span) := rfl

theorem checkedVariable_reports (declaration : VariableDeclaration) (span : Span) (s : Analyzer) :
    Reports s (checkedVariable order declaration span s).2 := by
  unfold checkedVariable
  cases declaration.ty with
  | none =>
    dsimp only
    exact inferOptional_reports order declaration.initializer s
  | some ty =>
    have htype := (resolveTypeNode_reports ty s).trans
      (inferOptional_reports order declaration.initializer _)
    dsimp only
    split
    · exact htype.trans (requireAssignable_reports order _ _ _ _ _)
    · exact htype

theorem analyzeVariable_advances (declaration : VariableDeclaration) (span : Span)
    (s : Analyzer) : Advances s (analyzeVariable order declaration span s) := by
  rw [analyzeVariable_eq]
  exact (Advances.of_reports (checkedVariable_reports order declaration span s)).trans
    (defineValue_advances _ _ _ _ _)

mutual

theorem analyzeStatement_advances (statement : Statement) (s : Analyzer) :
    Advances s (analyzeStatement order statement s) := by
  cases statement with
  | «variable» declaration span =>
    rw [analyzeStatement]
    exact analyzeVariable_advances order declaration span s
  | «return» value span =>
    rw [analyzeStatement]
    exact .of_reports (analyzeReturn_reports order value span s)
  | throw value span =>
    rw [analyzeStatement]
    exact .of_reports (inferExpression_reports order value s)
  | expression value span =>
    rw [analyzeStatement]
    exact .of_reports (inferExpression_reports order value s)
  | «if» test consequent alternate span =>
    rw [analyzeStatement]
    exact ((Advances.of_reports (inferExpression_reports order test s)).trans
      (analyzeStatement_advances consequent _)).trans (analyzeOptional_advances alternate _)
  | «while» test body span =>
    rw [analyzeStatement]
    exact (Advances.of_reports (inferExpression_reports order test s)).trans
      (analyzeStatement_advances body _)
  | «for» initializer test update body span =>
    have hheader := ((pushScope_advances s).trans (analyzeOptional_advances initializer _)).trans
      (.of_reports ((inferOptional_reports order test _).trans
        (inferOptional_reports order update _)))
    rw [analyzeStatement]
    exact (hheader.trans (analyzeStatement_advances body _)).trans (popScope_advances _)
  | block body span =>
    rw [analyzeStatement]
    exact ((pushScope_advances s).trans (analyzeStatements_advances body _)).trans
      (popScope_advances _)
  | «export» inner span =>
    rw [analyzeStatement]
    exact analyzeStatement_advances inner s
  | _ =>
    rw [analyzeStatement]
    exact .refl s

theorem analyzeOptional_advances (statement : Option Statement) (s : Analyzer) :
    Advances s (analyzeOptional order statement s) := by
  match statement with
  | none =>
    rw [analyzeOptional]
    exact .refl s
  | some statement =>
    rw [analyzeOptional]
    exact analyzeStatement_advances statement s

theorem analyzeStatements_advances (statements : List Statement) (s : Analyzer) :
    Advances s (analyzeStatements order statements s) := by
  match statements with
  | [] =>
    rw [analyzeStatements]
    exact .refl s
  | statement :: statements =>
    rw [analyzeStatements]
    exact (analyzeStatement_advances statement s).trans (analyzeStatements_advances statements _)

end

theorem defineParams_advances (params : List Parameter) (s : Analyzer) :
    Advances s (defineParams params s) := by
  induction params generalizing s with
  | nil => exact .refl s
  | cons param params ih =>
    rw [defineParams]
    exact ((Advances.of_reports (resolveOptionalType_reports _ param.ty s)).trans
      (defineValue_advances _ _ _ _ _)).trans (ih _)

end Order

/-- The state in which the body of a function is analyzed. -/
def bodyAnalyzer (binding : FunctionBinding) (s : Analyzer) : Analyzer :=
  let resolved := resolveOptionalType .undefined binding.declaration.returnType s
  defineParams binding.declaration.params
    { resolved.2 with currentReturnType := some resolved.1 }.pushScope

end Tsvm.AnalyzerSteps
