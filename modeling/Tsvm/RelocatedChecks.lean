import Tsvm.Relocation
import Tsvm.SemanticOrders
import Tsvm.Subtyping
import Tsvm.TopLevelFunctions

set_option autoImplicit false

/-!
# Checks of a relocated program

Whether an analysis reports anything does not depend on where the program
stands, on the orders of its loops or on the order in which names were bound.
`Similar` analyzers find the same under every name, and have both reported
something or both nothing.
-/
namespace Tsvm.RelocatedChecks
open AnalyzerSteps Ast Parsing Semantic Subtyping TopLevelFunctions

/-- The same is bound to every name. -/
def SameBindings (bindings bindings' : List (String × Ty)) : Prop :=
  ∀ name, bindings.lookup name = bindings'.lookup name

structure Similar (s s' : Analyzer) : Prop where
  types : SameBindings s.typeBindings s'.typeBindings
  scopes : List.Forall₂ SameBindings s.valueScopes s'.valueScopes
  returnType : s.currentReturnType = s'.currentReturnType
  quiet : s.diagnostics = [] ↔ s'.diagnostics = []

/-- Equal results and similar analyzers. -/
def SimilarResult {α : Type} (r r' : α × Analyzer) : Prop := r.1 = r'.1 ∧ Similar r.2 r'.2

theorem SameBindings.cons {bindings bindings' : List (String × Ty)}
    (h : SameBindings bindings bindings') (name : String) (ty : Ty) :
    SameBindings ((name, ty) :: bindings) ((name, ty) :: bindings') := by
  intro key
  rw [List.lookup_cons, List.lookup_cons, h key]

theorem findSome_scopes {scopes scopes' : List Scope} (h : List.Forall₂ SameBindings scopes scopes')
    (name : String) : (scopes.findSome? fun scope => scope.lookup name) =
      scopes'.findSome? fun scope => scope.lookup name := by
  induction h with
  | nil => rfl
  | @cons scope scope' scopes scopes' hscope _ ih =>
    rw [List.findSome?_cons, List.findSome?_cons, hscope name, ih]

namespace Similar

variable {s s' : Analyzer}

theorem refl (s : Analyzer) : Similar s s :=
  ⟨fun _ => rfl, List.forall₂_same.mpr fun _ _ _ => rfl, rfl, .rfl⟩

theorem symm (h : Similar s s') : Similar s' s where
  types name := (h.types name).symm
  scopes := (List.Forall₂.flip h.scopes).imp fun _ _ hscope name => (hscope name).symm
  returnType := h.returnType.symm
  quiet := h.quiet.symm

theorem trans {s₁ s₂ s₃ : Analyzer} (h : Similar s₁ s₂) (h' : Similar s₂ s₃) : Similar s₁ s₃ where
  types name := (h.types name).trans (h'.types name)
  scopes := by
    have hscopes := h.scopes
    have hscopes' := h'.scopes
    generalize s₁.valueScopes = scopes₁ at hscopes
    generalize s₂.valueScopes = scopes₂ at hscopes hscopes'
    generalize s₃.valueScopes = scopes₃ at hscopes'
    induction hscopes generalizing scopes₃ with
    | nil =>
      cases hscopes'
      exact .nil
    | cons hscope _ ih =>
      cases hscopes' with
      | cons hscope' hrest => exact .cons (fun name => (hscope name).trans (hscope' name)) (ih _ hrest)
  returnType := h.returnType.trans h'.returnType
  quiet := h.quiet.trans h'.quiet

theorem lookupValue (h : Similar s s') (name : String) : s.lookupValue name = s'.lookupValue name :=
  findSome_scopes h.scopes name

theorem diagnostic (h : Similar s s') (code : DiagnosticCode) (message : String)
    (span span' : Span) : Similar (s.diagnostic code message span)
      (s'.diagnostic code message span') := by
  refine ⟨h.types, h.scopes, h.returnType, ?_⟩
  simp [Analyzer.diagnostic]

/-- Reports that are added on both sides, if any are. -/
theorem append (h : Similar s s') {errors errors' : List SemanticDiagnostic}
    (herrors : errors = [] ↔ errors' = []) (iterations iterations' : ℕ) :
    Similar { s with diagnostics := s.diagnostics ++ errors, iterations }
      { s' with diagnostics := s'.diagnostics ++ errors', iterations := iterations' } := by
  refine ⟨h.types, h.scopes, h.returnType, ?_⟩
  change s.diagnostics ++ errors = [] ↔ s'.diagnostics ++ errors' = []
  rw [List.append_eq_nil_iff, List.append_eq_nil_iff, h.quiet, herrors]

theorem pushScope (h : Similar s s') : Similar s.pushScope s'.pushScope :=
  ⟨h.types, .cons (fun _ => rfl) h.scopes, h.returnType, h.quiet⟩

theorem popScope (h : Similar s s') : Similar s.popScope s'.popScope := by
  refine ⟨h.types, ?_, h.returnType, h.quiet⟩
  have hscopes := h.scopes
  change List.Forall₂ SameBindings s.valueScopes.tail s'.valueScopes.tail
  generalize s.valueScopes = scopes at hscopes
  generalize s'.valueScopes = scopes' at hscopes
  cases hscopes with
  | nil => exact .nil
  | cons _ hrest => exact hrest

theorem returning (h : Similar s s') (returnType : Option Ty) :
    Similar { s with currentReturnType := returnType }
      { s' with currentReturnType := returnType } :=
  ⟨h.types, h.scopes, rfl, h.quiet⟩

theorem defineValue (h : Similar s s') (name : String) (ty : Ty) (kind : SymbolKind)
    (span span' : Span) :
    Similar (s.defineValue name ty kind (some span)) (s'.defineValue name ty kind (some span')) := by
  have hscopes := h.scopes
  unfold Analyzer.defineValue
  cases hs : s.valueScopes with
  | nil =>
    rw [hs] at hscopes
    rw [List.forall₂_nil_left_iff.mp hscopes]
    exact h
  | cons scope scopes =>
    rw [hs] at hscopes
    obtain ⟨scope', scopes', hscope, hrest, hs'⟩ := List.forall₂_cons_left_iff.mp hscopes
    rw [hs']
    dsimp only
    rw [hscope name]
    by_cases hdefined : (scope'.lookup name).isSome = true
    · rw [if_pos hdefined, if_pos hdefined]
      exact h.diagnostic _ _ _ _
    · have hnew : List.Forall₂ SameBindings (((name, ty) :: scope) :: scopes)
          (((name, ty) :: scope') :: scopes') := .cons (hscope.cons name ty) hrest
      rw [if_neg hdefined, if_neg hdefined]
      split <;> split <;> exact ⟨h.types, hnew, h.returnType, h.quiet⟩

theorem defineType (h : Similar s s') (name : String) (ty : Ty) (kind : SymbolKind)
    (span span' : Span) :
    Similar (s.defineType name ty kind span) (s'.defineType name ty kind span') := by
  unfold Analyzer.defineType
  rw [h.types name]
  by_cases hdefined : (s'.typeBindings.lookup name).isSome = true
  · rw [if_pos hdefined, if_pos hdefined]
    exact h.diagnostic _ _ _ _
  · rw [if_neg hdefined, if_neg hdefined]
    exact ⟨h.types.cons name ty, h.scopes, h.returnType, h.quiet⟩

end Similar

section Relocated

variable (φ : Position → Position)

mutual

theorem resolveTypeNode_similar {s s' : Analyzer} (h : Similar s s') (ty : TypeNode) :
    SimilarResult (resolveTypeNode ty s) (resolveTypeNode (ty.relocate φ) s') := by
  cases ty with
  | named name span =>
    rw [TypeNode.relocate, resolveTypeNode, resolveTypeNode, h.types name]
    cases s'.typeBindings.lookup name with
    | none => exact ⟨rfl, h.diagnostic _ _ _ _⟩
    | some ty => exact ⟨rfl, h⟩
  | array inner span =>
    have hinner := resolveTypeNode_similar h inner
    rw [TypeNode.relocate, resolveTypeNode, resolveTypeNode]
    exact ⟨congrArg Ty.array hinner.1, hinner.2⟩
  | object members span =>
    have hmembers := resolveTypeMembers_similar h members
    rw [TypeNode.relocate, resolveTypeNode, resolveTypeNode]
    exact ⟨congrArg (fun fields => Ty.object (collectFields fields)) hmembers.1, hmembers.2⟩
  | _ =>
    rw [TypeNode.relocate, resolveTypeNode, resolveTypeNode]
    exact ⟨rfl, h⟩

theorem resolveTypeMembers_similar {s s' : Analyzer} (h : Similar s s') (members : List TypeMember) :
    SimilarResult (resolveTypeMembers members s)
      (resolveTypeMembers (relocateMembers φ members) s') := by
  match members with
  | [] =>
    rw [relocateMembers, resolveTypeMembers, resolveTypeMembers]
    exact ⟨rfl, h⟩
  | .mk name ty span :: members =>
    have hty := resolveTypeNode_similar h ty
    have hmembers := resolveTypeMembers_similar hty.2 members
    rw [relocateMembers, TypeMember.relocate, resolveTypeMembers, resolveTypeMembers]
    exact ⟨congrArg₂ (fun ty fields => (name, ty) :: fields) hty.1 hmembers.1, hmembers.2⟩

end

theorem resolveOptionalType_similar {s s' : Analyzer} (h : Similar s s') (default : Ty)
    (ty : Option TypeNode) :
    SimilarResult (resolveOptionalType default ty s)
      (resolveOptionalType default (ty.map (TypeNode.relocate φ)) s') := by
  cases ty with
  | none => exact ⟨rfl, h⟩
  | some ty => exact resolveTypeNode_similar φ h ty

theorem resolveParams_similar {s s' : Analyzer} (h : Similar s s') (params : List Parameter) :
    SimilarResult (resolveParams params s)
      (resolveParams (params.map (Parameter.relocate φ)) s') := by
  induction params generalizing s s' with
  | nil => exact ⟨rfl, h⟩
  | cons param params ih =>
    have hparam := resolveOptionalType_similar φ h .unknown param.ty
    have hparams := ih hparam.2
    exact ⟨congrArg₂ List.cons hparam.1 hparams.1, hparams.2⟩

theorem resolveClassMembers_similar {s s' : Analyzer} (h : Similar s s')
    (members : List ClassMember) :
    SimilarResult (resolveClassMembers members s)
      (resolveClassMembers (members.map (ClassMember.relocate φ)) s') := by
  induction members generalizing s s' with
  | nil => exact ⟨rfl, h⟩
  | cons member members ih =>
    have hmember := resolveOptionalType_similar φ h .unknown member.ty
    have hmembers := ih hmember.2
    exact ⟨congrArg₂ (fun ty fields => (member.name, ty) :: fields) hmember.1 hmembers.1,
      hmembers.2⟩

theorem defineParams_similar {s s' : Analyzer} (h : Similar s s') (params : List Parameter) :
    Similar (defineParams params s) (defineParams (params.map (Parameter.relocate φ)) s') := by
  induction params generalizing s s' with
  | nil => exact h
  | cons param params ih =>
    have hparam := resolveOptionalType_similar φ h .unknown param.ty
    rw [List.map_cons, defineParams, defineParams]
    dsimp only [Parameter.relocate]
    rw [← hparam.1]
    exact ih (hparam.2.defineValue _ _ _ _ _)

variable (order order' : IterationOrder)

theorem requireAssignable_similar {s s' : Analyzer} (h : Similar s s') (expected actual : Ty)
    (span span' : Span) (code : DiagnosticCode) :
    Similar (requireAssignable order expected actual span code s)
      (requireAssignable order' expected actual span' code s') := by
  unfold requireAssignable
  apply h.append
  rw [assignableErrors_nil_iff, assignableErrors_nil_iff]

theorem requireNumbers_similar {s s' : Analyzer} (h : Similar s s') (leftType rightType : Ty)
    (leftSpan rightSpan leftSpan' rightSpan' : Span) :
    Similar (requireNumbers order leftType rightType leftSpan rightSpan s)
      (requireNumbers order' leftType rightType leftSpan' rightSpan' s') :=
  requireAssignable_similar order order' (requireAssignable_similar order order' h _ _ _ _ _)
    _ _ _ _ _

theorem memberType_similar {s s' : Analyzer} (h : Similar s s') (objectType : Ty)
    (property : String) (span span' : Span) :
    SimilarResult (memberType objectType property span s)
      (memberType objectType property span' s') := by
  unfold memberType
  cases objectType with
  | object fields =>
    cases hfield : fields.lookup property with
    | none =>
      simp only [hfield]
      exact ⟨rfl, h.diagnostic _ _ _ _⟩
    | some ty =>
      simp only [hfield]
      exact ⟨rfl, h⟩
  | unknown => exact ⟨rfl, h⟩
  | _ => exact ⟨rfl, h.diagnostic _ _ _ _⟩

theorem binaryResult_similar {s s' : Analyzer} (h : Similar s s') (operator : BinaryOperator)
    (leftType rightType : Ty) (leftSpan rightSpan leftSpan' rightSpan' : Span) :
    SimilarResult (binaryResult order operator leftType rightType leftSpan rightSpan s)
      (binaryResult order' operator leftType rightType leftSpan' rightSpan' s') := by
  have hnumbers := requireNumbers_similar order order' h leftType rightType leftSpan rightSpan
    leftSpan' rightSpan'
  have hbooleans := requireAssignable_similar order order' (requireAssignable_similar order order' h
    .boolean leftType leftSpan leftSpan' .typeMismatch) .boolean rightType rightSpan rightSpan'
    .typeMismatch
  cases operator with
  | add =>
    unfold binaryResult
    by_cases hstring : (leftType.isString || rightType.isString) = true
    · simp only [hstring, if_true]
      exact ⟨rfl, h⟩
    · simp only [hstring]
      exact ⟨rfl, hnumbers⟩
  | subtract => exact ⟨rfl, hnumbers⟩
  | multiply => exact ⟨rfl, hnumbers⟩
  | divide => exact ⟨rfl, hnumbers⟩
  | remainder => exact ⟨rfl, hnumbers⟩
  | logicalAnd => exact ⟨rfl, hbooleans⟩
  | logicalOr => exact ⟨rfl, hbooleans⟩
  | _ => exact ⟨rfl, h⟩

theorem assignmentResult_similar {s s' : Analyzer} (h : Similar s s')
    (operator : AssignmentOperator) (leftType rightType : Ty)
    (leftSpan rightSpan span leftSpan' rightSpan' span' : Span) :
    SimilarResult (assignmentResult order operator leftType rightType leftSpan rightSpan span s)
      (assignmentResult order' operator leftType rightType leftSpan' rightSpan' span' s') := by
  cases operator with
  | assign => exact ⟨rfl, requireAssignable_similar order order' h _ _ _ _ _⟩
  | _ => exact ⟨rfl, requireNumbers_similar order order' h _ _ _ _ _ _⟩

theorem relocateExpressions_length (values : List Expression) :
    (relocateExpressions φ values).length = values.length := by
  induction values with
  | nil => rfl
  | cons value values ih => rw [relocateExpressions, List.length_cons, List.length_cons, ih]

mutual

theorem inferExpression_similar {s s' : Analyzer} (h : Similar s s') (expression : Expression) :
    SimilarResult (inferExpression order expression s)
      (inferExpression order' (expression.relocate φ) s') := by
  cases expression with
  | identifier name span =>
    rw [Expression.relocate, inferExpression, inferExpression, h.lookupValue]
    cases s'.lookupValue name with
    | none => exact ⟨rfl, h.diagnostic _ _ _ _⟩
    | some ty => exact ⟨rfl, h⟩
  | object properties span =>
    have hproperties := inferProperties_similar h properties
    rw [Expression.relocate, inferExpression, inferExpression]
    exact ⟨congrArg (fun fields => Ty.object (collectFields fields)) hproperties.1, hproperties.2⟩
  | array elements span =>
    have helements := inferElements_similar h elements .unknown
    rw [Expression.relocate, inferExpression, inferExpression]
    exact ⟨congrArg Ty.array helements.1, helements.2⟩
  | member object property span =>
    have hobject := inferExpression_similar h object
    rw [Expression.relocate, inferExpression, inferExpression]
    simp only [← hobject.1]
    exact memberType_similar hobject.2 _ property _ _
  | call callee arguments span =>
    have hcallee := inferExpression_similar h callee
    rw [Expression.relocate, inferExpression, inferExpression]
    simp only [← hcallee.1, relocateExpressions_length]
    cases (inferExpression order callee s).1 with
    | function params returnType variadic =>
      simp only
      refine ⟨rfl, inferArguments_similar ?_ params arguments⟩
      split
      · exact hcallee.2.diagnostic _ _ _ _
      · exact hcallee.2
    | unknown => exact ⟨rfl, hcallee.2⟩
    | _ => exact ⟨rfl, hcallee.2.diagnostic _ _ _ _⟩
  | unary operator argument span =>
    have hargument := inferExpression_similar h argument
    have hnumber := requireAssignable_similar order order' hargument.2 .number
      (inferExpression order argument s).1 argument.span (argument.relocate φ).span .typeMismatch
    rw [Expression.relocate, inferExpression, inferExpression]
    simp only [← hargument.1]
    cases operator with
    | negate => exact ⟨rfl, hnumber⟩
    | not => exact ⟨rfl, hargument.2⟩
  | binary left operator right span =>
    have hleft := inferExpression_similar h left
    have hright := inferExpression_similar hleft.2 right
    rw [Expression.relocate, inferExpression, inferExpression]
    simp only [← hleft.1, ← hright.1]
    exact binaryResult_similar order order' hright.2 _ _ _ _ _ _ _
  | assignment left operator right span =>
    have hleft := inferExpression_similar h left
    have hright := inferExpression_similar hleft.2 right
    rw [Expression.relocate, inferExpression, inferExpression]
    simp only [← hleft.1, ← hright.1]
    exact assignmentResult_similar order order' hright.2 _ _ _ _ _ _ _ _ _
  | _ => exact ⟨rfl, h⟩

theorem inferProperties_similar {s s' : Analyzer} (h : Similar s s')
    (properties : List ObjectProperty) :
    SimilarResult (inferProperties order properties s)
      (inferProperties order' (relocateProperties φ properties) s') := by
  match properties with
  | [] => exact ⟨rfl, h⟩
  | .mk name value span :: properties =>
    have hvalue := inferExpression_similar h value
    have hrest := inferProperties_similar hvalue.2 properties
    rw [relocateProperties, ObjectProperty.relocate, inferProperties, inferProperties]
    exact ⟨congrArg₂ (fun ty fields => (name, ty) :: fields) hvalue.1 hrest.1, hrest.2⟩

theorem inferElements_similar {s s' : Analyzer} (h : Similar s s') (elements : List Expression)
    (elementType : Ty) :
    SimilarResult (inferElements order elements elementType s)
      (inferElements order' (relocateExpressions φ elements) elementType s') := by
  match elements with
  | [] => exact ⟨rfl, h⟩
  | element :: elements =>
    have helement := inferExpression_similar h element
    rw [relocateExpressions, inferElements, inferElements]
    simp only [← helement.1]
    split
    · exact inferElements_similar helement.2 elements _
    · exact inferElements_similar (requireAssignable_similar order order' helement.2 _ _ _ _ _)
        elements _

theorem inferArguments_similar {s s' : Analyzer} (h : Similar s s') (params : List Ty)
    (arguments : List Expression) :
    Similar (inferArguments order params arguments s)
      (inferArguments order' params (relocateExpressions φ arguments) s') := by
  match params, arguments with
  | expected :: params, argument :: arguments =>
    have hargument := inferExpression_similar h argument
    rw [relocateExpressions, inferArguments, inferArguments]
    simp only [← hargument.1]
    exact inferArguments_similar (requireAssignable_similar order order' hargument.2 _ _ _ _ _)
      params arguments
  | [], [] => exact h
  | [], _ :: _ => exact h
  | _ :: _, [] => exact h

end

theorem inferOptional_similar {s s' : Analyzer} (h : Similar s s')
    (expression : Option Expression) :
    SimilarResult (inferOptional order expression s)
      (inferOptional order' (expression.map (Expression.relocate φ)) s') := by
  cases expression with
  | none => exact ⟨rfl, h⟩
  | some expression =>
    have hexpression := inferExpression_similar φ order order' h expression
    exact ⟨congrArg some hexpression.1, hexpression.2⟩

theorem analyzeVariable_similar {s s' : Analyzer} (h : Similar s s')
    (declaration : VariableDeclaration) (span span' : Span) :
    Similar (analyzeVariable order declaration span s)
      (analyzeVariable order' (declaration.relocate φ) span' s') := by
  obtain ⟨kind, name, ty, initializer⟩ := declaration
  unfold analyzeVariable VariableDeclaration.relocate
  cases ty with
  | none =>
    have hinitializer := inferOptional_similar φ order order' h initializer
    simp only [Option.map_none, ← hinitializer.1]
    exact hinitializer.2.defineValue _ _ _ _ _
  | some ty =>
    have hty := resolveTypeNode_similar φ h ty
    have hinitializer := inferOptional_similar φ order order' hty.2 initializer
    simp only [Option.map_some, ← hinitializer.1, ← hty.1]
    refine Similar.defineValue ?_ _ _ _ _ _
    cases (inferOptional order initializer (resolveTypeNode ty s).2).1 with
    | none => exact hinitializer.2
    | some actual => exact requireAssignable_similar order order' hinitializer.2 _ _ _ _ _

theorem analyzeReturn_similar {s s' : Analyzer} (h : Similar s s') (value : Option Expression)
    (span span' : Span) :
    Similar (analyzeReturn order value span s)
      (analyzeReturn order' (value.map (Expression.relocate φ)) span' s') := by
  have hvalue := inferOptional_similar φ order order' h value
  unfold analyzeReturn
  simp only [← hvalue.1, ← hvalue.2.returnType]
  cases (inferOptional order value s).2.currentReturnType with
  | none => exact hvalue.2
  | some expected => exact requireAssignable_similar order order' hvalue.2 _ _ _ _ _

mutual

theorem analyzeStatement_similar {s s' : Analyzer} (h : Similar s s') (statement : Statement) :
    Similar (analyzeStatement order statement s)
      (analyzeStatement order' (statement.relocate φ) s') := by
  cases statement with
  | «variable» declaration span => exact analyzeVariable_similar φ order order' h declaration _ _
  | «return» value span => exact analyzeReturn_similar φ order order' h value _ _
  | throw value span => exact (inferExpression_similar φ order order' h value).2
  | expression value span => exact (inferExpression_similar φ order order' h value).2
  | «if» test consequent alternate span =>
    exact analyzeOptional_similar (analyzeStatement_similar
      (inferExpression_similar φ order order' h test).2 consequent) alternate
  | «while» test body span =>
    exact analyzeStatement_similar (inferExpression_similar φ order order' h test).2 body
  | «for» initializer test update body span =>
    have hinitializer := analyzeOptional_similar h.pushScope initializer
    have htest := (inferOptional_similar φ order order' hinitializer test).2
    have hupdate := (inferOptional_similar φ order order' htest update).2
    exact (analyzeStatement_similar hupdate body).popScope
  | block body span => exact (analyzeStatements_similar h.pushScope body).popScope
  | «export» inner span => exact analyzeStatement_similar h inner
  | _ => exact h

theorem analyzeOptional_similar {s s' : Analyzer} (h : Similar s s')
    (statement : Option Statement) :
    Similar (analyzeOptional order statement s)
      (analyzeOptional order' (relocateOption φ statement) s') := by
  match statement with
  | none => exact h
  | some statement => exact analyzeStatement_similar h statement

theorem analyzeStatements_similar {s s' : Analyzer} (h : Similar s s')
    (statements : List Statement) :
    Similar (analyzeStatements order statements s)
      (analyzeStatements order' (relocateStatements φ statements) s') := by
  match statements with
  | [] => exact h
  | statement :: statements =>
    exact analyzeStatements_similar (analyzeStatement_similar h statement) statements

end

def FunctionBinding.relocate (binding : FunctionBinding) : FunctionBinding :=
  ⟨⟨binding.declaration.name, binding.declaration.params.map (Parameter.relocate φ),
    binding.declaration.returnType.map (TypeNode.relocate φ),
    relocateStatements φ binding.declaration.body⟩, binding.statementSpan.relocate φ⟩

theorem analyzeFunctionBody_similar {s s' : Analyzer} (h : Similar s s')
    (binding : FunctionBinding) :
    Similar (analyzeFunctionBody order binding s)
      (analyzeFunctionBody order' (FunctionBinding.relocate φ binding) s') := by
  have hreturn := resolveOptionalType_similar φ h .undefined binding.declaration.returnType
  have hparams := defineParams_similar φ ((hreturn.2.returning
    (some (resolveOptionalType .undefined binding.declaration.returnType s).1)).pushScope)
    binding.declaration.params
  have hbody := (analyzeStatements_similar φ order order' hparams
    binding.declaration.body).popScope
  have hempty : (relocateStatements φ binding.declaration.body).isEmpty =
      binding.declaration.body.isEmpty := by
    cases binding.declaration.body <;> rfl
  unfold analyzeFunctionBody FunctionBinding.relocate
  simp only [← hreturn.1, ← hreturn.2.returnType, hempty]
  split
  · exact (hbody.returning _).diagnostic _ _ _ _
  · exact hbody.returning _

theorem collectStatementSymbol_similar {s s' : Analyzer} (h : Similar s s')
    (hfunctions : s'.functions = s.functions.map (FunctionBinding.relocate φ))
    (statement : Statement) :
    let t := collectStatementSymbol statement s
    let t' := collectStatementSymbol (statement.relocate φ) s'
    Similar t t' ∧ t'.functions = t.functions.map (FunctionBinding.relocate φ) := by
  cases statement with
  | interface declaration span =>
    have hmembers := resolveTypeMembers_similar φ h declaration.members
    rw [Statement.relocate, collectStatementSymbol, collectStatementSymbol]
    dsimp only
    rw [← hmembers.1, ((defineType_advances _ _ _ _ _)).functions,
      (defineType_advances _ _ _ _ _).functions, (resolveTypeMembers_reports _ s).functions,
      (resolveTypeMembers_reports _ s').functions]
    exact ⟨hmembers.2.defineType _ _ _ _ _, hfunctions⟩
  | typeAlias declaration span =>
    have hty := resolveTypeNode_similar φ h declaration.ty
    rw [Statement.relocate, collectStatementSymbol, collectStatementSymbol]
    dsimp only
    rw [← hty.1, (defineType_advances _ _ _ _ _).functions,
      (defineType_advances _ _ _ _ _).functions, (resolveTypeNode_reports _ s).functions,
      (resolveTypeNode_reports _ s').functions]
    exact ⟨hty.2.defineType _ _ _ _ _, hfunctions⟩
  | «class» declaration span =>
    have hmembers := resolveClassMembers_similar φ h declaration.members
    rw [Statement.relocate, collectStatementSymbol, collectStatementSymbol]
    dsimp only
    rw [← hmembers.1, (defineType_advances _ _ _ _ _).functions,
      (defineType_advances _ _ _ _ _).functions, (resolveClassMembers_reports _ s).functions,
      (resolveClassMembers_reports _ s').functions]
    exact ⟨hmembers.2.defineType _ _ _ _ _, hfunctions⟩
  | function declaration span =>
    have hparams := resolveParams_similar φ h declaration.params
    have hreturn := resolveOptionalType_similar φ hparams.2 .undefined declaration.returnType
    obtain ⟨name, params, returnType, body⟩ := declaration
    rw [Statement.relocate, collectStatementSymbol, collectStatementSymbol]
    dsimp only at hparams hreturn ⊢
    rw [← hparams.1, ← hreturn.1, (defineValue_advances _ _ _ _ _).functions,
      (defineValue_advances _ _ _ _ _).functions, (resolveOptionalType_reports _ _ _).functions,
      (resolveOptionalType_reports _ _ _).functions, (resolveParams_reports _ s).functions,
      (resolveParams_reports _ s').functions, hfunctions, List.map_append]
    have hdefined := hreturn.2.defineValue name (.function (resolveParams params s).1
      (resolveOptionalType .undefined returnType (resolveParams params s).2).1 false) .function
      span (span.relocate φ)
    exact ⟨⟨hdefined.types, hdefined.scopes, hdefined.returnType, hdefined.quiet⟩, rfl⟩
  | «export» inner span =>
    rw [Statement.relocate, collectStatementSymbol, collectStatementSymbol]
    exact collectStatementSymbol_similar h hfunctions inner
  | _ => exact ⟨h, hfunctions⟩
termination_by sizeOf statement
decreasing_by decreasing_tactic

theorem collectTopLevelSymbols_similar {s s' : Analyzer} (h : Similar s s')
    (hfunctions : s'.functions = s.functions.map (FunctionBinding.relocate φ))
    (body : List Statement) :
    let t := collectTopLevelSymbols body s
    let t' := collectTopLevelSymbols (relocateStatements φ body) s'
    Similar t t' ∧ t'.functions = t.functions.map (FunctionBinding.relocate φ) := by
  induction body generalizing s s' with
  | nil => exact ⟨h, hfunctions⟩
  | cons statement body ih =>
    obtain ⟨hfirst, hnext⟩ := collectStatementSymbol_similar φ h hfunctions statement
    exact ih hfirst hnext

theorem analyzeFunctionBodies_similar {s s' : Analyzer} (h : Similar s s')
    (bindings : List FunctionBinding) :
    Similar (bindings.foldl (fun s binding => analyzeFunctionBody order binding s) s)
      ((bindings.map (FunctionBinding.relocate φ)).foldl
        (fun s binding => analyzeFunctionBody order' binding s) s') := by
  induction bindings generalizing s s' with
  | nil => exact h
  | cons binding bindings ih => exact ih (analyzeFunctionBody_similar φ order order' h binding)

theorem relocateStatements_eq_map (body : List Statement) :
    relocateStatements φ body = body.map (Statement.relocate φ) := by
  induction body with
  | nil => rfl
  | cons statement body ih => rw [relocateStatements, List.map_cons, ih]

theorem isFunctionStatement_relocate (statement : Statement) :
    isFunctionStatement (statement.relocate φ) = isFunctionStatement statement := by
  cases statement <;> rfl

/-- Where a program stands and the orders of the loops of its analysis do not decide
    whether the analysis reports anything. -/
theorem analyzeProgram_relocate (body : List Statement) (span span' : Option Span) (s : Analyzer)
    (hfunctions : s.functions = []) :
    (analyzeProgram order ⟨body, span⟩ s).diagnostics = [] ↔
      (analyzeProgram order' ⟨relocateStatements φ body, span'⟩ s).diagnostics = [] := by
  have hinitial : (installBrowserBuiltins s.pushScope).functions = [] :=
    (defineValue_advances _ _ _ _ _).functions.trans hfunctions
  have hcollected := collectTopLevelSymbols_similar φ
    (Similar.refl (installBrowserBuiltins s.pushScope)) (by rw [hinitial]; rfl) body
  obtain ⟨hsimilar, hbindings⟩ := hcollected
  have hfunctions := analyzeFunctionBodies_similar φ order order' hsimilar
    (collectTopLevelSymbols body (installBrowserBuiltins s.pushScope)).functions
  rw [← hbindings] at hfunctions
  have hstatements := analyzeStatements_similar φ order order' hfunctions
    (body.filter fun statement => !isFunctionStatement statement)
  have hfilter : relocateStatements φ (body.filter fun statement => !isFunctionStatement statement) =
      (relocateStatements φ body).filter fun statement => !isFunctionStatement statement := by
    rw [relocateStatements_eq_map, relocateStatements_eq_map, List.filter_map]
    simp only [Function.comp_def, isFunctionStatement_relocate]
  rw [hfilter] at hstatements
  exact hstatements.quiet

end Relocated

end Tsvm.RelocatedChecks
