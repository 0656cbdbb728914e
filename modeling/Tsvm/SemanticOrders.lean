import Mathlib.Data.List.Forall2
import Mathlib.Data.List.Perm.Basic
import Tsvm.Semantic

set_option autoImplicit false

/-!
# Analyses under different orders

Two analyses of a program that go through the fields of a type in different
orders stay alike: they differ in the order of their diagnostics only.
-/
namespace Tsvm.SemanticOrders
open Ast Parsing Semantic

/-- Two analyzers that differ in the order of their diagnostics only. -/
def Alike (s s' : Analyzer) : Prop :=
  ∃ diagnostics, s.diagnostics.Perm diagnostics ∧ s' = { s with diagnostics }

/-- Equal results and analyzers that are alike. -/
def AlikeResult {α : Type} (r r' : α × Analyzer) : Prop := r.1 = r'.1 ∧ Alike r.2 r'.2

namespace Alike

variable {s s' : Analyzer}

theorem refl (s : Analyzer) : Alike s s := ⟨s.diagnostics, .refl _, rfl⟩

theorem append (h : Alike s s') {errors errors' : List SemanticDiagnostic}
    (herrors : errors.Perm errors') (iterations : ℕ) :
    Alike { s with diagnostics := s.diagnostics ++ errors, iterations }
      { s' with diagnostics := s'.diagnostics ++ errors', iterations } := by
  obtain ⟨diagnostics, hperm, rfl⟩ := h
  exact ⟨diagnostics ++ errors', hperm.append herrors, rfl⟩

theorem diagnostic (h : Alike s s') (code : DiagnosticCode) (message : String) (span : Span) :
    Alike (s.diagnostic code message span) (s'.diagnostic code message span) := by
  obtain ⟨diagnostics, hperm, rfl⟩ := h
  exact ⟨_, hperm.append_right _, rfl⟩

theorem pushScope (h : Alike s s') : Alike s.pushScope s'.pushScope := by
  obtain ⟨diagnostics, hperm, rfl⟩ := h
  exact ⟨diagnostics, hperm, rfl⟩

theorem popScope (h : Alike s s') : Alike s.popScope s'.popScope := by
  obtain ⟨diagnostics, hperm, rfl⟩ := h
  exact ⟨diagnostics, hperm, rfl⟩

theorem returning (h : Alike s s') (returnType : Option Ty) :
    Alike { s with currentReturnType := returnType } { s' with currentReturnType := returnType } := by
  obtain ⟨diagnostics, hperm, rfl⟩ := h
  exact ⟨diagnostics, hperm, rfl⟩

theorem register (h : Alike s s') (binding : FunctionBinding) :
    Alike { s with functions := s.functions ++ [binding] }
      { s' with functions := s'.functions ++ [binding] } := by
  obtain ⟨diagnostics, hperm, rfl⟩ := h
  exact ⟨diagnostics, hperm, rfl⟩

theorem lookupValue (h : Alike s s') (name : String) : s.lookupValue name = s'.lookupValue name := by
  obtain ⟨diagnostics, _, rfl⟩ := h
  rfl

theorem typeBindings (h : Alike s s') : s.typeBindings = s'.typeBindings := by
  obtain ⟨diagnostics, _, rfl⟩ := h
  rfl

theorem iterations (h : Alike s s') : s.iterations = s'.iterations := by
  obtain ⟨diagnostics, _, rfl⟩ := h
  rfl

theorem currentReturnType (h : Alike s s') : s.currentReturnType = s'.currentReturnType := by
  obtain ⟨diagnostics, _, rfl⟩ := h
  rfl

theorem diagnostics_perm (h : Alike s s') : s.diagnostics.Perm s'.diagnostics := by
  obtain ⟨diagnostics, hperm, rfl⟩ := h
  exact hperm

theorem defineType (h : Alike s s') (name : String) (ty : Ty) (kind : SymbolKind) (span : Span) :
    Alike (s.defineType name ty kind span) (s'.defineType name ty kind span) := by
  unfold Analyzer.defineType
  rw [← h.typeBindings]
  split
  · exact h.diagnostic _ _ _
  · obtain ⟨diagnostics, hperm, rfl⟩ := h
    exact ⟨diagnostics, hperm, rfl⟩

theorem defineValue (h : Alike s s') (name : String) (ty : Ty) (kind : SymbolKind)
    (span : Option Span) :
    Alike (s.defineValue name ty kind span) (s'.defineValue name ty kind span) := by
  have hscopes : s.valueScopes = s'.valueScopes := by
    obtain ⟨diagnostics, _, rfl⟩ := h
    rfl
  unfold Analyzer.defineValue
  rw [← hscopes]
  cases s.valueScopes with
  | nil => exact h
  | cons scope scopes =>
    simp only
    by_cases hdefined : (scope.lookup name).isSome = true
    · rw [if_pos hdefined, if_pos hdefined]
      cases span with
      | none => exact h
      | some span => exact h.diagnostic _ _ _
    · rw [if_neg hdefined, if_neg hdefined]
      obtain ⟨diagnostics, hperm, rfl⟩ := h
      split
      · exact ⟨diagnostics, hperm, rfl⟩
      · exact ⟨diagnostics, hperm, rfl⟩

end Alike

mutual

theorem resolveTypeNode_alike {s s' : Analyzer} (h : Alike s s') (ty : TypeNode) :
    AlikeResult (resolveTypeNode ty s) (resolveTypeNode ty s') := by
  cases ty with
  | named name span =>
    rw [resolveTypeNode, resolveTypeNode, ← h.typeBindings]
    cases s.typeBindings.lookup name with
    | none => exact ⟨rfl, h.diagnostic _ _ _⟩
    | some ty => exact ⟨rfl, h⟩
  | array inner span =>
    have hinner := resolveTypeNode_alike h inner
    rw [resolveTypeNode, resolveTypeNode]
    exact ⟨congrArg Ty.array hinner.1, hinner.2⟩
  | object members span =>
    have hmembers := resolveTypeMembers_alike h members
    rw [resolveTypeNode, resolveTypeNode]
    exact ⟨congrArg (fun fields => Ty.object (collectFields fields)) hmembers.1, hmembers.2⟩
  | _ =>
    rw [resolveTypeNode, resolveTypeNode]
    exact ⟨rfl, h⟩

theorem resolveTypeMembers_alike {s s' : Analyzer} (h : Alike s s') (members : List TypeMember) :
    AlikeResult (resolveTypeMembers members s) (resolveTypeMembers members s') := by
  match members with
  | [] =>
    rw [resolveTypeMembers, resolveTypeMembers]
    exact ⟨rfl, h⟩
  | .mk name ty span :: members =>
    have hty := resolveTypeNode_alike h ty
    have hmembers := resolveTypeMembers_alike hty.2 members
    rw [resolveTypeMembers, resolveTypeMembers]
    exact ⟨congrArg₂ (fun ty fields => (name, ty) :: fields) hty.1 hmembers.1, hmembers.2⟩

end

theorem resolveOptionalType_alike {s s' : Analyzer} (h : Alike s s') (default : Ty)
    (ty : Option TypeNode) :
    AlikeResult (resolveOptionalType default ty s) (resolveOptionalType default ty s') := by
  cases ty with
  | none => exact ⟨rfl, h⟩
  | some ty => exact resolveTypeNode_alike h ty

section Orders

variable (order order' : IterationOrder)

/-- What a field reports under the two orders. -/
def SameErrors (e e' : String × List SemanticDiagnostic) : Prop := e.1 = e'.1 ∧ e.2.Perm e'.2

theorem lookup_perm {errors errors' : List (String × List SemanticDiagnostic)}
    (h : List.Forall₂ SameErrors errors errors') (name : String) :
    ((errors.lookup name).getD []).Perm ((errors'.lookup name).getD []) := by
  induction h with
  | nil => exact .refl _
  | @cons e e' errors errors' hsame _ ih =>
    obtain ⟨key, reported⟩ := e
    obtain ⟨key', reported'⟩ := e'
    obtain ⟨rfl, hperm⟩ := hsame
    rw [List.lookup_cons, List.lookup_cons]
    cases name == key with
    | true => exact hperm
    | false => exact ih

mutual

theorem assignableErrors_perm (span : Span) (code : DiagnosticCode) (expected actual : Ty) (n : ℕ) :
    (assignableErrors order span code expected actual n).1.Perm
        (assignableErrors order' span code expected actual n).1 ∧
      (assignableErrors order span code expected actual n).2 =
        (assignableErrors order' span code expected actual n).2 := by
  cases expected with
  | array expected =>
    cases actual with
    | array actual =>
      have helement := assignableErrors_perm span code expected actual n
      rw [assignableErrors, assignableErrors]
      exact helement
    | _ => exact ⟨.refl _, rfl⟩
  | object expected =>
    cases actual with
    | object actual =>
      have hfields := fieldErrors_perm span code expected actual (n + 1)
      rw [assignableErrors, assignableErrors]
      refine ⟨?_, hfields.2⟩
      have hnames := (order.perm n (expected.map Prod.fst)).trans
        (order'.perm n (expected.map Prod.fst)).symm
      exact hnames.flatMap fun name _ => lookup_perm hfields.1 name
    | _ => exact ⟨.refl _, rfl⟩
  | _ =>
    cases actual <;> exact ⟨.refl _, rfl⟩

theorem fieldErrors_perm (span : Span) (code : DiagnosticCode) (fields actuals : List (String × Ty))
    (n : ℕ) :
    List.Forall₂ SameErrors (fieldErrors order span code fields actuals n).1
        (fieldErrors order' span code fields actuals n).1 ∧
      (fieldErrors order span code fields actuals n).2 =
        (fieldErrors order' span code fields actuals n).2 := by
  match fields with
  | [] => exact ⟨.nil, rfl⟩
  | (name, expected) :: fields =>
    rw [fieldErrors, fieldErrors]
    cases hactual : actuals.lookup name with
    | none =>
      have hrest := fieldErrors_perm span code fields actuals n
      exact ⟨.cons ⟨rfl, .refl _⟩ hrest.1, hrest.2⟩
    | some actual =>
      have hfield := assignableErrors_perm span code expected actual n
      have hrest := fieldErrors_perm span code fields actuals
        (assignableErrors order span code expected actual n).2
      simp only [← hfield.2]
      exact ⟨.cons ⟨rfl, hfield.1⟩ hrest.1, hrest.2⟩

end

theorem requireAssignable_alike {s s' : Analyzer} (h : Alike s s') (expected actual : Ty)
    (span : Span) (code : DiagnosticCode) :
    Alike (requireAssignable order expected actual span code s)
      (requireAssignable order' expected actual span code s') := by
  have herrors := assignableErrors_perm order order' span code expected actual s.iterations
  unfold requireAssignable
  simp only
  rw [← h.iterations, ← herrors.2]
  exact h.append herrors.1 _

theorem requireNumbers_alike {s s' : Analyzer} (h : Alike s s') (leftType rightType : Ty)
    (leftSpan rightSpan : Span) :
    Alike (requireNumbers order leftType rightType leftSpan rightSpan s)
      (requireNumbers order' leftType rightType leftSpan rightSpan s') :=
  requireAssignable_alike order order' (requireAssignable_alike order order' h _ _ _ _) _ _ _ _

theorem memberType_alike {s s' : Analyzer} (h : Alike s s') (objectType : Ty) (property : String)
    (span : Span) :
    AlikeResult (memberType objectType property span s) (memberType objectType property span s') := by
  unfold memberType
  cases objectType with
  | object fields =>
    cases hfield : fields.lookup property with
    | none =>
      simp only [hfield]
      exact ⟨rfl, h.diagnostic _ _ _⟩
    | some ty =>
      simp only [hfield]
      exact ⟨rfl, h⟩
  | unknown => exact ⟨rfl, h⟩
  | _ => exact ⟨rfl, h.diagnostic _ _ _⟩

theorem binaryResult_alike {s s' : Analyzer} (h : Alike s s') (operator : BinaryOperator)
    (leftType rightType : Ty) (leftSpan rightSpan : Span) :
    AlikeResult (binaryResult order operator leftType rightType leftSpan rightSpan s)
      (binaryResult order' operator leftType rightType leftSpan rightSpan s') := by
  have hnumbers := requireNumbers_alike order order' h leftType rightType leftSpan rightSpan
  cases operator with
  | add =>
    unfold binaryResult
    by_cases hstring : (leftType.isString || rightType.isString) = true
    · simp only [hstring, if_true]
      exact ⟨rfl, h⟩
    · simp only [hstring]
      exact ⟨rfl, hnumbers⟩
  | subtract => exact ⟨rfl, hnumbers⟩
  | multiply => exact ⟨rfl, hnumbers⟩
  | divide => exact ⟨rfl, hnumbers⟩
  | remainder => exact ⟨rfl, hnumbers⟩
  | logicalAnd =>
    exact ⟨rfl, requireAssignable_alike order order' (requireAssignable_alike order order' h _ _ _ _)
      _ _ _ _⟩
  | logicalOr =>
    exact ⟨rfl, requireAssignable_alike order order' (requireAssignable_alike order order' h _ _ _ _)
      _ _ _ _⟩
  | _ => exact ⟨rfl, h⟩

theorem assignmentResult_alike {s s' : Analyzer} (h : Alike s s') (operator : AssignmentOperator)
    (leftType rightType : Ty) (leftSpan rightSpan span : Span) :
    AlikeResult (assignmentResult order operator leftType rightType leftSpan rightSpan span s)
      (assignmentResult order' operator leftType rightType leftSpan rightSpan span s') := by
  cases operator with
  | assign => exact ⟨rfl, requireAssignable_alike order order' h _ _ _ _⟩
  | _ => exact ⟨rfl, requireNumbers_alike order order' h _ _ _ _⟩

mutual

theorem inferExpression_alike {s s' : Analyzer} (h : Alike s s') (expression : Expression) :
    AlikeResult (inferExpression order expression s) (inferExpression order' expression s') := by
  cases expression with
  | identifier name span =>
    rw [inferExpression, inferExpression, ← h.lookupValue]
    cases s.lookupValue name with
    | none => exact ⟨rfl, h.diagnostic _ _ _⟩
    | some ty => exact ⟨rfl, h⟩
  | object properties span =>
    have hproperties := inferProperties_alike h properties
    rw [inferExpression, inferExpression]
    exact ⟨congrArg (fun fields => Ty.object (collectFields fields)) hproperties.1, hproperties.2⟩
  | array elements span =>
    have helements := inferElements_alike h elements .unknown
    rw [inferExpression, inferExpression]
    exact ⟨congrArg Ty.array helements.1, helements.2⟩
  | member object property span =>
    have hobject := inferExpression_alike h object
    rw [inferExpression, inferExpression]
    simp only [← hobject.1]
    exact memberType_alike hobject.2 _ property span
  | call callee arguments span =>
    have hcallee := inferExpression_alike h callee
    rw [inferExpression, inferExpression]
    simp only [← hcallee.1]
    cases (inferExpression order callee s).1 with
    | function params returnType variadic =>
      simp only
      refine ⟨rfl, inferArguments_alike ?_ params arguments⟩
      split
      · exact hcallee.2.diagnostic _ _ _
      · exact hcallee.2
    | unknown => exact ⟨rfl, hcallee.2⟩
    | _ => exact ⟨rfl, hcallee.2.diagnostic _ _ _⟩
  | unary operator argument span =>
    have hargument := inferExpression_alike h argument
    rw [inferExpression, inferExpression]
    simp only [← hargument.1]
    cases operator with
    | negate => exact ⟨rfl, requireAssignable_alike order order' hargument.2 _ _ _ _⟩
    | not => exact ⟨rfl, hargument.2⟩
  | binary left operator right span =>
    have hleft := inferExpression_alike h left
    have hright := inferExpression_alike hleft.2 right
    rw [inferExpression, inferExpression]
    simp only [← hleft.1, ← hright.1]
    exact binaryResult_alike order order' hright.2 _ _ _ _ _
  | assignment left operator right span =>
    have hleft := inferExpression_alike h left
    have hright := inferExpression_alike hleft.2 right
    rw [inferExpression, inferExpression]
    simp only [← hleft.1, ← hright.1]
    exact assignmentResult_alike order order' hright.2 _ _ _ _ _ _
  | _ => exact ⟨rfl, h⟩

theorem inferProperties_alike {s s' : Analyzer} (h : Alike s s') (properties : List ObjectProperty) :
    AlikeResult (inferProperties order properties s) (inferProperties order' properties s') := by
  match properties with
  | [] => exact ⟨rfl, h⟩
  | .mk name value span :: properties =>
    have hvalue := inferExpression_alike h value
    have hrest := inferProperties_alike hvalue.2 properties
    rw [inferProperties, inferProperties]
    exact ⟨congrArg₂ (fun ty fields => (name, ty) :: fields) hvalue.1 hrest.1, hrest.2⟩

theorem inferElements_alike {s s' : Analyzer} (h : Alike s s') (elements : List Expression)
    (elementType : Ty) :
    AlikeResult (inferElements order elements elementType s)
      (inferElements order' elements elementType s') := by
  match elements with
  | [] => exact ⟨rfl, h⟩
  | element :: elements =>
    have helement := inferExpression_alike h element
    rw [inferElements, inferElements]
    simp only [← helement.1]
    split
    · exact inferElements_alike helement.2 elements _
    · exact inferElements_alike (requireAssignable_alike order order' helement.2 _ _ _ _) elements _

theorem inferArguments_alike {s s' : Analyzer} (h : Alike s s') (params : List Ty)
    (arguments : List Expression) :
    Alike (inferArguments order params arguments s) (inferArguments order' params arguments s') := by
  match params, arguments with
  | expected :: params, argument :: arguments =>
    have hargument := inferExpression_alike h argument
    rw [inferArguments, inferArguments]
    simp only [← hargument.1]
    exact inferArguments_alike (requireAssignable_alike order order' hargument.2 _ _ _ _) params
      arguments
  | [], [] => exact h
  | [], _ :: _ => exact h
  | _ :: _, [] => exact h

end

theorem inferOptional_alike {s s' : Analyzer} (h : Alike s s') (expression : Option Expression) :
    AlikeResult (inferOptional order expression s) (inferOptional order' expression s') := by
  cases expression with
  | none => exact ⟨rfl, h⟩
  | some expression =>
    have hexpression := inferExpression_alike order order' h expression
    exact ⟨congrArg some hexpression.1, hexpression.2⟩

theorem analyzeVariable_alike {s s' : Analyzer} (h : Alike s s')
    (declaration : VariableDeclaration) (span : Span) :
    Alike (analyzeVariable order declaration span s) (analyzeVariable order' declaration span s') := by
  unfold analyzeVariable
  cases declaration.ty with
  | none =>
    have hinitializer := inferOptional_alike order order' h declaration.initializer
    simp only [← hinitializer.1]
    exact hinitializer.2.defineValue _ _ _ _
  | some ty =>
    have hty := resolveTypeNode_alike h ty
    have hinitializer := inferOptional_alike order order' hty.2 declaration.initializer
    simp only [← hinitializer.1, ← hty.1]
    refine Alike.defineValue ?_ _ _ _ _
    cases (inferOptional order declaration.initializer (resolveTypeNode ty s).2).1 with
    | none => exact hinitializer.2
    | some actual => exact requireAssignable_alike order order' hinitializer.2 _ _ _ _

theorem analyzeReturn_alike {s s' : Analyzer} (h : Alike s s') (value : Option Expression)
    (span : Span) :
    Alike (analyzeReturn order value span s) (analyzeReturn order' value span s') := by
  have hvalue := inferOptional_alike order order' h value
  unfold analyzeReturn
  simp only [← hvalue.1, ← hvalue.2.currentReturnType]
  cases (inferOptional order value s).2.currentReturnType with
  | none => exact hvalue.2
  | some expected => exact requireAssignable_alike order order' hvalue.2 _ _ _ _

mutual

theorem analyzeStatement_alike {s s' : Analyzer} (h : Alike s s') (statement : Statement) :
    Alike (analyzeStatement order statement s) (analyzeStatement order' statement s') := by
  cases statement with
  | «variable» declaration span => exact analyzeVariable_alike order order' h declaration span
  | «return» value span => exact analyzeReturn_alike order order' h value span
  | throw value span => exact (inferExpression_alike order order' h value).2
  | expression value span => exact (inferExpression_alike order order' h value).2
  | «if» test consequent alternate span =>
    exact analyzeOptional_alike (analyzeStatement_alike
      (inferExpression_alike order order' h test).2 consequent) alternate
  | «while» test body span =>
    exact analyzeStatement_alike (inferExpression_alike order order' h test).2 body
  | «for» initializer test update body span =>
    have hinitializer := analyzeOptional_alike h.pushScope initializer
    have htest := (inferOptional_alike order order' hinitializer test).2
    have hupdate := (inferOptional_alike order order' htest update).2
    exact (analyzeStatement_alike hupdate body).popScope
  | block body span => exact (analyzeStatements_alike h.pushScope body).popScope
  | «export» inner span => exact analyzeStatement_alike h inner
  | _ => exact h

theorem analyzeOptional_alike {s s' : Analyzer} (h : Alike s s') (statement : Option Statement) :
    Alike (analyzeOptional order statement s) (analyzeOptional order' statement s') := by
  match statement with
  | none => exact h
  | some statement => exact analyzeStatement_alike h statement

theorem analyzeStatements_alike {s s' : Analyzer} (h : Alike s s') (statements : List Statement) :
    Alike (analyzeStatements order statements s) (analyzeStatements order' statements s') := by
  match statements with
  | [] => exact h
  | statement :: statements =>
    exact analyzeStatements_alike (analyzeStatement_alike h statement) statements

end

end Orders

theorem resolveParams_alike {s s' : Analyzer} (h : Alike s s') (params : List Parameter) :
    AlikeResult (resolveParams params s) (resolveParams params s') := by
  induction params generalizing s s' with
  | nil => exact ⟨rfl, h⟩
  | cons param params ih =>
    have hparam := resolveOptionalType_alike h .unknown param.ty
    have hparams := ih hparam.2
    exact ⟨congrArg₂ List.cons hparam.1 hparams.1, hparams.2⟩

theorem resolveClassMembers_alike {s s' : Analyzer} (h : Alike s s') (members : List ClassMember) :
    AlikeResult (resolveClassMembers members s) (resolveClassMembers members s') := by
  induction members generalizing s s' with
  | nil => exact ⟨rfl, h⟩
  | cons member members ih =>
    have hmember := resolveOptionalType_alike h .unknown member.ty
    have hmembers := ih hmember.2
    exact ⟨congrArg₂ (fun ty fields => (member.name, ty) :: fields) hmember.1 hmembers.1,
      hmembers.2⟩

theorem collectStatementSymbol_alike {s s' : Analyzer} (h : Alike s s') (statement : Statement) :
    Alike (collectStatementSymbol statement s) (collectStatementSymbol statement s') := by
  cases statement with
  | interface declaration span =>
    have hmembers := resolveTypeMembers_alike h declaration.members
    rw [collectStatementSymbol, collectStatementSymbol]
    simp only [← hmembers.1]
    exact hmembers.2.defineType _ _ _ _
  | typeAlias declaration span =>
    have hty := resolveTypeNode_alike h declaration.ty
    rw [collectStatementSymbol, collectStatementSymbol]
    simp only [← hty.1]
    exact hty.2.defineType _ _ _ _
  | «class» declaration span =>
    have hmembers := resolveClassMembers_alike h declaration.members
    rw [collectStatementSymbol, collectStatementSymbol]
    simp only [← hmembers.1]
    exact hmembers.2.defineType _ _ _ _
  | function declaration span =>
    have hparams := resolveParams_alike h declaration.params
    have hreturn := resolveOptionalType_alike hparams.2 .undefined declaration.returnType
    have hdefined := hreturn.2.defineValue declaration.name
      (.function (resolveParams declaration.params s).1
        (resolveOptionalType .undefined declaration.returnType
          (resolveParams declaration.params s).2).1 false) .function (some span)
    rw [collectStatementSymbol, collectStatementSymbol]
    simp only [← hparams.1, ← hreturn.1]
    exact hdefined.register _
  | «export» inner span => exact collectStatementSymbol_alike h inner
  | _ => exact h

theorem defineParams_alike {s s' : Analyzer} (h : Alike s s') (params : List Parameter) :
    Alike (defineParams params s) (defineParams params s') := by
  induction params generalizing s s' with
  | nil => exact h
  | cons param params ih =>
    have hparam := resolveOptionalType_alike h .unknown param.ty
    rw [defineParams, defineParams]
    simp only [← hparam.1]
    exact ih (hparam.2.defineValue _ _ _ _)

section Orders

variable (order order' : IterationOrder)

theorem analyzeFunctionBody_alike {s s' : Analyzer} (h : Alike s s') (binding : FunctionBinding) :
    Alike (analyzeFunctionBody order binding s) (analyzeFunctionBody order' binding s') := by
  have hreturn := resolveOptionalType_alike h .undefined binding.declaration.returnType
  have hprevious := hreturn.2.currentReturnType
  have hparams := defineParams_alike ((hreturn.2.returning
    (some (resolveOptionalType .undefined binding.declaration.returnType s).1)).pushScope)
    binding.declaration.params
  have hbody := (analyzeStatements_alike order order' hparams binding.declaration.body).popScope
  unfold analyzeFunctionBody
  simp only [← hreturn.1, ← hprevious]
  split
  · exact (hbody.returning _).diagnostic _ _ _
  · exact hbody.returning _

theorem foldl_alike {α : Type} {f f' : Analyzer → α → Analyzer}
    (hf : ∀ s s' a, Alike s s' → Alike (f s a) (f' s' a)) (as : List α) {s s' : Analyzer}
    (h : Alike s s') : Alike (as.foldl f s) (as.foldl f' s') := by
  induction as generalizing s s' with
  | nil => exact h
  | cons a as ih => exact ih (hf s s' a h)

/-- The diagnostics of a source under two orders are the same up to their order. -/
theorem analyzeSource_perm (source : String) :
    (analyzeSource order source).diagnostics.Perm (analyzeSource order' source).diagnostics := by
  unfold analyzeSource
  simp only
  unfold analyzeProgram
  have hfunctions (s : Analyzer) := foldl_alike
    (fun _ _ binding h => analyzeFunctionBody_alike order order' h binding) s.functions (.refl s)
  exact (analyzeStatements_alike order order' (hfunctions _) _).diagnostics_perm

end Orders

end Tsvm.SemanticOrders
