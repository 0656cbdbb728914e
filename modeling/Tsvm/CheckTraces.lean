import Tsvm.FieldOrders

set_option autoImplicit false

/-!
# The checks of an analysis

An analysis makes the same checks under every order of the fields, so what it
reports is put together from reports that no order changes and from the checks.
The `...Checks` functions list the checks in the order they are made.
-/
namespace Tsvm.CheckTraces
open Ast Parsing Semantic SemanticOrders AnalyzerSteps TopLevelFunctions FieldOrders

/-- A call of `require_assignable`. -/
structure Check where
  span : Span
  code : DiagnosticCode
  expected : Ty
  actual : Ty

def Check.Steady (check : Check) : Prop :=
  FieldOrders.Steady check.span check.code check.expected check.actual

def numberChecks (leftType rightType : Ty) (leftSpan rightSpan : Span) : List Check :=
  [⟨leftSpan, .typeMismatch, .number, leftType⟩, ⟨rightSpan, .typeMismatch, .number, rightType⟩]

def binaryChecks (operator : BinaryOperator) (leftType rightType : Ty) (leftSpan rightSpan : Span) :
    List Check :=
  match operator with
  | .add =>
    if leftType.isString || rightType.isString then []
    else numberChecks leftType rightType leftSpan rightSpan
  | .subtract | .multiply | .divide | .remainder =>
    numberChecks leftType rightType leftSpan rightSpan
  | .logicalAnd | .logicalOr =>
    [⟨leftSpan, .typeMismatch, .boolean, leftType⟩, ⟨rightSpan, .typeMismatch, .boolean, rightType⟩]
  | _ => []

def assignmentChecks (operator : AssignmentOperator) (leftType rightType : Ty)
    (leftSpan rightSpan span : Span) : List Check :=
  match operator with
  | .assign => [⟨span, .typeMismatch, leftType, rightType⟩]
  | _ => numberChecks leftType rightType leftSpan rightSpan

mutual

def expressionChecks : Expression → Analyzer → List Check
  | .identifier _ _, _ | .number _ _, _ | .string _ _, _ | .boolean _ _, _ | .null _, _
  | .undefined _, _ | .error _, _ => []
  | .object properties _, s => propertiesChecks properties s
  | .array elements _, s => elementsChecks elements .unknown s
  | .member object _ _, s => expressionChecks object s
  | .call callee arguments span, s =>
    let (calleeType, t) := inferExpression .listed callee s
    expressionChecks callee s ++
      match calleeType with
      | .function params _ variadic =>
        argumentsChecks params arguments
          (if !variadic && params.length != arguments.length then
            t.diagnostic .wrongArgumentCount
              s!"expected {params.length} arguments, found {arguments.length}" span
          else t)
      | _ => []
  | .unary operator argument _, s =>
    expressionChecks argument s ++
      match operator with
      | .negate => [⟨argument.span, .typeMismatch, .number, (inferExpression .listed argument s).1⟩]
      | .not => []
  | .binary left operator right _, s =>
    let (leftType, t) := inferExpression .listed left s
    expressionChecks left s ++ expressionChecks right t ++
      binaryChecks operator leftType (inferExpression .listed right t).1 left.span right.span
  | .assignment left operator right span, s =>
    let (leftType, t) := inferExpression .listed left s
    expressionChecks left s ++ expressionChecks right t ++
      assignmentChecks operator leftType (inferExpression .listed right t).1 left.span right.span span

def propertiesChecks : List ObjectProperty → Analyzer → List Check
  | [], _ => []
  | .mk _ value _ :: properties, s =>
    expressionChecks value s ++ propertiesChecks properties (inferExpression .listed value s).2

def elementsChecks : List Expression → Ty → Analyzer → List Check
  | [], _, _ => []
  | element :: elements, elementType, s =>
    let (actual, t) := inferExpression .listed element s
    expressionChecks element s ++
      if elementType.isUnknown then elementsChecks elements actual t
      else ⟨element.span, .typeMismatch, elementType, actual⟩ :: elementsChecks elements elementType
        (requireAssignable .listed elementType actual element.span .typeMismatch t)

def argumentsChecks : List Ty → List Expression → Analyzer → List Check
  | expected :: params, argument :: arguments, s =>
    let (actual, t) := inferExpression .listed argument s
    expressionChecks argument s ++
      ⟨argument.span, .typeMismatch, expected, actual⟩ :: argumentsChecks params arguments
        (requireAssignable .listed expected actual argument.span .typeMismatch t)
  | _, _, _ => []

end

def optionalChecks (expression : Option Expression) (s : Analyzer) : List Check :=
  match expression with
  | some expression => expressionChecks expression s
  | none => []

def variableChecks (declaration : VariableDeclaration) (span : Span) (s : Analyzer) : List Check :=
  match declaration.ty with
  | some ty =>
    let (expected, s) := resolveTypeNode ty s
    optionalChecks declaration.initializer s ++
      match (inferOptional .listed declaration.initializer s).1 with
      | some actual => [⟨span, .typeMismatch, expected, actual⟩]
      | none => []
  | none => optionalChecks declaration.initializer s

def returnChecks (value : Option Expression) (span : Span) (s : Analyzer) : List Check :=
  let (actual, t) := inferOptional .listed value s
  optionalChecks value s ++
    match t.currentReturnType with
    | some expected => [⟨span, .returnTypeMismatch, expected, actual.getD .undefined⟩]
    | none => []

mutual

def statementChecks : Statement → Analyzer → List Check
  | .variable declaration span, s => variableChecks declaration span s
  | .return value span, s => returnChecks value span s
  | .throw value _, s | .expression value _, s => expressionChecks value s
  | .if test consequent alternate _, s =>
    let t := (inferExpression .listed test s).2
    expressionChecks test s ++ statementChecks consequent t ++
      alternateChecks alternate (analyzeStatement .listed consequent t)
  | .while test body _, s =>
    expressionChecks test s ++ statementChecks body (inferExpression .listed test s).2
  | .for initializer test update body _, s =>
    let started := analyzeOptional .listed initializer s.pushScope
    let tested := (inferOptional .listed test started).2
    alternateChecks initializer s.pushScope ++ optionalChecks test started ++
      optionalChecks update tested ++
      statementChecks body (inferOptional .listed update tested).2
  | .block body _, s => statementsChecks body s.pushScope
  | .export inner _, s => statementChecks inner s
  | .interface _ _, _ | .typeAlias _ _, _ | .class _ _, _ | .function _ _, _ | .import _ _, _
  | .empty _, _ | .error _, _ => []

def alternateChecks : Option Statement → Analyzer → List Check
  | some statement, s => statementChecks statement s
  | none, _ => []

def statementsChecks : List Statement → Analyzer → List Check
  | [], _ => []
  | statement :: statements, s =>
    statementChecks statement s ++ statementsChecks statements (analyzeStatement .listed statement s)

end

def functionsChecks : List FunctionBinding → Analyzer → List Check
  | [], _ => []
  | binding :: bindings, s =>
    statementsChecks binding.declaration.body (bodyAnalyzer binding s) ++
      functionsChecks bindings (analyzeFunctionBody .listed binding s)

def sourceChecks (source : String) : List Check :=
  let body := (parseSource source).program.body
  let s := collectTopLevelSymbols body (initialAnalyzer source)
  functionsChecks s.functions s ++
    statementsChecks (body.filter fun statement => !isFunctionStatement statement)
      (s.functions.foldl (fun s binding => analyzeFunctionBody .listed binding s) s)

/-- A part of what an analysis reports: diagnostics that no order changes, or a check. -/
inductive Event where
  | report (diagnostics : List SemanticDiagnostic)
  | check (made : Check)

def Event.check? : Event → Option Check
  | .report _ => none
  | .check made => some made

def Event.errors (order : IterationOrder) : Event → ℕ → List SemanticDiagnostic × ℕ
  | .report diagnostics, n => (diagnostics, n)
  | .check made, n => assignableErrors order made.span made.code made.expected made.actual n

/-- What the events report under an order, when `n` loops were made before. -/
def render (order : IterationOrder) : List Event → ℕ → List SemanticDiagnostic × ℕ
  | [], n => ([], n)
  | event :: events, n =>
    ((event.errors order n).1 ++ (render order events (event.errors order n).2).1,
      (render order events (event.errors order n).2).2)

theorem render_append (order : IterationOrder) (first second : List Event) (n : ℕ) :
    render order (first ++ second) n =
      ((render order first n).1 ++ (render order second (render order first n).2).1,
        (render order second (render order first n).2).2) := by
  induction first generalizing n with
  | nil => rfl
  | cons event first ih => simp only [List.cons_append, render, ih, List.append_assoc]

theorem errors_perm (order order' : IterationOrder) (event : Event) (n : ℕ) :
    (event.errors order n).1.Perm (event.errors order' n).1 ∧
      (event.errors order n).2 = (event.errors order' n).2 := by
  cases event with
  | report diagnostics => exact ⟨.refl _, rfl⟩
  | check made => exact assignableErrors_perm order order' made.span made.code _ _ n

/-- Events report the same under all orders exactly when their checks are steady. -/
theorem render_equal_iff (events : List Event) (n : ℕ) :
    (∀ order order' : IterationOrder, (render order events n).1 = (render order' events n).1) ↔
      ∀ check ∈ events.filterMap Event.check?, check.Steady := by
  induction events generalizing n with
  | nil => exact ⟨fun _ => nofun, fun _ _ _ => rfl⟩
  | cons event events ih =>
    have hnext (order : IterationOrder) :
        (event.errors order n).2 = (event.errors .listed n).2 :=
      (errors_perm order .listed event n).2
    have hsplit : (∀ order order' : IterationOrder,
        (render order (event :: events) n).1 = (render order' (event :: events) n).1) ↔
        (∀ order order' : IterationOrder,
          (event.errors order n).1 = (event.errors order' n).1) ∧
        ∀ order order' : IterationOrder,
          (render order events (event.errors .listed n).2).1 =
            (render order' events (event.errors .listed n).2).1 := by
      simp only [render, hnext]
      constructor
      · intro h
        have hparts (order order' : IterationOrder) := List.append_inj (h order order')
          (errors_perm order order' event n).1.length_eq
        exact ⟨fun order order' => (hparts order order').1, fun order order' => (hparts order order').2⟩
      · intro h order order'
        rw [h.1 order order', h.2 order order']
    rw [hsplit, ih]
    cases event with
    | report diagnostics =>
      rw [List.filterMap_cons_none rfl]
      exact and_iff_right fun _ _ => rfl
    | check made =>
      have hmade : (Event.check made :: events).filterMap Event.check? =
        made :: events.filterMap Event.check? := rfl
      rw [hmade, List.forall_mem_cons]
      refine and_congr_left fun _ => ⟨fun h => steady_of_equal made.expected made.actual h,
        fun h order order' => ?_⟩
      exact (h.reports order n).trans (h.reports order' n).symm

/-- One analysis for every order. -/
abbrev Analyses := IterationOrder → Analyzer

/-- The analyses differ in the order of their diagnostics only. -/
def Coherent (s : Analyses) : Prop := ∀ order, Alike (s .listed) (s order)

/-- From `s` to `s'` the analyses make these checks, and report the same besides. -/
def Traced (s s' : Analyses) (checks : List Check) : Prop :=
  ∃ events : List Event, events.filterMap Event.check? = checks ∧ ∀ order,
    (s' order).diagnostics = (s order).diagnostics ++ (render order events (s order).iterations).1 ∧
      (s' order).iterations = (render order events (s order).iterations).2

namespace Traced

variable {s s' s'' : Analyses} {checks checks' : List Check}

theorem refl (s : Analyses) : Traced s s [] :=
  ⟨[], rfl, fun _ => ⟨(List.append_nil _).symm, rfl⟩⟩

theorem trans (h : Traced s s' checks) (h' : Traced s' s'' checks') :
    Traced s s'' (checks ++ checks') := by
  obtain ⟨events, rfl, hevents⟩ := h
  obtain ⟨events', rfl, hevents'⟩ := h'
  refine ⟨events ++ events', List.filterMap_append, fun order => ?_⟩
  obtain ⟨hdiagnostics, hiterations⟩ := hevents order
  obtain ⟨hdiagnostics', hiterations'⟩ := hevents' order
  rw [render_append, hdiagnostics', hiterations', hdiagnostics, hiterations, List.append_assoc]
  exact ⟨rfl, rfl⟩

theorem check (s : Analyses) (expected actual : Ty) (span : Span) (code : DiagnosticCode) :
    Traced s (fun order => requireAssignable order expected actual span code (s order))
      [⟨span, code, expected, actual⟩] := by
  refine ⟨[.check ⟨span, code, expected, actual⟩], rfl, fun order => ⟨?_, rfl⟩⟩
  exact congrArg (fun errors => (s order).diagnostics ++ errors) (List.append_nil _).symm

end Traced

/-- A step that appends the same diagnostics whatever was reported before. -/
def Appends {α : Type} (step : Analyzer → α × Analyzer) : Prop :=
  ∀ s : Analyzer, ∃ (a : α) (t : Analyzer) (errors : List SemanticDiagnostic),
    t.iterations = s.iterations ∧ ∀ diagnostics,
      step { s with diagnostics } = (a, { t with diagnostics := diagnostics ++ errors })

namespace Appends

variable {α β : Type} {step : Analyzer → α × Analyzer}

theorem pure (a : α) : Appends fun s => (a, s) :=
  fun s => ⟨a, s, [], rfl, fun diagnostics => by rw [List.append_nil]⟩

theorem bind (h : Appends step) {next : α → Analyzer → β × Analyzer} (hnext : ∀ a, Appends (next a)) :
    Appends fun s => next (step s).1 (step s).2 := by
  intro s
  obtain ⟨a, t, errors, ht, hstep⟩ := h s
  obtain ⟨b, u, errors', hu, hnext⟩ := hnext a t
  refine ⟨b, u, errors ++ errors', hu.trans ht, fun diagnostics => ?_⟩
  dsimp only
  rw [hstep diagnostics]
  exact (hnext (diagnostics ++ errors)).trans (by rw [List.append_assoc])

theorem map (h : Appends step) (f : α → β) : Appends fun s => (f (step s).1, (step s).2) :=
  h.bind fun a => pure (f a)

theorem diagnostic (a : α) (code : DiagnosticCode) (message : String) (span : Span) :
    Appends fun s => (a, s.diagnostic code message span) :=
  fun s => ⟨a, s, [⟨code, message, span⟩], rfl, fun _ => rfl⟩

/-- A step that depends on a part of the state the diagnostics are no part of. -/
theorem reading {γ : Type} (read : Analyzer → γ) (hread : ∀ s diagnostics,
    read { s with diagnostics } = read s) {step : γ → Analyzer → α × Analyzer}
    (h : ∀ c, Appends (step c)) : Appends fun s => step (read s) s := by
  intro s
  obtain ⟨a, t, errors, ht, hstep⟩ := h (read s) s
  refine ⟨a, t, errors, ht, fun diagnostics => ?_⟩
  exact (congrArg (fun c => step c { s with diagnostics }) (hread s diagnostics)).trans
    (hstep diagnostics)

theorem traced {s : Analyses} (h : Appends step) (hs : Coherent s) :
    Traced s (fun order => (step (s order)).2) [] := by
  obtain ⟨a, t, errors, ht, hstep⟩ := h (s .listed)
  refine ⟨[.report errors], rfl, fun order => ?_⟩
  obtain ⟨diagnostics, _, hsame⟩ := hs order
  have hresult : step (s order) = (a, { t with diagnostics := diagnostics ++ errors }) := by
    rw [hsame]
    exact hstep diagnostics
  dsimp only
  rw [hresult, hsame]
  exact ⟨by simp [render, Event.errors], ht⟩

/-- A step that reports nothing and makes no loop. -/
theorem silent (step : Analyzer → Analyzer)
    (hstep : ∀ s diagnostics, step { s with diagnostics } = { step s with diagnostics })
    (hiterations : ∀ s, (step s).iterations = s.iterations) : Appends fun s => ((), step s) :=
  fun s => ⟨(), step s, [], hiterations s, fun diagnostics => by
    rw [List.append_nil]
    exact congrArg (Prod.mk ()) (hstep s diagnostics)⟩

end Appends

theorem pushScope_appends : Appends fun s => ((), s.pushScope) :=
  .silent _ (fun _ _ => rfl) fun _ => rfl

theorem popScope_appends : Appends fun s => ((), s.popScope) :=
  .silent _ (fun _ _ => rfl) fun _ => rfl

theorem defineValue_appends (name : String) (ty : Ty) (kind : SymbolKind) (span : Option Span) :
    Appends fun s => ((), s.defineValue name ty kind span) := by
  intro s
  unfold Analyzer.defineValue
  cases hscopes : s.valueScopes with
  | nil => exact ⟨(), s, [], rfl, fun diagnostics => by simp [hscopes]⟩
  | cons scope scopes =>
    dsimp only
    by_cases hdefined : (scope.lookup name).isSome = true
    · simp only [if_pos hdefined]
      cases span with
      | none => exact ⟨(), s, [], rfl, fun diagnostics => by simp [hscopes]⟩
      | some span =>
        exact ⟨(), s, [⟨.duplicateSymbol, s!"duplicate value `{name}`", span⟩], rfl,
          fun diagnostics => by simp [hscopes, Analyzer.diagnostic]⟩
    · simp only [if_neg hdefined]
      cases scopes.isEmpty with
      | true =>
        exact ⟨(), { s with
          valueScopes := ((name, ty) :: scope) :: scopes
          symbols := { s.symbols with values := s.symbols.values ++ [⟨name, kind⟩] } }, [], rfl,
          fun diagnostics => by simp⟩
      | false =>
        exact ⟨(), { s with valueScopes := ((name, ty) :: scope) :: scopes }, [], rfl,
          fun diagnostics => by simp⟩

mutual

theorem resolveTypeNode_appends (ty : TypeNode) : Appends (resolveTypeNode ty) := by
  cases ty with
  | named name span =>
    have hfound (found : Option Ty) : Appends fun s => match found with
        | some ty => (ty, s)
        | none => (.unknown, s.diagnostic .unknownType s!"unknown type `{name}`" span) := by
      cases found with
      | some ty => exact .pure ty
      | none => exact .diagnostic Ty.unknown _ _ _
    exact Appends.reading (fun s => s.typeBindings.lookup name) (fun _ _ => rfl) hfound
  | array inner span => exact (resolveTypeNode_appends inner).map Ty.array
  | object members span =>
    exact (resolveTypeMembers_appends members).map fun fields => Ty.object (collectFields fields)
  | number span => exact .pure Ty.number
  | string span => exact .pure Ty.string
  | boolean span => exact .pure Ty.boolean
  | null span => exact .pure Ty.null
  | undefined span => exact .pure Ty.undefined

theorem resolveTypeMembers_appends (members : List TypeMember) :
    Appends (resolveTypeMembers members) := by
  match members with
  | [] => exact .pure []
  | .mk name ty span :: members =>
    exact (resolveTypeNode_appends ty).bind fun ty =>
      (resolveTypeMembers_appends members).map fun fields => (name, ty) :: fields

end

theorem resolveOptionalType_appends (default : Ty) (ty : Option TypeNode) :
    Appends (resolveOptionalType default ty) := by
  cases ty with
  | none => exact .pure default
  | some ty => exact resolveTypeNode_appends ty

theorem defineParams_appends (params : List Parameter) :
    Appends fun s => ((), defineParams params s) := by
  induction params with
  | nil => exact .pure ()
  | cons param params ih =>
    exact (resolveOptionalType_appends .unknown param.ty).bind fun ty =>
      (defineValue_appends param.name ty .variable (some param.span)).bind fun _ => ih

theorem bodyAnalyzer_appends (binding : FunctionBinding) :
    Appends fun s => ((), bodyAnalyzer binding s) := by
  have hparams (returnType : Ty) : Appends fun s => ((), defineParams binding.declaration.params
      { s with currentReturnType := some returnType }.pushScope) :=
    (Appends.silent (fun s => { s with currentReturnType := some returnType }.pushScope)
      (fun _ _ => rfl) fun _ => rfl).bind fun _ => defineParams_appends binding.declaration.params
  exact (resolveOptionalType_appends .undefined binding.declaration.returnType).bind hparams

theorem memberType_appends (objectType : Ty) (property : String) (span : Span) :
    Appends (memberType objectType property span) := by
  cases objectType with
  | object fields =>
    unfold memberType
    dsimp only
    cases fields.lookup property with
    | some ty => exact .pure ty
    | none => exact .diagnostic Ty.unknown _ _ _
  | unknown => exact .pure Ty.unknown
  | _ => exact .diagnostic Ty.unknown _ _ _

theorem Coherent.infer {s : Analyses} (hs : Coherent s) (expression : Expression) :
    Coherent fun order => (inferExpression order expression (s order)).2 :=
  fun order => (inferExpression_alike .listed order (hs order) expression).2

theorem Coherent.type {s : Analyses} (hs : Coherent s) (expression : Expression)
    (order : IterationOrder) : (inferExpression order expression (s order)).1 =
      (inferExpression .listed expression (s .listed)).1 :=
  (inferExpression_alike .listed order (hs order) expression).1.symm

theorem Coherent.require {s : Analyses} (hs : Coherent s) (expected actual : Ty) (span : Span)
    (code : DiagnosticCode) :
    Coherent fun order => requireAssignable order expected actual span code (s order) :=
  fun order => requireAssignable_alike .listed order (hs order) _ _ _ _

theorem requireNumbers_traced (s : Analyses) (leftType rightType : Ty) (leftSpan rightSpan : Span) :
    Traced s (fun order => requireNumbers order leftType rightType leftSpan rightSpan (s order))
      (numberChecks leftType rightType leftSpan rightSpan) :=
  (Traced.check s .number leftType leftSpan .typeMismatch).trans
    (Traced.check _ .number rightType rightSpan .typeMismatch)

theorem binaryResult_traced (s : Analyses) (operator : BinaryOperator) (leftType rightType : Ty)
    (leftSpan rightSpan : Span) :
    Traced s (fun order =>
        (binaryResult order operator leftType rightType leftSpan rightSpan (s order)).2)
      (binaryChecks operator leftType rightType leftSpan rightSpan) := by
  have hnumbers := requireNumbers_traced s leftType rightType leftSpan rightSpan
  have hbooleans := (Traced.check s .boolean leftType leftSpan .typeMismatch).trans
    (Traced.check _ .boolean rightType rightSpan .typeMismatch)
  cases operator with
  | add =>
    unfold binaryResult binaryChecks
    by_cases hstring : (leftType.isString || rightType.isString) = true
    · simp only [if_pos hstring]
      exact .refl s
    · simp only [if_neg hstring]
      exact hnumbers
  | subtract | multiply | divide | remainder => exact hnumbers
  | logicalAnd | logicalOr => exact hbooleans
  | _ => exact .refl s

theorem assignmentResult_traced (s : Analyses) (operator : AssignmentOperator)
    (leftType rightType : Ty) (leftSpan rightSpan span : Span) :
    Traced s (fun order =>
        (assignmentResult order operator leftType rightType leftSpan rightSpan span (s order)).2)
      (assignmentChecks operator leftType rightType leftSpan rightSpan span) := by
  cases operator with
  | assign => exact .check s leftType rightType span .typeMismatch
  | _ => exact requireNumbers_traced s leftType rightType leftSpan rightSpan

/-- The state in which the arguments of a call are inferred. -/
theorem callResult_traced {s : Analyses} (hs : Coherent s) (calleeType : Ty)
    (arguments : List Expression) (span : Span)
    (harguments : ∀ (params : List Ty) {s : Analyses}, Coherent s →
      Traced s (fun order => inferArguments order params arguments (s order))
        (argumentsChecks params arguments (s .listed))) :
    Traced s (fun order => (callResult order calleeType arguments span (s order)).2)
      (match calleeType with
      | .function params _ variadic =>
        argumentsChecks params arguments
          (if !variadic && params.length != arguments.length then
            (s .listed).diagnostic .wrongArgumentCount
              s!"expected {params.length} arguments, found {arguments.length}" span
          else s .listed)
      | _ => []) := by
  cases calleeType with
  | function params returnType variadic =>
    unfold callResult
    dsimp only
    cases !variadic && params.length != arguments.length with
    | true =>
      exact ((Appends.diagnostic () .wrongArgumentCount _ span).traced hs).trans
        (harguments params fun order => (hs order).diagnostic _ _ _)
    | false => exact harguments params hs
  | unknown => exact .refl s
  | _ => exact (Appends.diagnostic Ty.unknown .invalidCallTarget _ span).traced hs

mutual

theorem inferExpression_traced {s : Analyses} (hs : Coherent s) (expression : Expression) :
    Traced s (fun order => (inferExpression order expression (s order)).2)
      (expressionChecks expression (s .listed)) := by
  cases expression with
  | identifier name span =>
    have hfound (found : Option Ty) : Appends fun s => match found with
        | some ty => (ty, s)
        | none => (.unknown, s.diagnostic .unknownIdentifier s!"unknown identifier `{name}`" span) := by
      cases found with
      | some ty => exact .pure ty
      | none => exact .diagnostic Ty.unknown _ _ _
    simp only [inferExpression, expressionChecks]
    exact (Appends.reading (fun s => s.lookupValue name) (fun _ _ => rfl) hfound).traced hs
  | object properties span =>
    simp only [inferExpression, expressionChecks]
    exact inferProperties_traced hs properties
  | array elements span =>
    simp only [inferExpression, expressionChecks]
    exact inferElements_traced hs elements .unknown
  | member object property span =>
    have hmember := (memberType_appends (inferExpression .listed object (s .listed)).1 property
      span).traced (hs.infer object)
    have hall := (inferExpression_traced hs object).trans hmember
    rw [List.append_nil] at hall
    simp only [inferExpression, expressionChecks, hs.type object]
    exact hall
  | call callee arguments span =>
    have hcall := callResult_traced (hs.infer callee) (inferExpression .listed callee (s .listed)).1
      arguments span fun params _ h => inferArguments_traced h params arguments
    simp only [inferExpression_call, expressionChecks, hs.type callee]
    exact (inferExpression_traced hs callee).trans hcall
  | unary operator argument span =>
    have hargument := inferExpression_traced hs argument
    simp only [inferExpression, expressionChecks, hs.type argument]
    cases operator with
    | negate => exact hargument.trans (.check _ .number _ _ _)
    | not =>
      rw [List.append_nil]
      exact hargument
  | binary left operator right span =>
    have hright := hs.infer left
    simp only [inferExpression, expressionChecks, hs.type left, hright.type right]
    exact ((inferExpression_traced hs left).trans (inferExpression_traced hright right)).trans
      (binaryResult_traced _ operator _ _ _ _)
  | assignment left operator right span =>
    have hright := hs.infer left
    simp only [inferExpression, expressionChecks, hs.type left, hright.type right]
    exact ((inferExpression_traced hs left).trans (inferExpression_traced hright right)).trans
      (assignmentResult_traced _ operator _ _ _ _ _)
  | _ =>
    simp only [inferExpression, expressionChecks]
    exact .refl s

theorem inferProperties_traced {s : Analyses} (hs : Coherent s)
    (properties : List ObjectProperty) :
    Traced s (fun order => (inferProperties order properties (s order)).2)
      (propertiesChecks properties (s .listed)) := by
  match properties with
  | [] =>
    simp only [inferProperties, propertiesChecks]
    exact .refl s
  | .mk name value span :: properties =>
    simp only [inferProperties, propertiesChecks]
    exact (inferExpression_traced hs value).trans
      (inferProperties_traced (hs.infer value) properties)

theorem inferElements_traced {s : Analyses} (hs : Coherent s) (elements : List Expression)
    (elementType : Ty) :
    Traced s (fun order => (inferElements order elements elementType (s order)).2)
      (elementsChecks elements elementType (s .listed)) := by
  match elements with
  | [] =>
    simp only [inferElements, elementsChecks]
    exact .refl s
  | element :: elements =>
    have helement := inferExpression_traced hs element
    have hnext := hs.infer element
    simp only [inferElements, elementsChecks, hs.type element]
    cases elementType.isUnknown with
    | true => exact helement.trans (inferElements_traced hnext elements _)
    | false =>
      exact helement.trans ((Traced.check _ elementType _ element.span .typeMismatch).trans
        (inferElements_traced (hnext.require elementType _ element.span .typeMismatch) elements _))

theorem inferArguments_traced {s : Analyses} (hs : Coherent s) (params : List Ty)
    (arguments : List Expression) :
    Traced s (fun order => inferArguments order params arguments (s order))
      (argumentsChecks params arguments (s .listed)) := by
  match params, arguments with
  | expected :: params, argument :: arguments =>
    have hnext := hs.infer argument
    simp only [inferArguments, argumentsChecks, hs.type argument]
    exact (inferExpression_traced hs argument).trans
      ((Traced.check _ expected _ argument.span .typeMismatch).trans
        (inferArguments_traced (hnext.require expected _ argument.span .typeMismatch) params arguments))
  | [], _ =>
    simp only [inferArguments, argumentsChecks]
    exact .refl s
  | _ :: _, [] =>
    simp only [inferArguments, argumentsChecks]
    exact .refl s

end

theorem Coherent.inferOptional {s : Analyses} (hs : Coherent s) (expression : Option Expression) :
    Coherent fun order => (Semantic.inferOptional order expression (s order)).2 :=
  fun order => (inferOptional_alike .listed order (hs order) expression).2

theorem Coherent.optionalType {s : Analyses} (hs : Coherent s) (expression : Option Expression)
    (order : IterationOrder) : (Semantic.inferOptional order expression (s order)).1 =
      (Semantic.inferOptional .listed expression (s .listed)).1 :=
  (inferOptional_alike .listed order (hs order) expression).1.symm

theorem inferOptional_traced {s : Analyses} (hs : Coherent s) (expression : Option Expression) :
    Traced s (fun order => (inferOptional order expression (s order)).2)
      (optionalChecks expression (s .listed)) := by
  cases expression with
  | none => exact .refl s
  | some expression => exact inferExpression_traced hs expression

theorem Coherent.resolve {s : Analyses} (hs : Coherent s) (ty : TypeNode) :
    Coherent fun order => (resolveTypeNode ty (s order)).2 :=
  fun order => (resolveTypeNode_alike (hs order) ty).2

theorem Coherent.resolvedType {s : Analyses} (hs : Coherent s) (ty : TypeNode)
    (order : IterationOrder) :
    (resolveTypeNode ty (s order)).1 = (resolveTypeNode ty (s .listed)).1 :=
  (resolveTypeNode_alike (hs order) ty).1.symm

theorem Traced.define {s s' : Analyses} {checks : List Check} (h : Traced s s' checks)
    (hs' : Coherent s') (name : String) (ty : Ty) (span : Span) :
    Traced s (fun order => (s' order).defineValue name ty .variable (some span)) checks := by
  have hdefined := h.trans ((defineValue_appends name ty .variable (some span)).traced hs')
  rw [List.append_nil] at hdefined
  exact hdefined

theorem analyzeVariable_traced {s : Analyses} (hs : Coherent s)
    (declaration : VariableDeclaration) (span : Span) :
    Traced s (fun order => analyzeVariable order declaration span (s order))
      (variableChecks declaration span (s .listed)) := by
  unfold analyzeVariable variableChecks
  cases declaration.ty with
  | none =>
    simp only [hs.optionalType]
    exact (inferOptional_traced hs declaration.initializer).define
      (hs.inferOptional declaration.initializer) _ _ _
  | some ty =>
    have hty := hs.resolve ty
    have hresolved := (resolveTypeNode_appends ty).traced hs
    have hinitializer := hresolved.trans (inferOptional_traced hty declaration.initializer)
    simp only [hs.resolvedType, hty.optionalType]
    cases (inferOptional .listed declaration.initializer (resolveTypeNode ty (s .listed)).2).1 with
    | none =>
      rw [List.append_nil]
      exact hinitializer.define (hty.inferOptional declaration.initializer) _ _ _
    | some actual =>
      exact (hinitializer.trans (.check _ _ actual span .typeMismatch)).define
        ((hty.inferOptional declaration.initializer).require _ actual span .typeMismatch) _ _ _

theorem analyzeReturn_traced {s : Analyses} (hs : Coherent s) (value : Option Expression)
    (span : Span) :
    Traced s (fun order => analyzeReturn order value span (s order))
      (returnChecks value span (s .listed)) := by
  have hvalue := inferOptional_traced hs value
  have hreturn (order : IterationOrder) := (hs.inferOptional value order).currentReturnType
  unfold analyzeReturn returnChecks
  simp only [hs.optionalType, ← hreturn]
  cases (inferOptional .listed value (s .listed)).2.currentReturnType with
  | none =>
    rw [List.append_nil]
    exact hvalue
  | some expected => exact hvalue.trans (.check _ expected _ span .returnTypeMismatch)

theorem Coherent.statement {s : Analyses} (hs : Coherent s) (statement : Statement) :
    Coherent fun order => analyzeStatement order statement (s order) :=
  fun order => analyzeStatement_alike .listed order (hs order) statement

theorem Coherent.optional {s : Analyses} (hs : Coherent s) (statement : Option Statement) :
    Coherent fun order => analyzeOptional order statement (s order) :=
  fun order => analyzeOptional_alike .listed order (hs order) statement

theorem Coherent.statements {s : Analyses} (hs : Coherent s) (statements : List Statement) :
    Coherent fun order => analyzeStatements order statements (s order) :=
  fun order => analyzeStatements_alike .listed order (hs order) statements

theorem Coherent.push {s : Analyses} (hs : Coherent s) :
    Coherent fun order => (s order).pushScope := fun order => (hs order).pushScope

theorem Traced.push {s : Analyses} (hs : Coherent s) :
    Traced s (fun order => (s order).pushScope) [] := pushScope_appends.traced hs

theorem Traced.pop {s s' : Analyses} {checks : List Check} (h : Traced s s' checks)
    (hs' : Coherent s') : Traced s (fun order => (s' order).popScope) checks := by
  have hpopped := h.trans (popScope_appends.traced hs')
  rw [List.append_nil] at hpopped
  exact hpopped

mutual

theorem analyzeStatement_traced {s : Analyses} (hs : Coherent s) (statement : Statement) :
    Traced s (fun order => analyzeStatement order statement (s order))
      (statementChecks statement (s .listed)) := by
  cases statement with
  | «variable» declaration span =>
    simp only [analyzeStatement, statementChecks]
    exact analyzeVariable_traced hs declaration span
  | «return» value span =>
    simp only [analyzeStatement, statementChecks]
    exact analyzeReturn_traced hs value span
  | throw value span =>
    simp only [analyzeStatement, statementChecks]
    exact inferExpression_traced hs value
  | expression value span =>
    simp only [analyzeStatement, statementChecks]
    exact inferExpression_traced hs value
  | «if» test consequent alternate span =>
    have htest := hs.infer test
    simp only [analyzeStatement, statementChecks]
    exact ((inferExpression_traced hs test).trans (analyzeStatement_traced htest consequent)).trans
      (analyzeOptional_traced (htest.statement consequent) alternate)
  | «while» test body span =>
    simp only [analyzeStatement, statementChecks]
    exact (inferExpression_traced hs test).trans (analyzeStatement_traced (hs.infer test) body)
  | «for» initializer test update body span =>
    have hstarted := hs.push.optional initializer
    have htested := hstarted.inferOptional test
    have hupdated := htested.inferOptional update
    have hheader := (((Traced.push hs).trans (analyzeOptional_traced hs.push initializer)).trans
      (inferOptional_traced hstarted test)).trans (inferOptional_traced htested update)
    simp only [analyzeStatement, statementChecks]
    exact (hheader.trans (analyzeStatement_traced hupdated body)).pop (hupdated.statement body)
  | block body span =>
    simp only [analyzeStatement, statementChecks]
    exact ((Traced.push hs).trans (analyzeStatements_traced hs.push body)).pop
      (hs.push.statements body)
  | «export» inner span =>
    simp only [analyzeStatement, statementChecks]
    exact analyzeStatement_traced hs inner
  | _ =>
    simp only [analyzeStatement, statementChecks]
    exact .refl s

theorem analyzeOptional_traced {s : Analyses} (hs : Coherent s) (statement : Option Statement) :
    Traced s (fun order => analyzeOptional order statement (s order))
      (alternateChecks statement (s .listed)) := by
  match statement with
  | none =>
    simp only [analyzeOptional, alternateChecks]
    exact .refl s
  | some statement =>
    simp only [analyzeOptional, alternateChecks]
    exact analyzeStatement_traced hs statement

theorem analyzeStatements_traced {s : Analyses} (hs : Coherent s) (statements : List Statement) :
    Traced s (fun order => analyzeStatements order statements (s order))
      (statementsChecks statements (s .listed)) := by
  match statements with
  | [] =>
    simp only [analyzeStatements, statementsChecks]
    exact .refl s
  | statement :: statements =>
    simp only [analyzeStatements, statementsChecks]
    exact (analyzeStatement_traced hs statement).trans
      (analyzeStatements_traced (hs.statement statement) statements)

end

/-- What is done behind the body of a function. -/
def closeBody (binding : FunctionBinding) (previous : Option Ty) (s : Analyzer) : Analyzer :=
  if binding.declaration.body.isEmpty then
    { s.popScope with currentReturnType := previous }.diagnostic .returnTypeMismatch
      "function body is empty" binding.statementSpan
  else { s.popScope with currentReturnType := previous }

theorem closeBody_appends (binding : FunctionBinding) (previous : Option Ty) :
    Appends fun s => ((), closeBody binding previous s) := by
  have hrestored : Appends fun s => ((), { s.popScope with currentReturnType := previous }) :=
    .silent _ (fun _ _ => rfl) fun _ => rfl
  unfold closeBody
  cases binding.declaration.body.isEmpty with
  | true => exact hrestored.bind fun _ => .diagnostic () _ _ _
  | false => exact hrestored

theorem analyzeFunctionBody_eq (order : IterationOrder) (binding : FunctionBinding) (s : Analyzer) :
    analyzeFunctionBody order binding s =
      closeBody binding
        (resolveOptionalType .undefined binding.declaration.returnType s).2.currentReturnType
        (analyzeStatements order binding.declaration.body (bodyAnalyzer binding s)) := rfl

theorem analyzeFunctionBody_traced {s : Analyses} (hs : Coherent s) (binding : FunctionBinding) :
    Traced s (fun order => analyzeFunctionBody order binding (s order))
      (statementsChecks binding.declaration.body (bodyAnalyzer binding (s .listed))) := by
  have hresolved (order : IterationOrder) := resolveOptionalType_alike (hs order) .undefined
    binding.declaration.returnType
  have hbody : Coherent fun order => bodyAnalyzer binding (s order) := by
    intro order
    unfold bodyAnalyzer
    simp only [← (hresolved order).1]
    exact defineParams_alike (((hresolved order).2.returning _).pushScope) binding.declaration.params
  have hstatements := ((bodyAnalyzer_appends binding).traced hs).trans
    (analyzeStatements_traced hbody binding.declaration.body)
  have hall := hstatements.trans ((closeBody_appends binding (resolveOptionalType .undefined
    binding.declaration.returnType (s .listed)).2.currentReturnType).traced
    (hbody.statements binding.declaration.body))
  rw [List.append_nil] at hall
  simp only [analyzeFunctionBody_eq, ← (hresolved _).2.currentReturnType]
  exact hall

theorem analyzeFunctionBodies_traced {s : Analyses} (hs : Coherent s)
    (bindings : List FunctionBinding) :
    Traced s (fun order =>
        bindings.foldl (fun s binding => analyzeFunctionBody order binding s) (s order))
      (functionsChecks bindings (s .listed)) := by
  induction bindings generalizing s with
  | nil => exact .refl s
  | cons binding bindings ih =>
    exact (analyzeFunctionBody_traced hs binding).trans
      (ih fun order => analyzeFunctionBody_alike .listed order (hs order) binding)

/-- What a source reports is put together from the same events under every order. -/
theorem analyzeSource_events (source : String) :
    ∃ (events : List Event) (diagnostics : List SemanticDiagnostic) (n : ℕ),
      events.filterMap Event.check? = sourceChecks source ∧ ∀ order : IterationOrder,
        (analyzeSource order source).diagnostics = diagnostics ++ (render order events n).1 := by
  have hs : Coherent fun _ => collectTopLevelSymbols (parseSource source).program.body
      (initialAnalyzer source) := fun _ => .refl _
  have hbodies := analyzeFunctionBodies_traced hs (collectTopLevelSymbols
    (parseSource source).program.body (initialAnalyzer source)).functions
  have hfunctions : Coherent fun order => (collectTopLevelSymbols (parseSource source).program.body
      (initialAnalyzer source)).functions.foldl
        (fun s binding => analyzeFunctionBody order binding s)
        (collectTopLevelSymbols (parseSource source).program.body (initialAnalyzer source)) :=
    fun order => foldl_alike (fun _ _ binding h => analyzeFunctionBody_alike .listed order h binding)
      _ (.refl _)
  obtain ⟨events, hchecks, hevents⟩ := hbodies.trans (analyzeStatements_traced hfunctions
    ((parseSource source).program.body.filter fun statement => !isFunctionStatement statement))
  exact ⟨events, _, _, hchecks, fun order => (hevents order).1⟩

/-- The diagnostics of a source are the same under all orders exactly when all checks of
    its analysis are steady. -/
theorem analyzeSource_equal_iff (source : String) :
    (∀ order order' : IterationOrder,
        (analyzeSource order source).diagnostics = (analyzeSource order' source).diagnostics) ↔
      ∀ check ∈ sourceChecks source, check.Steady := by
  obtain ⟨events, diagnostics, n, hchecks, hevents⟩ := analyzeSource_events source
  rw [← hchecks, ← render_equal_iff events n]
  simp only [hevents, List.append_cancel_left_eq]

end Tsvm.CheckTraces
