import Tsvm.Scoping

set_option autoImplicit false

/-!
# Names the analyzer has looked up

While nothing is reported, the scopes of the analyzer have the names of the
scopes of a program. Every identifier the lowerer comes to is then looked up,
except in an argument list that `infer_call` leaves out.
-/
namespace Tsvm.CheckedNames
open Ast Ir Lowering Parsing Pipeline Semantic TopLevelFunctions Scoping AnalyzerSteps

def withGlobals (globals : Scope) : List Scope → List Scope
  | [] => []
  | [scope] => [scope ++ globals]
  | scope :: scopes => scope :: withGlobals globals scopes

theorem withGlobals_cons (globals scope : Scope) {scopes : List Scope} (h : scopes ≠ []) :
    withGlobals globals (scope :: scopes) = scope :: withGlobals globals scopes := by
  cases scopes with
  | nil => exact absurd rfl h
  | cons next scopes => rfl

theorem lookup_over {globals : Scope} {locals : List Scope} (h : locals ≠ []) {name : String}
    (hname : name ∉ (locals.map (List.map Prod.fst)).flatten) :
    ((withGlobals globals locals).findSome? fun scope => scope.lookup name) =
      globals.lookup name := by
  induction locals with
  | nil => exact absurd rfl h
  | cons scope scopes ih =>
    rw [List.map_cons, List.flatten_cons, List.mem_append, not_or] at hname
    have hscope : scope.lookup name = none := by
      rw [← Option.not_isSome_iff_eq_none]
      exact fun hsome => hname.1 ((lookup_isSome_iff scope name).mp hsome)
    cases scopes with
    | nil =>
      rw [withGlobals, List.findSome?_cons, List.lookup_append, hscope, Option.none_or]
      cases globals.lookup name with
      | _ => rfl
    | cons next scopes =>
      rw [withGlobals_cons globals scope (List.cons_ne_nil _ _), List.findSome?_cons, hscope]
      exact ih (List.cons_ne_nil _ _) hname.2

/-- The scopes of the analyzer have these names, and the globals are behind them. -/
def Models (globals : Scope) (scopes : Scopes) (s : Analyzer) : Prop :=
  ∃ locals : List Scope, locals ≠ [] ∧ locals.map (List.map Prod.fst) = scopes ∧
    s.valueScopes = withGlobals globals locals

namespace Models

variable {globals : Scope} {scopes : Scopes} {s s' : Analyzer}

theorem reports (h : Models globals scopes s) (hreports : Reports s s') :
    Models globals scopes s' := by
  obtain ⟨locals, hne, hnames, hscopes⟩ := h
  exact ⟨locals, hne, hnames, hreports.valueScopes.trans hscopes⟩

theorem lookupValue (h : Models globals scopes s) {name : String}
    (hname : name ∉ scopes.flatten) : s.lookupValue name = globals.lookup name := by
  obtain ⟨locals, hne, rfl, hscopes⟩ := h
  rw [Analyzer.lookupValue, hscopes]
  exact lookup_over hne hname

theorem pushScope (h : Models globals scopes s) : Models globals ([] :: scopes) s.pushScope := by
  obtain ⟨locals, hne, rfl, hscopes⟩ := h
  refine ⟨[] :: locals, List.cons_ne_nil _ _, rfl, ?_⟩
  rw [withGlobals_cons globals [] hne, ← hscopes]
  rfl

theorem ne_nil (h : Models globals scopes s) : scopes ≠ [] := by
  obtain ⟨locals, hne, rfl, _⟩ := h
  exact fun hnil => hne (List.map_eq_nil_iff.mp hnil)

theorem popScope {inner : Scopes} (h : Models globals inner s)
    (hinner : ∃ scope, inner = scope :: scopes) (hne : scopes ≠ []) :
    Models globals scopes s.popScope := by
  obtain ⟨scope, rfl⟩ := hinner
  obtain ⟨locals, _, hnames, hscopes⟩ := h
  cases locals with
  | nil => cases hnames
  | cons first locals =>
    obtain ⟨rfl, rfl⟩ := List.cons.inj hnames
    have hlocals : locals ≠ [] := fun hnil => hne (by rw [hnil]; rfl)
    refine ⟨locals, hlocals, rfl, ?_⟩
    rw [Analyzer.popScope, hscopes, withGlobals_cons globals first hlocals]
    rfl

/-- A declaration that reports nothing has added its name to the innermost scope. -/
theorem defineValue (h : Models globals scopes s) (name : String) (ty : Ty) (kind : SymbolKind)
    (span : Span) (hquiet : (s.defineValue name ty kind (some span)).diagnostics = []) :
    Models globals (scopes.declare name) (s.defineValue name ty kind (some span)) := by
  obtain ⟨locals, hne, rfl, hscopes⟩ := h
  cases locals with
  | nil => exact absurd rfl hne
  | cons scope locals =>
    obtain ⟨head, rest, hover, hdeclared⟩ : ∃ head rest,
        withGlobals globals (scope :: locals) = head :: rest ∧
        withGlobals globals (((name, ty) :: scope) :: locals) = ((name, ty) :: head) :: rest := by
      cases locals with
      | nil => exact ⟨_, [], rfl, rfl⟩
      | cons next locals => exact ⟨scope, withGlobals globals (next :: locals), rfl, rfl⟩
    refine ⟨((name, ty) :: scope) :: locals, List.cons_ne_nil _ _, rfl, ?_⟩
    unfold Analyzer.defineValue at hquiet ⊢
    rw [hscopes, hover] at hquiet ⊢
    rw [hdeclared]
    dsimp only at hquiet ⊢
    by_cases hdefined : (head.lookup name).isSome = true
    · rw [if_pos hdefined] at hquiet
      exact absurd (List.append_eq_nil_iff.mp hquiet).2 (List.cons_ne_nil _ _)
    · rw [if_neg hdefined]
      split <;> rfl

end Models

def statementsScopes (statements : List Statement) (scopes : Scopes) : Scopes :=
  statements.foldl (fun scopes statement => statementScopes statement scopes) scopes

mutual

theorem statementScopes_cons : ∀ (statement : Statement) (scope : List String) (scopes : Scopes),
    ∃ scope', statementScopes statement (scope :: scopes) = scope' :: scopes
  | .variable declaration _, scope, scopes => ⟨declaration.name :: scope, rfl⟩
  | .if _ consequent alternate _, scope, scopes => by
    obtain ⟨scope₁, hconsequent⟩ := statementScopes_cons consequent scope scopes
    rw [statementScopes, hconsequent]
    exact alternateScopes_cons alternate scope₁ scopes
  | .while _ body _, scope, scopes => statementScopes_cons body scope scopes
  | .export inner _, scope, scopes => statementScopes_cons inner scope scopes
  | .return _ _, scope, _ | .throw _ _, scope, _ | .expression _ _, scope, _
  | .for _ _ _ _ _, scope, _ | .block _ _, scope, _ | .interface _ _, scope, _
  | .typeAlias _ _, scope, _ | .class _ _, scope, _ | .function _ _, scope, _
  | .import _ _, scope, _ | .empty _, scope, _ | .error _, scope, _ => ⟨scope, rfl⟩

theorem alternateScopes_cons : ∀ (alternate : Option Statement) (scope : List String)
    (scopes : Scopes), ∃ scope', alternateScopes alternate (scope :: scopes) = scope' :: scopes
  | some alternate, scope, scopes => statementScopes_cons alternate scope scopes
  | none, scope, _ => ⟨scope, rfl⟩

end

theorem statementsScopes_cons (statements : List Statement) (scope : List String)
    (scopes : Scopes) :
    ∃ scope', statementsScopes statements (scope :: scopes) = scope' :: scopes := by
  induction statements generalizing scope with
  | nil => exact ⟨scope, rfl⟩
  | cons statement statements ih =>
    obtain ⟨scope₁, hfirst⟩ := statementScopes_cons statement scope scopes
    change ∃ scope', statementsScopes statements (statementScopes statement (scope :: scopes)) = _
    rw [hfirst]
    exact ih scope₁

section Statements

variable (order : IterationOrder) {globals : Scope}

theorem quiet_reports {s s' : Analyzer} (h : Reports s s') (hquiet : s'.diagnostics = []) :
    s.diagnostics = [] := quiet_of_earlier h.diagnostics hquiet

theorem quiet_advances {s s' : Analyzer} (h : Advances s s') (hquiet : s'.diagnostics = []) :
    s.diagnostics = [] := quiet_of_earlier h.diagnostics hquiet

mutual

theorem analyzeStatement_models : ∀ (statement : Statement) {scopes : Scopes} {s : Analyzer},
    Models globals scopes s → (analyzeStatement order statement s).diagnostics = [] →
      Models globals (statementScopes statement scopes) (analyzeStatement order statement s)
  | .variable declaration span, scopes, s, h, hquiet => by
    rw [analyzeStatement, analyzeVariable_eq] at hquiet ⊢
    exact (h.reports (checkedVariable_reports order declaration span s)).defineValue _ _ _ _ hquiet
  | .return value span, scopes, s, h, hquiet => by
    rw [analyzeStatement]
    exact h.reports (analyzeReturn_reports order value span s)
  | .throw value span, scopes, s, h, hquiet | .expression value span, scopes, s, h, hquiet => by
    rw [analyzeStatement]
    exact h.reports (inferExpression_reports order value s)
  | .if test consequent alternate span, scopes, s, h, hquiet => by
    rw [analyzeStatement] at hquiet ⊢
    have hthen := quiet_advances (analyzeOptional_advances order alternate _) hquiet
    have hconsequent := analyzeStatement_models consequent
      (h.reports (inferExpression_reports order test s)) hthen
    exact analyzeOptional_models alternate hconsequent hquiet
  | .while test body span, scopes, s, h, hquiet => by
    rw [analyzeStatement] at hquiet ⊢
    exact analyzeStatement_models body (h.reports (inferExpression_reports order test s)) hquiet
  | .for initializer test update body span, scopes, s, h, hquiet => by
    rw [analyzeStatement] at hquiet ⊢
    have hbody := quiet_advances (analyzeStatement_advances order body _) hquiet
    have hheader := (inferOptional_reports order test (analyzeOptional order initializer
      s.pushScope)).trans (inferOptional_reports order update _)
    have hinitializer := analyzeOptional_models initializer h.pushScope
      (quiet_reports hheader hbody)
    have hend := analyzeStatement_models body (hinitializer.reports hheader) hquiet
    obtain ⟨scope, hscope⟩ := alternateScopes_cons initializer [] scopes
    rw [hscope] at hend
    exact hend.popScope (statementScopes_cons body scope scopes) h.ne_nil
  | .block body span, scopes, s, h, hquiet => by
    rw [analyzeStatement] at hquiet ⊢
    exact (analyzeStatements_models body h.pushScope hquiet).popScope
      (statementsScopes_cons body [] scopes) h.ne_nil
  | .export inner span, scopes, s, h, hquiet => by
    rw [analyzeStatement] at hquiet ⊢
    exact analyzeStatement_models inner h hquiet
  | .interface _ _, _, _, h, _ | .typeAlias _ _, _, _, h, _ | .class _ _, _, _, h, _
  | .function _ _, _, _, h, _ | .import _ _, _, _, h, _ | .empty _, _, _, h, _
  | .error _, _, _, h, _ => h

theorem analyzeOptional_models : ∀ (statement : Option Statement) {scopes : Scopes}
    {s : Analyzer}, Models globals scopes s →
      (analyzeOptional order statement s).diagnostics = [] →
      Models globals (alternateScopes statement scopes) (analyzeOptional order statement s)
  | some statement, _, _, h, hquiet => analyzeStatement_models statement h hquiet
  | none, _, _, h, _ => h

theorem analyzeStatements_models : ∀ (statements : List Statement) {scopes : Scopes}
    {s : Analyzer}, Models globals scopes s →
      (analyzeStatements order statements s).diagnostics = [] →
      Models globals (statementsScopes statements scopes) (analyzeStatements order statements s)
  | [], _, _, h, _ => h
  | statement :: statements, _, _, h, hquiet =>
    analyzeStatements_models statements (analyzeStatement_models statement h
      (quiet_advances (analyzeStatements_advances order statements _) hquiet)) hquiet

end

end Statements

section Unchecked

variable (functions : List String)

/-- A call of a function of the top level by its name, which no local has. -/
def directCall (scopes : Scopes) : Expression → Bool
  | .identifier name _ => functions.contains name && !scopes.flatten.contains name
  | _ => false

mutual

/-- The names in the argument lists of all other calls. -/
def uncheckedUses (scopes : Scopes) : Expression → List Use
  | .identifier _ _ | .number _ _ | .string _ _ | .boolean _ _ | .null _ | .undefined _
  | .error _ => []
  | .object properties _ => uncheckedProperties scopes properties
  | .array elements _ => uncheckedList scopes elements
  | .member object _ _ => uncheckedUses scopes object
  | .call callee arguments _ =>
    if directCall functions scopes callee then uncheckedList scopes arguments
    else expressionsUses arguments
  | .unary _ argument _ => uncheckedUses scopes argument
  | .binary left _ right _ => uncheckedUses scopes left ++ uncheckedUses scopes right
  | .assignment left _ right _ =>
    match left with
    | .member object _ _ => uncheckedUses scopes object ++ uncheckedUses scopes right
    | _ => uncheckedUses scopes right

def uncheckedList (scopes : Scopes) : List Expression → List Use
  | [] => []
  | expression :: expressions =>
    uncheckedUses scopes expression ++ uncheckedList scopes expressions

def uncheckedProperties (scopes : Scopes) : List ObjectProperty → List Use
  | [] => []
  | .mk _ value _ :: properties =>
    uncheckedUses scopes value ++ uncheckedProperties scopes properties

end

end Unchecked

/-- Every identifier names a parameter or a variable in scope. -/
def InScope (scopes : Scopes) (uses : List Use) : Prop :=
  ∀ name, Use.access name ∈ uses → name ∈ scopes.flatten

/-- No identifier names a global that is not hidden by a parameter or a variable. -/
def AvoidsGlobals (globals : List String) (scopes : Scopes) (uses : List Use) : Prop :=
  ∀ name, Use.access name ∈ uses → name ∈ scopes.flatten ∨ name ∉ globals

theorem inScope_append {scopes : Scopes} {first second : List Use} :
    InScope scopes (first ++ second) ↔ InScope scopes first ∧ InScope scopes second := by
  simp only [InScope, List.mem_append, or_imp, forall_and]

theorem avoidsGlobals_append {globals : List String} {scopes : Scopes} {first second : List Use} :
    AvoidsGlobals globals scopes (first ++ second) ↔
      AvoidsGlobals globals scopes first ∧ AvoidsGlobals globals scopes second := by
  simp only [AvoidsGlobals, List.mem_append, or_imp, forall_and]

theorem inScope_access {scopes : Scopes} {name : String} :
    InScope scopes [.access name] ↔ name ∈ scopes.flatten := by
  simp [InScope]

theorem inScope_call (scopes : Scopes) (callee : Expression) : InScope scopes [.call callee] := by
  simp [InScope]

section Expressions

variable (order : IterationOrder) {globals : Scope} {functions : List String} {scopes : Scopes}

theorem inferExpression_lookup {s : Analyzer} {name : String} {span : Span}
    (h : Models globals scopes s)
    (hquiet : (inferExpression order (.identifier name span) s).2.diagnostics = [])
    (hglobals : AvoidsGlobals (globals.map Prod.fst) scopes [.access name]) :
    name ∈ scopes.flatten := by
  by_contra hname
  have hlookup := h.lookupValue hname
  have hnone : globals.lookup name = none := by
    rw [← Option.not_isSome_iff_eq_none, lookup_isSome_iff]
    exact (hglobals name List.mem_cons_self).resolve_left hname
  rw [inferExpression, hlookup, hnone] at hquiet
  exact absurd (List.append_eq_nil_iff.mp hquiet).2 (List.cons_ne_nil _ _)

def Declares (functions : List String) (globals : Scope) : Prop :=
  ∀ name ∈ functions, ∃ params returnType,
    globals.lookup name = some (.function params returnType false)

theorem directCall_arguments (hd : Declares functions globals) {s : Analyzer}
    {callee : Expression} {arguments : List Expression} {span : Span}
    (h : Models globals scopes s) (hdirect : directCall functions scopes callee = true)
    (hquiet : (inferExpression order (.call callee arguments span) s).2.diagnostics = []) :
    ∃ (params : List Ty) (t : Analyzer), params.length = arguments.length ∧
      Models globals scopes t ∧ (inferArguments order params arguments t).diagnostics = [] := by
  cases callee with
  | identifier name calleeSpan =>
    rw [directCall, Bool.and_eq_true, List.contains_iff_mem, Bool.not_eq_true',
      ← Bool.not_eq_true, List.contains_iff_mem] at hdirect
    obtain ⟨params, returnType, hlookup⟩ := hd name hdirect.1
    have hvalue := (h.lookupValue hdirect.2).trans hlookup
    rw [inferExpression_call, inferExpression, hvalue] at hquiet
    dsimp only [callResult] at hquiet
    by_cases hlength : (params.length != arguments.length) = true
    · rw [hlength] at hquiet
      have hreported := quiet_reports (inferArguments_reports order params arguments _) hquiet
      exact absurd (List.append_eq_nil_iff.mp hreported).2 (List.cons_ne_nil _ _)
    · rw [Bool.not_eq_true] at hlength
      rw [hlength] at hquiet
      exact ⟨params, s, of_not_not fun hne => by simp [hne] at hlength, h, hquiet⟩
  | _ => cases hdirect

mutual

theorem inferExpression_inScope (hd : Declares functions globals) :
    ∀ (expression : Expression) {s : Analyzer},
      Models globals scopes s → (inferExpression order expression s).2.diagnostics = [] →
      InScope scopes (uncheckedUses functions scopes expression) →
      AvoidsGlobals (globals.map Prod.fst) scopes (expressionUses expression) →
      InScope scopes (expressionUses expression)
  | .identifier name span, s, h, hquiet, _, hglobals =>
    inScope_access.mpr (inferExpression_lookup order h hquiet hglobals)
  | .number _ _, _, _, _, _, _ | .string _ _, _, _, _, _, _ | .boolean _ _, _, _, _, _, _
  | .null _, _, _, _, _, _ | .undefined _, _, _, _, _, _ | .error _, _, _, _, _, _ => nofun
  | .object properties span, s, h, hquiet, hunchecked, hglobals =>
    inferProperties_inScope hd properties h hquiet hunchecked hglobals
  | .array elements span, s, h, hquiet, hunchecked, hglobals =>
    inferElements_inScope hd elements .unknown h hquiet hunchecked hglobals
  | .member object property span, s, h, hquiet, hunchecked, hglobals =>
    inferExpression_inScope hd object h
      (quiet_reports (memberType_reports _ property span _) hquiet) hunchecked hglobals
  | .call callee arguments span, s, h, hquiet, hunchecked, hglobals => by
    rw [expressionUses] at hglobals ⊢
    rw [uncheckedUses] at hunchecked
    refine inScope_append.mpr ⟨?_, inScope_call scopes callee⟩
    by_cases hdirect : directCall functions scopes callee = true
    · rw [if_pos hdirect] at hunchecked
      obtain ⟨params, t, hlength, ht, harguments⟩ :=
        directCall_arguments order hd h hdirect hquiet
      exact inferArguments_inScope hd params arguments hlength ht harguments hunchecked
        (avoidsGlobals_append.mp hglobals).1
    · rw [if_neg hdirect] at hunchecked
      exact hunchecked
  | .unary operator argument span, s, h, hquiet, hunchecked, hglobals => by
    refine inferExpression_inScope hd argument h ?_ hunchecked hglobals
    rw [inferExpression] at hquiet
    cases operator with
    | negate => exact quiet_reports (requireAssignable_reports order .number _ _ _ _) hquiet
    | not => exact hquiet
  | .binary left operator right span, s, h, hquiet, hunchecked, hglobals => by
    rw [inferExpression] at hquiet
    rw [uncheckedUses, inScope_append] at hunchecked
    rw [expressionUses, avoidsGlobals_append] at hglobals
    have hright := quiet_reports (binaryResult_reports order operator _ _ _ _ _) hquiet
    have hleft := quiet_reports (inferExpression_reports order right _) hright
    exact inScope_append.mpr ⟨inferExpression_inScope hd left h hleft hunchecked.1 hglobals.1,
      inferExpression_inScope hd right (h.reports (inferExpression_reports order left s)) hright
        hunchecked.2 hglobals.2⟩
  | .assignment left operator right span, s, h, hquiet, hunchecked, hglobals => by
    have hright := quiet_reports (assignmentResult_reports order operator _ _ _ _ _ _)
      (by rw [inferExpression] at hquiet; exact hquiet)
    have hleft := quiet_reports (inferExpression_reports order right _) hright
    have hmodels := h.reports (inferExpression_reports order left s)
    cases left with
    | identifier name leftSpan =>
      rw [expressionUses, avoidsGlobals_append] at hglobals
      exact inScope_append.mpr
        ⟨inferExpression_inScope hd right hmodels hright hunchecked hglobals.1,
        inScope_access.mpr (inferExpression_lookup order h hleft hglobals.2)⟩
    | member object property leftSpan =>
      rw [uncheckedUses, inScope_append] at hunchecked
      rw [expressionUses, avoidsGlobals_append] at hglobals
      have hobject := quiet_reports (memberType_reports _ property leftSpan _)
        (by rw [inferExpression] at hleft; exact hleft)
      exact inScope_append.mpr ⟨inferExpression_inScope hd object h hobject hunchecked.1 hglobals.1,
        inferExpression_inScope hd right hmodels hright hunchecked.2 hglobals.2⟩
    | _ => exact inferExpression_inScope hd right hmodels hright hunchecked hglobals

theorem inferProperties_inScope (hd : Declares functions globals) :
    ∀ (properties : List ObjectProperty) {s : Analyzer},
      Models globals scopes s → (inferProperties order properties s).2.diagnostics = [] →
      InScope scopes (uncheckedProperties functions scopes properties) →
      AvoidsGlobals (globals.map Prod.fst) scopes (propertiesUses properties) →
      InScope scopes (propertiesUses properties)
  | [], _, _, _, _, _ => nofun
  | .mk name value span :: properties, s, h, hquiet, hunchecked, hglobals => by
    rw [inferProperties] at hquiet
    rw [uncheckedProperties, inScope_append] at hunchecked
    rw [propertiesUses, avoidsGlobals_append] at hglobals
    have hvalue := quiet_reports (inferProperties_reports order properties _) hquiet
    exact inScope_append.mpr ⟨inferExpression_inScope hd value h hvalue hunchecked.1 hglobals.1,
      inferProperties_inScope hd properties (h.reports (inferExpression_reports order value s))
        hquiet hunchecked.2 hglobals.2⟩

theorem inferElements_inScope (hd : Declares functions globals) :
    ∀ (elements : List Expression) (elementType : Ty) {s : Analyzer},
      Models globals scopes s → (inferElements order elements elementType s).2.diagnostics = [] →
      InScope scopes (uncheckedList functions scopes elements) →
      AvoidsGlobals (globals.map Prod.fst) scopes (expressionsUses elements) →
      InScope scopes (expressionsUses elements)
  | [], _, _, _, _, _, _ => nofun
  | element :: elements, elementType, s, h, hquiet, hunchecked, hglobals => by
    rw [inferElements] at hquiet
    rw [uncheckedList, inScope_append] at hunchecked
    rw [expressionsUses, avoidsGlobals_append] at hglobals
    have hmodels := h.reports (inferExpression_reports order element s)
    dsimp only at hquiet
    refine inScope_append.mpr ?_
    by_cases hunknown : elementType.isUnknown = true
    · rw [if_pos hunknown] at hquiet
      have helement := quiet_reports (inferElements_reports order elements _ _) hquiet
      exact ⟨inferExpression_inScope hd element h helement hunchecked.1 hglobals.1,
        inferElements_inScope hd elements _ hmodels hquiet hunchecked.2 hglobals.2⟩
    · rw [if_neg hunknown] at hquiet
      have hchecked := requireAssignable_reports order elementType
        (inferExpression order element s).1 element.span .typeMismatch
        (inferExpression order element s).2
      have helement :=
        quiet_reports (hchecked.trans (inferElements_reports order elements _ _)) hquiet
      exact ⟨inferExpression_inScope hd element h helement hunchecked.1 hglobals.1,
        inferElements_inScope hd elements _ (hmodels.reports hchecked) hquiet hunchecked.2
          hglobals.2⟩

theorem inferArguments_inScope (hd : Declares functions globals) :
    ∀ (params : List Ty) (arguments : List Expression) {s : Analyzer},
      params.length = arguments.length → Models globals scopes s →
      (inferArguments order params arguments s).diagnostics = [] →
      InScope scopes (uncheckedList functions scopes arguments) →
      AvoidsGlobals (globals.map Prod.fst) scopes (expressionsUses arguments) →
      InScope scopes (expressionsUses arguments)
  | _, [], _, _, _, _, _, _ => nofun
  | [], _ :: _, _, hlength, _, _, _, _ => by cases hlength
  | expected :: params, argument :: arguments, s, hlength, h, hquiet, hunchecked, hglobals => by
    rw [inferArguments] at hquiet
    rw [uncheckedList, inScope_append] at hunchecked
    rw [expressionsUses, avoidsGlobals_append] at hglobals
    have hchecked := requireAssignable_reports order expected
      (inferExpression order argument s).1 argument.span .typeMismatch
      (inferExpression order argument s).2
    have hargument :=
      quiet_reports (hchecked.trans (inferArguments_reports order params arguments _)) hquiet
    have hmodels := (h.reports (inferExpression_reports order argument s)).reports hchecked
    exact inScope_append.mpr
      ⟨inferExpression_inScope hd argument h hargument hunchecked.1 hglobals.1,
      inferArguments_inScope hd params arguments (Nat.succ.inj hlength) hmodels hquiet hunchecked.2
        hglobals.2⟩

end

end Expressions

def Bound (site : Site) : Prop :=
  ∀ name, site.use = .access name → name ∈ site.scopes.flatten

instance (site : Site) : Decidable (Bound site) :=
  match site with
  | ⟨.access name, scopes⟩ =>
    decidable_of_iff (name ∈ scopes.flatten)
      ⟨fun h _ huse => Use.access.inj huse ▸ h, fun h => h name rfl⟩
  | ⟨.declaration _, _⟩ => isTrue nofun
  | ⟨.call _, _⟩ => isTrue nofun

def Avoids (globals : List String) (site : Site) : Prop :=
  ∀ name, site.use = .access name → name ∈ site.scopes.flatten ∨ name ∉ globals

theorem forall_sitesIn {scopes : Scopes} {uses : List Use} {P : Site → Prop} :
    (∀ site ∈ sitesIn scopes uses, P site) ↔ ∀ use ∈ uses, P ⟨use, scopes⟩ := by
  rw [sitesIn, List.forall_mem_map]

theorem bound_sitesIn {scopes : Scopes} {uses : List Use} :
    (∀ site ∈ sitesIn scopes uses, Bound site) ↔ InScope scopes uses := by
  rw [forall_sitesIn]
  constructor
  · exact fun h name hmem => h _ hmem name rfl
  · intro h use hmem name huse
    exact h name (huse ▸ hmem)

theorem avoids_sitesIn {globals : List String} {scopes : Scopes} {uses : List Use} :
    (∀ site ∈ sitesIn scopes uses, Avoids globals site) ↔ AvoidsGlobals globals scopes uses := by
  rw [forall_sitesIn]
  constructor
  · exact fun h name hmem => h _ hmem name rfl
  · intro h use hmem name huse
    exact h name (huse ▸ hmem)

theorem inScope_declaration (scopes : Scopes) (name : String) :
    InScope scopes [.declaration name] := by
  simp [InScope]

/-- What the sites of a program have to satisfy where the analyzer does not look. -/
structure Conditions (functions globals : List String) (unchecked all : List Site) : Prop where
  unchecked : ∀ site ∈ unchecked, Bound site
  globals : ∀ site ∈ all, Avoids globals site

theorem Conditions.split {functions globals : List String} {u u' a a' : List Site}
    (h : Conditions functions globals (u ++ u') (a ++ a')) :
    Conditions functions globals u a ∧ Conditions functions globals u' a' :=
  ⟨⟨fun site hmem => h.unchecked site (List.mem_append_left _ hmem),
    fun site hmem => h.globals site (List.mem_append_left _ hmem)⟩,
    ⟨fun site hmem => h.unchecked site (List.mem_append_right _ hmem),
    fun site hmem => h.globals site (List.mem_append_right _ hmem)⟩⟩

section Sites

variable (order : IterationOrder) {globals : Scope} {functions : List String}

theorem inferExpression_bound (hd : Declares functions globals) (expression : Expression)
    {scopes : Scopes} {s : Analyzer} (h : Models globals scopes s)
    (hquiet : (inferExpression order expression s).2.diagnostics = [])
    (hconditions : Conditions functions (globals.map Prod.fst)
      (sitesIn scopes (uncheckedUses functions scopes expression))
      (sitesIn scopes (allUses scopes expression))) :
    ∀ site ∈ sitesIn scopes (allUses scopes expression), Bound site :=
  bound_sitesIn.mpr (inferExpression_inScope order hd expression h hquiet
    (bound_sitesIn.mp hconditions.unchecked) (avoids_sitesIn.mp hconditions.globals))

theorem inferOptional_bound (hd : Declares functions globals) (expression : Option Expression)
    {scopes : Scopes} {s : Analyzer} (h : Models globals scopes s)
    (hquiet : (inferOptional order expression s).2.diagnostics = [])
    (hconditions : Conditions functions (globals.map Prod.fst)
      (sitesIn scopes (optionalUses (uncheckedUses functions) scopes expression))
      (sitesIn scopes (optionalUses allUses scopes expression))) :
    ∀ site ∈ sitesIn scopes (optionalUses allUses scopes expression), Bound site := by
  cases expression with
  | none => exact nofun
  | some expression => exact inferExpression_bound order hd expression h hquiet hconditions

theorem checkedVariable_initializer (declaration : VariableDeclaration) (span : Span)
    {s : Analyzer} (hquiet : (checkedVariable order declaration span s).2.diagnostics = []) :
    ∃ t, Reports s t ∧ (inferOptional order declaration.initializer t).2.diagnostics = [] := by
  unfold checkedVariable at hquiet
  cases hty : declaration.ty with
  | none =>
    rw [hty] at hquiet
    exact ⟨s, .refl s, hquiet⟩
  | some ty =>
    rw [hty] at hquiet
    refine ⟨(resolveTypeNode ty s).2, resolveTypeNode_reports ty s, ?_⟩
    cases hinitializer : (inferOptional order declaration.initializer (resolveTypeNode ty s).2).1 with
    | none =>
      dsimp only at hquiet
      rw [hinitializer] at hquiet
      exact hquiet
    | some actual =>
      dsimp only at hquiet
      rw [hinitializer] at hquiet
      exact quiet_reports (requireAssignable_reports order _ _ _ _ _) hquiet

mutual

theorem analyzeStatement_bound (hd : Declares functions globals) :
    ∀ (statement : Statement) {scopes : Scopes} {s : Analyzer}, Models globals scopes s →
      (analyzeStatement order statement s).diagnostics = [] →
      Conditions functions (globals.map Prod.fst)
        (statementSites (uncheckedUses functions) statement scopes)
        (statementSites allUses statement scopes) →
      ∀ site ∈ statementSites allUses statement scopes, Bound site
  | .variable declaration span, scopes, s, h, hquiet, hconditions => by
    rw [analyzeStatement, analyzeVariable_eq] at hquiet
    obtain ⟨t, ht, hinitializer⟩ := checkedVariable_initializer order declaration span
      (quiet_advances (defineValue_advances _ _ _ _ _) hquiet)
    simp only [statementSites, sitesIn, List.map_append] at hconditions
    have hbound := inferOptional_bound order hd declaration.initializer (h.reports ht) hinitializer
      hconditions.split.1
    rw [statementSites]
    exact bound_sitesIn.mpr (inScope_append.mpr
      ⟨bound_sitesIn.mp hbound, inScope_declaration scopes declaration.name⟩)
  | .return value span, scopes, s, h, hquiet, hconditions => by
    refine inferOptional_bound order hd value h ?_ hconditions
    rw [analyzeStatement, analyzeReturn] at hquiet
    dsimp only at hquiet
    split at hquiet
    · exact hquiet
    · exact quiet_reports (requireAssignable_reports order _ _ _ _ _) hquiet
  | .throw value span, scopes, s, h, hquiet, hconditions
  | .expression value span, scopes, s, h, hquiet, hconditions => by
    rw [analyzeStatement] at hquiet
    exact inferExpression_bound order hd value h hquiet hconditions
  | .if test consequent alternate span, scopes, s, h, hquiet, hconditions => by
    rw [analyzeStatement] at hquiet
    simp only [statementSites] at hconditions ⊢
    have hthen := quiet_advances (analyzeOptional_advances order alternate _) hquiet
    have htest := quiet_advances (analyzeStatement_advances order consequent _) hthen
    have hmodels := h.reports (inferExpression_reports order test s)
    have hfirst := inferExpression_bound order hd test h htest hconditions.split.1.split.1
    have hsecond := analyzeStatement_bound hd consequent hmodels hthen hconditions.split.1.split.2
    have hthird := analyzeOptional_bound hd alternate
      (analyzeStatement_models order consequent hmodels hthen) hquiet hconditions.split.2
    intro site hmem
    simp only [List.mem_append] at hmem
    exact hmem.elim (fun hmem => hmem.elim (hfirst site) (hsecond site)) (hthird site)
  | .block body span, scopes, s, h, hquiet, hconditions => by
    rw [analyzeStatement] at hquiet
    exact analyzeStatements_bound hd body h.pushScope hquiet hconditions
  | .export inner span, scopes, s, h, hquiet, hconditions => by
    rw [analyzeStatement] at hquiet
    exact analyzeStatement_bound hd inner h hquiet hconditions
  | .interface _ _, _, _, _, _, _ | .typeAlias _ _, _, _, _, _, _ | .class _ _, _, _, _, _, _
  | .function _ _, _, _, _, _, _ | .import _ _, _, _, _, _, _ | .empty _, _, _, _, _, _
  | .error _, _, _, _, _, _ | .while _ _ _, _, _, _, _, _ | .for _ _ _ _ _, _, _, _, _, _ => nofun

theorem analyzeOptional_bound (hd : Declares functions globals) :
    ∀ (statement : Option Statement) {scopes : Scopes} {s : Analyzer}, Models globals scopes s →
      (analyzeOptional order statement s).diagnostics = [] →
      Conditions functions (globals.map Prod.fst)
        (alternateSites (uncheckedUses functions) statement scopes)
        (alternateSites allUses statement scopes) →
      ∀ site ∈ alternateSites allUses statement scopes, Bound site
  | some statement, _, _, h, hquiet, hconditions =>
    analyzeStatement_bound hd statement h hquiet hconditions
  | none, _, _, _, _, _ => nofun

theorem analyzeStatements_bound (hd : Declares functions globals) :
    ∀ (statements : List Statement) {scopes : Scopes} {s : Analyzer}, Models globals scopes s →
      (analyzeStatements order statements s).diagnostics = [] →
      Conditions functions (globals.map Prod.fst)
        (statementsSites (uncheckedUses functions) statements scopes)
        (statementsSites allUses statements scopes) →
      ∀ site ∈ statementsSites allUses statements scopes, Bound site
  | [], _, _, _, _, _ => nofun
  | statement :: statements, scopes, s, h, hquiet, hconditions => by
    simp only [statementsSites] at hconditions ⊢
    have hstatement := quiet_advances (analyzeStatements_advances order statements _) hquiet
    have hfirst := analyzeStatement_bound hd statement h hstatement hconditions.split.1
    have hrest := analyzeStatements_bound hd statements
      (analyzeStatement_models order statement h hstatement) hquiet hconditions.split.2
    intro site hmem
    exact (List.mem_append.mp hmem).elim (hfirst site) (hrest site)

end

theorem defineParams_models (params : List Parameter) {scope : List String} {scopes : Scopes}
    {s : Analyzer} (h : Models globals (scope :: scopes) s)
    (hquiet : (defineParams params s).diagnostics = []) :
    Models globals (((params.map Parameter.name).reverse ++ scope) :: scopes)
      (defineParams params s) := by
  induction params generalizing scope s with
  | nil => exact h
  | cons param params ih =>
    rw [defineParams] at hquiet ⊢
    have hparam := (h.reports (resolveOptionalType_reports .unknown param.ty s)).defineValue
      param.name _ .variable param.span (quiet_advances (defineParams_advances params _) hquiet)
    have hrest := ih hparam hquiet
    rw [List.map_cons, List.reverse_cons, List.append_assoc]
    exact hrest

theorem bodyAnalyzer_models {binding : FunctionBinding} {s : Analyzer}
    (h : Models globals [[]] s) (hquiet : (bodyAnalyzer binding s).diagnostics = []) :
    Models globals [(binding.declaration.params.map Parameter.name).reverse, []]
      (bodyAnalyzer binding s) := by
  have hresolved := h.reports
    (resolveOptionalType_reports .undefined binding.declaration.returnType s)
  rw [← List.append_nil (binding.declaration.params.map Parameter.name).reverse]
  exact defineParams_models binding.declaration.params hresolved.pushScope hquiet

theorem analyzeFunctionBody_quiet {binding : FunctionBinding} {s : Analyzer}
    (hquiet : (analyzeFunctionBody order binding s).diagnostics = []) :
    (analyzeStatements order binding.declaration.body (bodyAnalyzer binding s)).diagnostics = [] ∧
      (analyzeFunctionBody order binding s).valueScopes =
        (analyzeStatements order binding.declaration.body
          (bodyAnalyzer binding s)).popScope.valueScopes := by
  unfold analyzeFunctionBody at hquiet ⊢
  dsimp only at hquiet ⊢
  by_cases hempty : binding.declaration.body.isEmpty = true
  · rw [if_pos hempty] at hquiet
    exact absurd (List.append_eq_nil_iff.mp hquiet).2 (List.cons_ne_nil _ _)
  · rw [if_neg hempty] at hquiet ⊢
    exact ⟨hquiet, rfl⟩

theorem analyzeFunctionBody_models {binding : FunctionBinding} {s : Analyzer}
    (h : Models globals [[]] s) (hquiet : (analyzeFunctionBody order binding s).diagnostics = []) :
    Models globals [[]] (analyzeFunctionBody order binding s) := by
  obtain ⟨hbody, hscopes⟩ := analyzeFunctionBody_quiet order hquiet
  have hstart := bodyAnalyzer_models h
    (quiet_advances (analyzeStatements_advances order binding.declaration.body _) hbody)
  obtain ⟨locals, hne, hnames, hpopped⟩ :=
    (analyzeStatements_models order binding.declaration.body hstart hbody).popScope
      (statementsScopes_cons _ _ _) (List.cons_ne_nil _ _)
  exact ⟨locals, hne, hnames, hscopes.trans hpopped⟩

theorem analyzeFunctionBody_bound (hd : Declares functions globals) {binding : FunctionBinding}
    {s : Analyzer} (h : Models globals [[]] s)
    (hquiet : (analyzeFunctionBody order binding s).diagnostics = [])
    (hconditions : Conditions functions (globals.map Prod.fst)
      (functionSites (uncheckedUses functions) binding.declaration)
      (functionSites allUses binding.declaration)) :
    ∀ site ∈ functionSites allUses binding.declaration, Bound site := by
  obtain ⟨hbody, _⟩ := analyzeFunctionBody_quiet order hquiet
  have hstart := bodyAnalyzer_models h
    (quiet_advances (analyzeStatements_advances order binding.declaration.body _) hbody)
  exact analyzeStatements_bound order hd binding.declaration.body hstart hbody hconditions

theorem analyzeFunctionBodies_each (bindings : List FunctionBinding) {s : Analyzer}
    (h : Models globals [[]] s)
    (hquiet : (bindings.foldl (fun s binding => analyzeFunctionBody order binding s)
      s).diagnostics = []) :
    Models globals [[]] (bindings.foldl (fun s binding => analyzeFunctionBody order binding s) s) ∧
      ∀ binding ∈ bindings, ∃ t, Models globals [[]] t ∧
        (analyzeFunctionBody order binding t).diagnostics = [] := by
  induction bindings generalizing s with
  | nil => exact ⟨h, nofun⟩
  | cons binding bindings ih =>
    have hfirst := quiet_advances (analyzeFunctionBodies_advances order bindings _) hquiet
    obtain ⟨hend, hrest⟩ := ih (analyzeFunctionBody_models order h hfirst) hquiet
    refine ⟨hend, fun b hb => ?_⟩
    cases hb with
    | head => exact ⟨s, h, hfirst⟩
    | tail _ hb => exact hrest b hb

end Sites

theorem statementsSites_entry (uses : Scopes → Expression → List Use) (body : List Statement)
    (scopes : Scopes) :
    statementsSites uses (body.filter fun statement => !isFunctionStatement statement) scopes =
      statementsSites uses (body.filter isEntryStatement) scopes := by
  induction body generalizing scopes with
  | nil => rfl
  | cons statement body ih =>
    cases statement with
    | function declaration span => exact ih scopes
    | interface declaration span => exact ih scopes
    | typeAlias declaration span => exact ih scopes
    | «class» declaration span => exact ih scopes
    | _ => exact congrArg (fun sites => _ ++ sites) (ih _)

def functionNames (program : Program) : List String :=
  (program.body.filterMap collectedFunction).map fun binding => binding.declaration.name

theorem mem_lookup {α : Type} {entries : List (String × α)} {name : String} {value : α}
    (h : entries.lookup name = some value) : (name, value) ∈ entries := by
  induction entries with
  | nil => cases h
  | cons entry entries ih =>
    obtain ⟨key, entryValue⟩ := entry
    rw [List.lookup_cons] at h
    by_cases hkey : name = key
    · rw [hkey, beq_self_eq_true] at h
      cases h
      rw [hkey]
      exact List.mem_cons_self
    · rw [beq_false_of_ne hkey] at h
      exact List.mem_cons_of_mem _ (ih h)

theorem Collected.declares {global : Scope} {s : Analyzer} (h : Collected global s)
    (hquiet : s.diagnostics = []) :
    Declares (s.functions.map fun binding => binding.declaration.name) global := by
  intro name hname
  have hnames := h.names hquiet
  have hmem : name ∈ global.map Prod.fst := by
    rw [hnames]
    exact List.mem_append_left _ (List.mem_reverse.mpr hname)
  obtain ⟨ty, hty⟩ := Option.isSome_iff_exists.mp ((lookup_isSome_iff global name).mpr hmem)
  obtain hconsole | ⟨params, returnType, hfunction⟩ := h.functions _ (mem_lookup hty)
  · have hnodup := h.nodup
    rw [hnames] at hnodup
    have hdisjoint := (List.nodup_append.mp hnodup).2.2 name (List.mem_reverse.mpr hname)
      "console" (List.mem_singleton_self _)
    exact absurd hconsole hdisjoint
  · exact ⟨params, returnType, hty.trans (congrArg some hfunction)⟩

/-- What the analyzer leaves unchecked in a program: the arguments of a call of anything but
    a function of the top level, and the reads of the functions and the console. -/
def AccessesChecked (program : Program) : Prop :=
  Conditions (functionNames program) ("console" :: functionNames program)
    (programSites (uncheckedUses (functionNames program)) program) (programSites allUses program)

theorem Conditions.mono {functions globals globals' : List String} {u u' a a' : List Site}
    (h : Conditions functions globals u a) (hu : ∀ site ∈ u', site ∈ u)
    (ha : ∀ site ∈ a', site ∈ a) (hglobals : ∀ name ∈ globals', name ∈ globals) :
    Conditions functions globals' u' a' where
  unchecked := fun site hmem => h.unchecked site (hu site hmem)
  globals := fun site hmem name huse =>
    (h.globals site (ha site hmem) name huse).imp_right fun hnot hmem => hnot (hglobals name hmem)

mutual

theorem uncheckedUses_subset (functions : List String) (scopes : Scopes) :
    ∀ expression : Expression, uncheckedUses functions scopes expression ⊆ expressionUses expression
  | .identifier _ _ | .number _ _ | .string _ _ | .boolean _ _ | .null _ | .undefined _
  | .error _ => List.nil_subset _
  | .object properties _ => uncheckedProperties_subset functions scopes properties
  | .array elements _ => uncheckedList_subset functions scopes elements
  | .member object _ _ => uncheckedUses_subset functions scopes object
  | .call callee arguments _ => by
    rw [uncheckedUses, expressionUses]
    split
    · exact List.subset_append_of_subset_left _ (uncheckedList_subset functions scopes arguments)
    · exact List.subset_append_left _ _
  | .unary _ argument _ => uncheckedUses_subset functions scopes argument
  | .binary left _ right _ => List.append_subset.mpr
    ⟨List.subset_append_of_subset_left _ (uncheckedUses_subset functions scopes left),
      List.subset_append_of_subset_right _ (uncheckedUses_subset functions scopes right)⟩
  | .assignment left _ right _ => by
    have hright := uncheckedUses_subset functions scopes right
    cases left with
    | identifier name span => exact List.subset_append_of_subset_left _ hright
    | member object property span =>
      exact List.append_subset.mpr
        ⟨List.subset_append_of_subset_left _ (uncheckedUses_subset functions scopes object),
          List.subset_append_of_subset_right _ hright⟩
    | _ => exact hright

theorem uncheckedList_subset (functions : List String) (scopes : Scopes) :
    ∀ expressions : List Expression,
      uncheckedList functions scopes expressions ⊆ expressionsUses expressions
  | [] => List.nil_subset _
  | expression :: expressions => List.append_subset.mpr
    ⟨List.subset_append_of_subset_left _ (uncheckedUses_subset functions scopes expression),
      List.subset_append_of_subset_right _ (uncheckedList_subset functions scopes expressions)⟩

theorem uncheckedProperties_subset (functions : List String) (scopes : Scopes) :
    ∀ properties : List ObjectProperty,
      uncheckedProperties functions scopes properties ⊆ propertiesUses properties
  | [] => List.nil_subset _
  | .mk _ value _ :: properties => List.append_subset.mpr
    ⟨List.subset_append_of_subset_left _ (uncheckedUses_subset functions scopes value),
      List.subset_append_of_subset_right _ (uncheckedProperties_subset functions scopes properties)⟩

end

section Subset

variable {uses uses' : Scopes → Expression → List Use}

theorem sitesIn_subset {scopes : Scopes} {first second : List Use} (h : first ⊆ second) :
    sitesIn scopes first ⊆ sitesIn scopes second := List.map_subset _ h

theorem optionalUses_subset (h : ∀ scopes expression, uses scopes expression ⊆ uses' scopes expression)
    (scopes : Scopes) (expression : Option Expression) :
    optionalUses uses scopes expression ⊆ optionalUses uses' scopes expression := by
  cases expression with
  | none => exact List.nil_subset _
  | some expression => exact h scopes expression

theorem append_subset_append {α : Type} {a a' b b' : List α} (h : a ⊆ a') (h' : b ⊆ b') :
    a ++ b ⊆ a' ++ b' :=
  List.append_subset.mpr ⟨List.subset_append_of_subset_left _ h,
    List.subset_append_of_subset_right _ h'⟩

mutual

theorem statementSites_subset
    (h : ∀ scopes expression, uses scopes expression ⊆ uses' scopes expression) :
    ∀ (statement : Statement) (scopes : Scopes),
      statementSites uses statement scopes ⊆ statementSites uses' statement scopes
  | .variable declaration _, scopes => sitesIn_subset
    (append_subset_append (optionalUses_subset h scopes declaration.initializer) (List.Subset.refl _))
  | .return value _, scopes => sitesIn_subset (optionalUses_subset h scopes value)
  | .throw value _, scopes | .expression value _, scopes => sitesIn_subset (h scopes value)
  | .if test consequent alternate _, scopes => append_subset_append
    (append_subset_append (sitesIn_subset (h scopes test))
      (statementSites_subset h consequent scopes)) (alternateSites_subset h alternate _)
  | .block body _, scopes => statementsSites_subset h body ([] :: scopes)
  | .export inner _, scopes => statementSites_subset h inner scopes
  | .interface _ _, _ | .typeAlias _ _, _ | .class _ _, _ | .function _ _, _ | .import _ _, _
  | .empty _, _ | .error _, _ | .while _ _ _, _ | .for _ _ _ _ _, _ => List.nil_subset _

theorem alternateSites_subset
    (h : ∀ scopes expression, uses scopes expression ⊆ uses' scopes expression) :
    ∀ (alternate : Option Statement) (scopes : Scopes),
      alternateSites uses alternate scopes ⊆ alternateSites uses' alternate scopes
  | some alternate, scopes => statementSites_subset h alternate scopes
  | none, _ => List.nil_subset _

theorem statementsSites_subset
    (h : ∀ scopes expression, uses scopes expression ⊆ uses' scopes expression) :
    ∀ (statements : List Statement) (scopes : Scopes),
      statementsSites uses statements scopes ⊆ statementsSites uses' statements scopes
  | [], _ => List.nil_subset _
  | statement :: statements, scopes => append_subset_append
    (statementSites_subset h statement scopes) (statementsSites_subset h statements _)

end

theorem programSites_subset
    (h : ∀ scopes expression, uses scopes expression ⊆ uses' scopes expression)
    (program : Program) : programSites uses program ⊆ programSites uses' program := by
  refine append_subset_append ?_ (statementsSites_subset h _ _)
  intro site hmem
  obtain ⟨binding, hbinding, hsite⟩ := List.mem_flatMap.mp hmem
  exact List.mem_flatMap.mpr ⟨binding, hbinding, statementsSites_subset h _ _ hsite⟩

end Subset

theorem mem_collected_of_plain {body : List Statement} {binding : FunctionBinding}
    (h : binding ∈ body.filterMap plainFunction) : binding ∈ body.filterMap collectedFunction := by
  obtain ⟨statement, hmem, hplain⟩ := List.mem_filterMap.mp h
  exact List.mem_filterMap.mpr ⟨statement, hmem, collectedFunction_of_plain hplain⟩

theorem analyzeBodies_bound (order : IterationOrder) {program : Program} {global : Scope}
    {s : Analyzer} (hglobal : Collected global s)
    (hfunctions : s.functions = program.body.filterMap collectedFunction)
    (hquiet : (analyzeStatements order
      (program.body.filter fun statement => !isFunctionStatement statement)
      (s.functions.foldl (fun s binding => analyzeFunctionBody order binding s) s)).diagnostics = [])
    (hconditions : AccessesChecked program) :
    ∀ site ∈ programSites allUses program, Bound site := by
  have hbodies := quiet_advances (analyzeStatements_advances order _ _) hquiet
  have hstart := quiet_advances (analyzeFunctionBodies_advances order s.functions s) hbodies
  have hd : Declares (functionNames program) global := by
    rw [functionNames, ← hfunctions]
    exact Collected.declares hglobal hstart
  have hglobals : ∀ name ∈ global.map Prod.fst, name ∈ "console" :: functionNames program := by
    intro name hmem
    rw [hglobal.names hstart, hfunctions, List.mem_append, List.mem_reverse,
      List.mem_singleton] at hmem
    exact hmem.elim (List.mem_cons_of_mem _) fun hconsole => hconsole ▸ List.mem_cons_self
  have hmodels : Models global [[]] s := ⟨[[]], List.cons_ne_nil _ _, rfl, hglobal.scopes⟩
  obtain ⟨hend, heach⟩ := analyzeFunctionBodies_each order s.functions hmodels hbodies
  intro site hsite
  cases List.mem_append.mp hsite with
  | inl hfunction =>
    obtain ⟨binding, hbinding, hmem⟩ := List.mem_flatMap.mp hfunction
    obtain ⟨t, ht, hbody⟩ := heach binding (hfunctions ▸ mem_collected_of_plain hbinding)
    refine analyzeFunctionBody_bound order hd ht hbody (hconditions.mono ?_ ?_ hglobals) site hmem
    · exact fun site hmem => List.mem_append_left _ (List.mem_flatMap.mpr ⟨binding, hbinding, hmem⟩)
    · exact fun site hmem => List.mem_append_left _ (List.mem_flatMap.mpr ⟨binding, hbinding, hmem⟩)
  | inr hentry =>
    have hbound := analyzeStatements_bound order hd
      (program.body.filter fun statement => !isFunctionStatement statement) hend hquiet
    rw [statementsSites_entry, statementsSites_entry] at hbound
    refine hbound (hconditions.mono ?_ ?_ hglobals) site hentry
    · exact fun site hmem => List.mem_append_right _ hmem
    · exact fun site hmem => List.mem_append_right _ hmem

theorem analyzeSource_bound (order : IterationOrder) {source : String}
    (hquiet : (analyzeSource order source).diagnostics = [])
    (hconditions : AccessesChecked (parseSource source).program) :
    ∀ site ∈ programSites allUses (parseSource source).program, Bound site := by
  obtain ⟨global, hglobal⟩ := (Collected.initial source).collectTopLevelSymbols
    (parseSource source).program.body
  exact analyzeBodies_bound order hglobal (collectTopLevelSymbols_functions _ _) hquiet hconditions

/-- In a source without diagnostics every identifier the lowerer loads or assigns is in
    scope exactly when those are that the analyzer does not check. -/
theorem lowerSource_accesses_iff (order : IterationOrder) (source : String) {ir : IrProgram}
    (h : (lowerSource order source).ir = some ir) :
    (∀ site ∈ programSites allUses (parseSource source).program, Bound site) ↔
      AccessesChecked (parseSource source).program := by
  obtain ⟨hquiet, rfl⟩ := lowerSource_ir_iff.mp h
  refine ⟨fun hbound => ⟨fun site hmem => ?_, fun site hmem name huse => ?_⟩,
    analyzeSource_bound order hquiet⟩
  · exact hbound site (programSites_subset (uncheckedUses_subset _) _ hmem)
  · exact .inl (hbound site hmem name huse)

/-- A function with a local that is called from the top level. -/
theorem doubleSource_accesses :
    let source := "function f(n: number): number { let k = n + 1; return k * 2; } console.log(f(20));"
    (∀ site ∈ programSites allUses (parseSource source).program, Bound site) ↔
      AccessesChecked (parseSource source).program :=
  lowerSource_accesses_iff .listed _ (lowerSource_ir_iff.mpr ⟨by decide +kernel, rfl⟩)

/-- An argument of `console.log` that is declared nowhere. -/
theorem undeclaredSource_accesses :
    let source := "console.log(missing);"
    (lowerSource .listed source).ir = some (lowerProgram (parseSource source).program) ∧
      ¬ ∀ site ∈ programSites allUses (parseSource source).program, Bound site :=
  ⟨lowerSource_ir_iff.mpr ⟨by decide +kernel, rfl⟩, by decide +kernel⟩

end Tsvm.CheckedNames
