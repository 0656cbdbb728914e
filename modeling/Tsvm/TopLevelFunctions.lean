import Mathlib.Data.List.Pairwise
import Tsvm.AnalyzerSteps
import Tsvm.LoweringBlocks
import Tsvm.Pipeline

set_option autoImplicit false

/-!
# The functions of a program

The analyzer collects the functions at the top level, under any number of
exports, and reports a name that occurs twice. The lowerer makes a function of
each plain declaration, and the compiler puts the entry behind them. A call
selects the first function of its name.
-/
namespace Tsvm.TopLevelFunctions
open Ast Bytecode Compilation Interop Interpreter Ir Lowering Parsing Pipeline Semantic
open AnalyzerSteps

/-- The function a statement of the top level declares for the analyzer. -/
def collectedFunction : Statement → Option FunctionBinding
  | .function declaration span => some ⟨declaration, span⟩
  | .export inner _ => collectedFunction inner
  | _ => none

/-- The function a statement of the top level declares for the lowerer. -/
def plainFunction : Statement → Option FunctionBinding
  | .function declaration span => some ⟨declaration, span⟩
  | _ => none

def initialAnalyzer (source : String) : Analyzer :=
  let parsed := parseSource source
  let diagnostics := parsed.diagnostics.map fun diagnostic =>
    (⟨.typeMismatch, diagnostic.message, diagnostic.span⟩ : SemanticDiagnostic)
  installBrowserBuiltins { Analyzer.new with diagnostics }.pushScope

def collectTopLevelSymbols (body : List Statement) (s : Analyzer) : Analyzer :=
  body.foldl (fun s statement => collectStatementSymbol statement s) s

def collectedFunctions (source : String) : List FunctionBinding :=
  (collectTopLevelSymbols (parseSource source).program.body (initialAnalyzer source)).functions

theorem resolvedFunction_reports (declaration : FunctionDeclaration) (s : Analyzer) :
    Reports s (resolveOptionalType .undefined declaration.returnType
      (resolveParams declaration.params s).2).2 :=
  (resolveParams_reports declaration.params s).trans
    (resolveOptionalType_reports _ declaration.returnType _)

theorem collectStatementSymbol_functions (statement : Statement) (s : Analyzer) :
    (collectStatementSymbol statement s).functions =
      s.functions ++ (collectedFunction statement).toList := by
  fun_induction collectedFunction statement with
  | case1 declaration span =>
    rw [collectStatementSymbol]
    exact congrArg (fun functions => functions ++ [⟨declaration, span⟩])
      ((defineValue_advances _ _ _ _ _).functions.trans
        (resolvedFunction_reports declaration s).functions)
  | case2 inner span ih =>
    rw [collectStatementSymbol]
    exact ih
  | case3 statement hfunction hexport =>
    rw [Option.toList_none, List.append_nil]
    cases statement with
    | interface declaration span =>
      rw [collectStatementSymbol]
      exact ((Advances.of_reports (resolveTypeMembers_reports declaration.members s)).trans
        (defineType_advances _ _ _ _ _)).functions
    | typeAlias declaration span =>
      rw [collectStatementSymbol]
      exact ((Advances.of_reports (resolveTypeNode_reports declaration.ty s)).trans
        (defineType_advances _ _ _ _ _)).functions
    | «class» declaration span =>
      rw [collectStatementSymbol]
      exact ((Advances.of_reports (resolveClassMembers_reports declaration.members s)).trans
        (defineType_advances _ _ _ _ _)).functions
    | function declaration span => exact absurd rfl (hfunction declaration span)
    | «export» inner span => exact absurd rfl (hexport inner span)
    | _ => rfl

theorem collectTopLevelSymbols_functions (body : List Statement) (s : Analyzer) :
    (collectTopLevelSymbols body s).functions =
      s.functions ++ body.filterMap collectedFunction := by
  induction body generalizing s with
  | nil => exact (List.append_nil _).symm
  | cons statement body ih =>
    change (collectTopLevelSymbols body (collectStatementSymbol statement s)).functions = _
    rw [ih, collectStatementSymbol_functions, List.append_assoc, List.filterMap_cons]
    cases collectedFunction statement with
    | none => rfl
    | some binding => rfl

theorem collectedFunctions_eq (source : String) :
    collectedFunctions source = (parseSource source).program.body.filterMap collectedFunction :=
  collectTopLevelSymbols_functions _ _

/-- The global scope between two statements of the first pass: the functions that were
    collected, the last one first, and the console behind them. -/
structure Collected (global : Scope) (s : Analyzer) : Prop where
  scopes : s.valueScopes = [global]
  functions : ∀ entry ∈ global, entry.1 = "console" ∨
    ∃ params returnType, entry.2 = .function params returnType false
  names : s.diagnostics = [] → global.map Prod.fst =
    (s.functions.map fun binding => binding.declaration.name).reverse ++ ["console"]
  nodup : (global.map Prod.fst).Nodup

theorem lookup_isSome_iff {α : Type} (scope : List (String × α)) (name : String) :
    (scope.lookup name).isSome = true ↔ name ∈ scope.map Prod.fst := by
  induction scope with
  | nil => exact ⟨nofun, nofun⟩
  | cons entry scope ih =>
    obtain ⟨key, value⟩ := entry
    rw [List.lookup_cons, List.map_cons, List.mem_cons]
    by_cases hkey : name = key
    · simp [hkey]
    · rw [beq_false_of_ne hkey, ih]
      exact (or_iff_right hkey).symm

namespace Collected

variable {global : Scope} {s s' : Analyzer}

theorem of_reports (h : Collected global s) (hreports : Reports s s') : Collected global s' where
  scopes := hreports.valueScopes.trans h.scopes
  functions := h.functions
  names := fun hquiet => by
    rw [h.names (quiet_of_earlier hreports.diagnostics hquiet), hreports.functions]
  nodup := h.nodup

theorem defineType (h : Collected global s) (name : String) (ty : Ty) (kind : SymbolKind)
    (span : Span) : Collected global (s.defineType name ty kind span) := by
  unfold Analyzer.defineType
  split
  · exact h.of_reports (.diagnostic s _ _ _)
  · exact ⟨h.scopes, h.functions, h.names, h.nodup⟩

theorem defineFunction (h : Collected global s) (declaration : FunctionDeclaration)
    (params : List Ty) (returnType : Ty) (span : Span) :
    let t := s.defineValue declaration.name (.function params returnType false) .function
      (some span)
    ∃ global', Collected global' { t with functions := t.functions ++ [⟨declaration, span⟩] } := by
  intro t
  unfold t Analyzer.defineValue
  rw [h.scopes]
  dsimp only
  by_cases hdefined : (global.lookup declaration.name).isSome = true
  · rw [if_pos hdefined]
    refine ⟨global, h.scopes, h.functions, fun hquiet => ?_, h.nodup⟩
    exact absurd (List.append_eq_nil_iff.mp hquiet).2 (List.cons_ne_nil _ _)
  · rw [if_neg hdefined]
    refine ⟨(declaration.name, .function params returnType false) :: global, rfl, ?_, ?_, ?_⟩
    · intro entry hentry
      cases hentry with
      | head => exact .inr ⟨params, returnType, rfl⟩
      | tail _ hentry => exact h.functions entry hentry
    · intro hquiet
      have hnames := h.names hquiet
      rw [List.map_cons, hnames]
      simp
    · rw [List.map_cons, List.nodup_cons]
      exact ⟨fun hmem => hdefined ((lookup_isSome_iff global declaration.name).mpr hmem), h.nodup⟩

theorem collectStatementSymbol (h : Collected global s) (statement : Statement) :
    ∃ global', Collected global' (collectStatementSymbol statement s) := by
  fun_induction collectedFunction statement generalizing s with
  | case1 declaration span =>
    rw [Semantic.collectStatementSymbol]
    exact (h.of_reports (resolvedFunction_reports declaration s)).defineFunction declaration _ _ span
  | case2 inner span ih =>
    rw [Semantic.collectStatementSymbol]
    exact ih h
  | case3 statement hfunction hexport =>
    refine ⟨global, ?_⟩
    cases statement with
    | interface declaration span =>
      rw [Semantic.collectStatementSymbol]
      exact (h.of_reports (resolveTypeMembers_reports declaration.members s)).defineType _ _ _ _
    | typeAlias declaration span =>
      rw [Semantic.collectStatementSymbol]
      exact (h.of_reports (resolveTypeNode_reports declaration.ty s)).defineType _ _ _ _
    | «class» declaration span =>
      rw [Semantic.collectStatementSymbol]
      exact (h.of_reports (resolveClassMembers_reports declaration.members s)).defineType _ _ _ _
    | function declaration span => exact absurd rfl (hfunction declaration span)
    | «export» inner span => exact absurd rfl (hexport inner span)
    | _ => exact h

theorem collectTopLevelSymbols (h : Collected global s) (body : List Statement) :
    ∃ global', Collected global' (collectTopLevelSymbols body s) := by
  induction body generalizing global s with
  | nil => exact ⟨global, h⟩
  | cons statement body ih =>
    obtain ⟨global', h'⟩ := h.collectStatementSymbol statement
    exact ih h'

theorem initial (source : String) :
    Collected [("console", .object [("log", .function [] .undefined true)])]
      (initialAnalyzer source) where
  scopes := rfl
  functions := fun entry hentry => by
    rw [List.mem_singleton.mp hentry]
    exact .inl rfl
  names := fun _ => rfl
  nodup := List.nodup_singleton _

end Collected

section Order

variable (order : IterationOrder)

theorem analyzeFunctionBody_advances (binding : FunctionBinding) (s : Analyzer) :
    Advances s (analyzeFunctionBody order binding s) := by
  have hreturn := Advances.of_reports
    (resolveOptionalType_reports .undefined binding.declaration.returnType s)
  unfold analyzeFunctionBody
  dsimp only
  generalize (resolveOptionalType .undefined binding.declaration.returnType s).1 = returnType
  generalize (resolveOptionalType .undefined binding.declaration.returnType s).2 = t at hreturn ⊢
  have hpush : Advances t { t with currentReturnType := some returnType }.pushScope :=
    ⟨List.prefix_rfl, rfl⟩
  have hbody := ((hpush.trans (defineParams_advances binding.declaration.params _)).trans
    (analyzeStatements_advances order binding.declaration.body _)).trans (popScope_advances _)
  generalize (analyzeStatements order binding.declaration.body (defineParams
    binding.declaration.params
    { t with currentReturnType := some returnType }.pushScope)).popScope = u at hbody ⊢
  have hrestored : Advances t { u with currentReturnType := t.currentReturnType } :=
    ⟨hbody.diagnostics, hbody.functions⟩
  split
  · exact (hreturn.trans hrestored).trans (.of_reports (.diagnostic _ _ _ _))
  · exact hreturn.trans hrestored

theorem analyzeFunctionBodies_advances (bindings : List FunctionBinding) (s : Analyzer) :
    Advances s (bindings.foldl (fun s binding => analyzeFunctionBody order binding s) s) := by
  induction bindings generalizing s with
  | nil => exact .refl s
  | cons binding bindings ih => exact (analyzeFunctionBody_advances order binding s).trans (ih _)

theorem analyzeSource_collected (source : String) :
    (collectTopLevelSymbols (parseSource source).program.body
      (initialAnalyzer source)).diagnostics <+: (analyzeSource order source).diagnostics :=
  ((analyzeFunctionBodies_advances order _ _).trans
    (analyzeStatements_advances order _ _)).diagnostics

theorem collected_nodup {source : String} (h : (analyzeSource order source).diagnostics = []) :
    ((collectedFunctions source).map fun binding => binding.declaration.name).Nodup := by
  obtain ⟨global, hglobal⟩ := (Collected.initial source).collectTopLevelSymbols
    (parseSource source).program.body
  have hquiet : (collectTopLevelSymbols (parseSource source).program.body
      (initialAnalyzer source)).diagnostics = [] :=
    List.prefix_nil.mp (h ▸ analyzeSource_collected order source)
  have hnodup := hglobal.nodup
  rw [hglobal.names hquiet] at hnodup
  exact List.nodup_reverse.mp (List.nodup_append.mp hnodup).1

end Order

/-- The place in the function table that a name selects. -/
def selected (m : BytecodeModule) (name : String) : Option ℕ :=
  (m.functions.map BytecodeFunction.name).idxOf? name

theorem findFunction_of_selected {m : BytecodeModule} {name : String} {i : ℕ}
    (h : selected m name = some i) : ∃ function, m.functions[i]? = some function ∧
      function.name = name ∧ findFunction m name = .ok function := by
  have hselected : m.functions.findIdx? (fun function => function.name == name) = some i := by
    rw [selected, List.idxOf?, List.findIdx?_map] at h
    exact h
  obtain ⟨hi, hname, _⟩ := List.findIdx?_eq_some_iff_getElem.mp hselected
  refine ⟨m.functions[i], List.getElem?_eq_getElem hi, eq_of_beq hname, ?_⟩
  unfold findFunction
  rw [List.find?_eq_bind_findIdx?_getElem?, hselected, Option.bind_some, List.getElem?_eq_getElem hi]

theorem idxOf?_of_nodup {names rest : List String} (hnames : names.Nodup) {i : ℕ} {name : String}
    (h : names[i]? = some name) : (names ++ rest).idxOf? name = some i := by
  obtain ⟨hi, hname⟩ := List.getElem?_eq_some_iff.mp h
  rw [List.idxOf?_eq_some_iff]
  refine ⟨by rw [List.length_append]; omega, ?_, fun j hj => ?_⟩
  · rw [List.getElem_append_left hi, hname]
  · have hlt : j < names.length := by omega
    rw [List.getElem_append_left hlt, ← hname]
    intro heq
    have hindex : j = i := hnames.getElem_inj_iff.mp heq
    omega

theorem lowerFunction_signature (declaration : FunctionDeclaration) (span : Span) :
    (lowerFunction declaration span).name = declaration.name ∧
      (lowerFunction declaration span).params.map IrParam.name =
        declaration.params.map Parameter.name := by
  have hsignature := LoweringBlocks.lowerStatements_signature declaration.body
    (.new declaration.name
      (declaration.params.map fun param => ⟨param.name, (param.ty.map typeFromNode).getD .unknown⟩)
      ((declaration.returnType.map typeFromNode).getD .undefined) span)
  exact ⟨congrArg Prod.fst hsignature, (congrArg (List.map IrParam.name)
    (congrArg Prod.snd hsignature)).trans List.map_map⟩

theorem lowerProgram_functions (program : Program) :
    (lowerProgram program).functions = (program.body.filterMap plainFunction).map
      fun binding => lowerFunction binding.declaration binding.statementSpan := by
  rw [List.map_filterMap]
  refine List.filterMap_congr fun statement _ => ?_
  cases statement with
  | _ => rfl

theorem lowerProgram_entry_name (program : Program) :
    (lowerProgram program).entry.name = "__entry" :=
  congrArg Prod.fst (LoweringBlocks.lowerStatements_signature
    (program.body.filter isEntryStatement) (.new "__entry" [] .undefined _))

theorem compileFunctions_names (functions : List IrFunction) (s : Compiler) :
    (compileFunctions functions s).1.map BytecodeFunction.name =
      functions.map IrFunction.name := by
  induction functions generalizing s with
  | nil => rfl
  | cons function functions ih =>
    change function.name :: _ = function.name :: _
    rw [ih]

def plainNames (program : Program) : List String :=
  (program.body.filterMap plainFunction).map fun binding => binding.declaration.name

theorem lowerProgram_names (program : Program) :
    (lowerProgram program).functions.map IrFunction.name = plainNames program := by
  rw [lowerProgram_functions, List.map_map, plainNames]
  exact List.map_congr_left fun binding _ => (lowerFunction_signature _ _).1

theorem compile_names (program : Program) :
    (compile (lowerProgram program)).functions.map BytecodeFunction.name =
      plainNames program ++ ["__entry"] := by
  have hnames := compileFunctions_names
    ((lowerProgram program).functions ++ [(lowerProgram program).entry]) .new
  rw [List.map_append, List.map_singleton, lowerProgram_names, lowerProgram_entry_name] at hnames
  exact hnames

theorem lowerSource_ir_iff {order : IterationOrder} {source : String} {ir : IrProgram} :
    (lowerSource order source).ir = some ir ↔ (analyzeSource order source).diagnostics = [] ∧
      ir = lowerProgram (parseSource source).program := by
  unfold lowerSource
  by_cases hquiet : (analyzeSource order source).diagnostics = []
  · simp [hquiet, eq_comm]
  · simp [hquiet]

structure LoweredFrom (binding : FunctionBinding) (function : IrFunction) : Prop where
  name : function.name = binding.declaration.name
  params : function.params.map IrParam.name = binding.declaration.params.map Parameter.name
  body : function = lowerFunction binding.declaration binding.statementSpan

/-- The functions of the analyzer are those of the lowered program, and a call of one of
    them finds it in the function table. -/
structure Agree (functions : List FunctionBinding) (ir : IrProgram) : Prop where
  lowered : List.Forall₂ LoweredFrom functions ir.functions
  found : ∀ i binding, functions[i]? = some binding →
    selected (compile ir) binding.declaration.name = some i ∧
      ∃ function, (compile ir).functions[i]? = some function ∧
        findFunction (compile ir) binding.declaration.name = .ok function

/-- No `export` of the top level is one of a function. -/
def ExportsNoFunction (program : Program) : Prop :=
  ∀ inner span, .export inner span ∈ program.body → collectedFunction inner = none

theorem loweredFrom (binding : FunctionBinding) :
    LoweredFrom binding (lowerFunction binding.declaration binding.statementSpan) :=
  ⟨(lowerFunction_signature _ _).1, (lowerFunction_signature _ _).2, rfl⟩

theorem lowered_names {functions : List FunctionBinding} {lowered : List IrFunction}
    (h : List.Forall₂ LoweredFrom functions lowered) :
    lowered.map IrFunction.name = functions.map fun binding => binding.declaration.name := by
  induction h with
  | nil => rfl
  | cons hfrom _ ih => rw [List.map_cons, List.map_cons, hfrom.name, ih]

theorem collected_distinct {body : List Statement} {first second : Statement}
    (hnodup : ((body.filterMap collectedFunction).map fun b => b.declaration.name).Nodup)
    (hfirst : first ∈ body) (hsecond : second ∈ body) (hne : first ≠ second)
    {a b : FunctionBinding} (ha : collectedFunction first = some a)
    (hb : collectedFunction second = some b) : a.declaration.name ≠ b.declaration.name := by
  rw [List.Nodup, List.pairwise_map, List.pairwise_filterMap] at hnodup
  have : Std.Symm fun first second : Statement => ∀ a, collectedFunction first = some a →
      ∀ b, collectedFunction second = some b → a.declaration.name ≠ b.declaration.name :=
    ⟨fun _ _ h a ha b hb => (h b hb a ha).symm⟩
  exact hnodup.forall hfirst hsecond hne a ha b hb

theorem mem_plainFunction {body : List Statement} {a : FunctionBinding}
    (ha : a ∈ body.filterMap plainFunction) :
    .function a.declaration a.statementSpan ∈ body := by
  obtain ⟨statement, hmem, hstatement⟩ := List.mem_filterMap.mp ha
  cases statement with
  | function declaration span =>
    cases hstatement
    exact hmem
  | _ => cases hstatement

theorem exported_not_plain {program : Program}
    (hnodup : ((program.body.filterMap collectedFunction).map fun b => b.declaration.name).Nodup)
    {inner : Statement} {span : Span} (hexport : .export inner span ∈ program.body)
    {binding : FunctionBinding} (hbinding : collectedFunction inner = some binding) :
    binding.declaration.name ∉ plainNames program := by
  intro hmem
  obtain ⟨plain, hplain, hname⟩ := List.mem_map.mp hmem
  exact collected_distinct hnodup (mem_plainFunction hplain) hexport nofun rfl hbinding hname

theorem plainFunction_eq {program : Program} (h : ExportsNoFunction program) :
    program.body.filterMap plainFunction = program.body.filterMap collectedFunction := by
  refine List.filterMap_congr fun statement hmem => ?_
  cases statement with
  | «export» inner span => exact (h inner span hmem).symm
  | _ => rfl

theorem agree_of_exportsNoFunction {program : Program} (h : ExportsNoFunction program)
    (hnodup : ((program.body.filterMap collectedFunction).map fun b => b.declaration.name).Nodup) :
    Agree (program.body.filterMap collectedFunction) (lowerProgram program) where
  lowered := by
    rw [lowerProgram_functions, plainFunction_eq h, List.forall₂_map_right_iff]
    exact List.forall₂_same.mpr fun binding _ => loweredFrom binding
  found := by
    intro i binding hbinding
    have hselected : selected (compile (lowerProgram program)) binding.declaration.name = some i := by
      rw [selected, compile_names, plainNames, plainFunction_eq h]
      refine idxOf?_of_nodup hnodup ?_
      rw [List.getElem?_map, hbinding]
      rfl
    obtain ⟨function, hfunction, _, hfound⟩ := findFunction_of_selected hselected
    exact ⟨hselected, function, hfunction, hfound⟩

/-- The functions the analyzer of a source without diagnostics has collected are the
    lowered ones exactly when none of them is exported. -/
theorem lowerSource_agree_iff (order : IterationOrder) (source : String) {ir : IrProgram}
    (h : (lowerSource order source).ir = some ir) :
    Agree (collectedFunctions source) ir ↔ ExportsNoFunction (parseSource source).program := by
  obtain ⟨hquiet, rfl⟩ := lowerSource_ir_iff.mp h
  have hnodup := collected_nodup order hquiet
  rw [collectedFunctions_eq] at hnodup ⊢
  constructor
  · intro hagree inner span hexport
    cases hcollected : collectedFunction inner with
    | none => rfl
    | some binding =>
      have hmem : binding ∈ (parseSource source).program.body.filterMap collectedFunction :=
        List.mem_filterMap.mpr ⟨_, hexport, hcollected⟩
      have hname : binding.declaration.name ∈ plainNames (parseSource source).program := by
        rw [← lowerProgram_names, lowered_names hagree.lowered]
        exact List.mem_map.mpr ⟨binding, hmem, rfl⟩
      exact absurd hname (exported_not_plain hnodup hexport hcollected)
  · exact fun hexports => agree_of_exportsNoFunction hexports hnodup

theorem plainSource_agree :
    let source := "function f(n: number): number { return n; } console.log(f(1));"
    Agree (collectedFunctions source) (lowerProgram (parseSource source).program) ↔
      ExportsNoFunction (parseSource source).program :=
  lowerSource_agree_iff .listed _ (lowerSource_ir_iff.mpr ⟨by decide +kernel, rfl⟩)

/-- An exported function is called, and the function table does not have it. -/
theorem exportedSource_disagrees :
    let source := "export function f(): number { return 1; } console.log(f());"
    let ir := lowerProgram (parseSource source).program
    (lowerSource .listed source).ir = some ir ∧ ¬ Agree (collectedFunctions source) ir ∧
      (collectedFunctions source).map (fun binding => binding.declaration.name) = ["f"] ∧
      ir.functions = [] ∧
      findFunction (compile ir) "f" = .error (.runtime (.unknownFunction "f")) := by
  refine ⟨lowerSource_ir_iff.mpr ⟨by decide +kernel, rfl⟩, fun hagree => ?_, by decide +kernel,
    by decide +kernel, by decide +kernel⟩
  have hnames := lowered_names hagree.lowered
  revert hnames
  decide +kernel

theorem collectedFunction_of_plain {statement : Statement} {binding : FunctionBinding}
    (h : plainFunction statement = some binding) : collectedFunction statement = some binding := by
  cases statement with
  | function declaration span => exact h
  | _ => cases h

end Tsvm.TopLevelFunctions
