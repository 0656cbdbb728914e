import Tsvm.BundledPrograms
import Tsvm.MeaningPreservation
import Tsvm.RelocatedChecks

set_option autoImplicit false

/-!
# The meaning of a module graph

A module graph is executed through the text of its bundle. What comes out is what the
syntax trees of the modules mean, one behind the other in the order of the graph, with one
table of functions and one environment for all of them.
-/
namespace Tsvm.LinkedPrograms
open Ast Bytecode BytecodeVerifier BytecodeVerifierFacts Interop Lowering Compilation RuntimeValues
  Interpreter
open Lexing Modules Parsing Pipeline Semantic SourceMeaning ExpressionRuns MeaningPreservation
  TopLevelFunctions
  CompiledOperands Grammar RelocatedChecks StatementSlices BundledPrograms
open FailState (SameEnds)

variable {ν : Type}

section Relocation

variable [F64 ν] {φ : Position → Position} {call : Call ν}

theorem calleeName_relocate : ∀ expression : Expression,
    calleeName (expression.relocate φ) = calleeName expression
  | .member object property span => by
    rw [Expression.relocate, calleeName, calleeName, calleeName_relocate object]
  | .identifier _ _ | .number _ _ | .string _ _ | .boolean _ _ | .null _ | .undefined _
  | .object _ _ | .array _ _ | .call _ _ _ | .unary _ _ _ | .binary _ _ _ _
  | .assignment _ _ _ _ | .error _ => by rfl

mutual

theorem evaluate_relocate : ∀ (expression : Expression) (env : Environment ν),
    evaluate call (expression.relocate φ) env = evaluate call expression env
  | .object properties span, env => by
    rw [Expression.relocate, evaluate, evaluate, evaluateProperties_relocate properties]
  | .array elements span, env => by
    rw [Expression.relocate, evaluate, evaluate, evaluateAll_relocate elements]
  | .member object property span, env => by
    rw [Expression.relocate, evaluate, evaluate, evaluate_relocate object]
  | .call callee arguments span, env => by
    rw [Expression.relocate, evaluate, evaluate, evaluateAll_relocate arguments,
      calleeName_relocate callee]
  | .binary left operator right span, env => by
    rw [Expression.relocate, evaluate, evaluate, evaluate_relocate left]
    simp only [evaluate_relocate right]
  | .assignment left operator right span, env => by
    cases left with
    | identifier name leftSpan =>
      simp only [Expression.relocate, evaluate]
      rw [evaluate_relocate right]
    | member object property leftSpan =>
      simp only [Expression.relocate, evaluate]
      rw [evaluate_relocate object]
      simp only [evaluate_relocate right]
    | _ =>
      simp only [Expression.relocate, evaluate]
      exact evaluate_relocate right env
  | .unary operator argument span, env => by
    rw [Expression.relocate, evaluate, evaluate, evaluate_relocate argument]
  | .identifier _ _, _ | .number _ _, _ | .string _ _, _ | .boolean _ _, _ | .null _, _
  | .undefined _, _ | .error _, _ => by rfl

theorem evaluateAll_relocate : ∀ (expressions : List Expression) (env : Environment ν),
    evaluateAll call (relocateExpressions φ expressions) env = evaluateAll call expressions env
  | [], _ => rfl
  | expression :: expressions, env => by
    rw [relocateExpressions, evaluateAll, evaluateAll, evaluate_relocate expression]
    simp only [evaluateAll_relocate expressions]

theorem evaluateProperties_relocate : ∀ (properties : List ObjectProperty) (env : Environment ν),
    evaluateProperties call (relocateProperties φ properties) env =
      evaluateProperties call properties env
  | [], _ => rfl
  | .mk name value span :: properties, env => by
    rw [relocateProperties, ObjectProperty.relocate, evaluateProperties, evaluateProperties,
      evaluate_relocate value]
    simp only [evaluateProperties_relocate properties]

end

mutual

theorem evaluateStatement_relocate : ∀ (statement : Statement) (env : Environment ν),
    evaluateStatement call (statement.relocate φ) env = evaluateStatement call statement env
  | .variable declaration span, env => by
    obtain ⟨kind, name, ty, initializer⟩ := declaration
    rw [Statement.relocate, evaluateStatement, evaluateStatement, evaluateVariable,
      evaluateVariable, VariableDeclaration.relocate]
    cases initializer with
    | none => rfl
    | some expression => simp only [Option.map_some, evaluate_relocate expression]
  | .return value span, env => by
    rw [Statement.relocate, evaluateStatement, evaluateStatement]
    cases value with
    | none => rfl
    | some expression =>
      simp only [Option.map_some, evaluateReturn, evaluate_relocate expression]
  | .expression value span, env | .throw value span, env => by
    rw [Statement.relocate, evaluateStatement, evaluateStatement, evaluate_relocate value]
  | .if test consequent alternate span, env => by
    rw [Statement.relocate, evaluateStatement, evaluateStatement, evaluate_relocate test]
    simp only [evaluateStatement_relocate consequent, evaluateAlternate_relocate alternate]
  | .block body span, env => by
    rw [Statement.relocate, evaluateStatement, evaluateStatement, evaluateStatements_relocate body]
  | .export inner span, env => by
    rw [Statement.relocate, evaluateStatement, evaluateStatement, evaluateStatement_relocate inner]
  | .interface _ _, _ | .typeAlias _ _, _ | .class _ _, _ | .function _ _, _ | .import _ _, _
  | .empty _, _ | .error _, _ | .while _ _ _, _ | .for _ _ _ _ _, _ => by
    simp only [Statement.relocate, evaluateStatement]

theorem evaluateAlternate_relocate : ∀ (alternate : Option Statement) (env : Environment ν),
    evaluateAlternate call (relocateOption φ alternate) env = evaluateAlternate call alternate env
  | some statement, env => by
    rw [relocateOption, evaluateAlternate, evaluateAlternate, evaluateStatement_relocate statement]
  | none, _ => rfl

theorem evaluateStatements_relocate : ∀ (statements : List Statement) (env : Environment ν),
    evaluateStatements call (relocateStatements φ statements) env =
      evaluateStatements call statements env
  | [], _ => rfl
  | statement :: statements, env => by
    rw [relocateStatements, evaluateStatements, evaluateStatements,
      evaluateStatement_relocate statement]
    simp only [evaluateStatements_relocate statements]

end

def relocateFunction (φ : Position → Position) (function : SourceFunction) :
    SourceFunction := { function with body := relocateStatements φ function.body }

theorem evaluateBody_relocate (function : SourceFunction) (args : List (RuntimeValue ν)) :
    evaluateBody call (relocateFunction φ function) args = evaluateBody call function args := by
  rw [evaluateBody, evaluateBody, relocateFunction]
  dsimp only
  rw [evaluateStatements_relocate]

end Relocation

section Programs

variable {φ : Position → Position}

theorem isEntryStatement_relocate (statement : Statement) :
    isEntryStatement (statement.relocate φ) = isEntryStatement statement := by
  cases statement <;> simp only [Statement.relocate, isEntryStatement]

theorem plainFunction_relocate (statement : Statement) :
    (plainFunction (statement.relocate φ)).map (fun binding =>
        (⟨binding.declaration.name, binding.declaration.params.map Parameter.name,
          binding.declaration.body⟩ : SourceFunction)) =
      ((plainFunction statement).map fun binding =>
        (⟨binding.declaration.name, binding.declaration.params.map Parameter.name,
          binding.declaration.body⟩ : SourceFunction)).map (relocateFunction φ) := by
  cases statement with
  | function declaration span =>
    obtain ⟨name, params, returnType, body⟩ := declaration
    simp only [Statement.relocate, plainFunction, Option.map_some, relocateFunction,
      List.map_map]
    rfl
  | _ => simp only [Statement.relocate, plainFunction, Option.map_none]

theorem sourceFunctions_relocate (body : List Statement) (span span' : Option Span) :
    sourceFunctions ⟨body.map (Statement.relocate φ), span'⟩ =
      (sourceFunctions ⟨body, span⟩).map (relocateFunction φ) := by
  unfold sourceFunctions
  dsimp only
  rw [List.map_append, List.map_filterMap, List.filterMap_map, List.map_filterMap,
    List.map_filterMap]
  congr 1
  · refine List.filterMap_congr fun statement _ => ?_
    exact plainFunction_relocate statement
  · rw [List.map_singleton, relocateFunction, relocateStatements_eq_map, List.filter_map]
    congr 3
    refine List.filter_congr fun statement _ => ?_
    exact isEntryStatement_relocate statement

theorem findSource_relocate (body : List Statement) (span span' : Option Span) (name : String) :
    findSource ⟨body.map (Statement.relocate φ), span'⟩ name =
      (findSource ⟨body, span⟩ name).map (relocateFunction φ) := by
  rw [findSource, findSource, sourceFunctions_relocate body span span', List.find?_map]
  have hsame : ((fun function : SourceFunction => function.name == name) ∘
      relocateFunction φ) = fun function => function.name == name := rfl
  rw [hsame]
  cases (sourceFunctions ⟨body, span⟩).find? fun function => function.name == name <;> rfl

variable [F64 ν] {host : HostEnvironment ν}

theorem evaluateCall_relocate (body : List Statement) (span span' : Option Span) (fuel : ℕ) :
    evaluateCall ⟨body.map (Statement.relocate φ), span'⟩ host fuel =
      evaluateCall ⟨body, span⟩ host fuel := by
  induction fuel with
  | zero => rfl
  | succ fuel ih =>
    funext name args
    rw [evaluateCall, evaluateCall, ih, findSource_relocate body span span']
    by_cases hconsole : name = "console.log"
    · rw [if_pos hconsole, if_pos hconsole]
    · rw [if_neg hconsole, if_neg hconsole]
      congr 1
      funext answer
      cases answer with
      | some result => rfl
      | none =>
        cases findSource ⟨body, span⟩ name with
        | error e => rfl
        | ok function => exact evaluateBody_relocate function args

theorem evaluateCall_same {program program' : Program}
    (h : program.body.map (Statement.relocate Grammar.erase) =
      program'.body.map (Statement.relocate Grammar.erase)) (fuel : ℕ) :
    evaluateCall program host fuel = evaluateCall program' host fuel := by
  have hleft : evaluateCall ⟨program.body.map (Statement.relocate Grammar.erase), none⟩ host fuel =
      evaluateCall program host fuel := evaluateCall_relocate program.body program.span none fuel
  have hright : evaluateCall ⟨program'.body.map (Statement.relocate Grammar.erase), none⟩ host
      fuel = evaluateCall program' host fuel :=
    evaluateCall_relocate program'.body program'.span none fuel
  rw [h] at hleft
  exact hleft.symm.trans hright

end Programs

/-- The statements of the modules in their order, without the imports and the keyword of the
    exports. -/
def linkedProgram (sources : Sources) (graph : ModuleGraph) : Program :=
  ⟨(copies sources graph.modules).map Prod.snd, none⟩

/-- What a module does when it is executed. -/
def moduleEntry (sources : Sources) (record : ModuleRecord) : List Statement :=
  ((moduleCopies sources record).map Prod.snd).filter isEntryStatement

section Modules

variable [F64 ν] (call : Call ν)

def evaluateModules (sources : Sources) :
    List ModuleRecord → Environment ν → Run ν (Outcome ν)
  | [], env => pure (.continue env)
  | record :: modules, env => do
    match ← evaluateStatements call (moduleEntry sources record) env with
    | .continue env => evaluateModules sources modules env
    | .return value => pure (.return value)

theorem evaluateStatements_append (first second : List Statement) (env : Environment ν) :
    evaluateStatements call (first ++ second) env =
      (evaluateStatements call first env >>= fun outcome =>
        match outcome with
        | .continue env => evaluateStatements call second env
        | .return value => pure (.return value)) := by
  induction first generalizing env with
  | nil => rfl
  | cons statement first ih =>
    rw [List.cons_append, evaluateStatements, evaluateStatements, bind_assoc]
    congr 1
    funext outcome
    cases outcome with
    | «continue» env => exact ih env
    | «return» value => rfl

theorem evaluateModules_eq (sources : Sources) (modules : List ModuleRecord)
    (env : Environment ν) :
    evaluateStatements call (((copies sources modules).map Prod.snd).filter isEntryStatement) env =
      evaluateModules call sources modules env := by
  induction modules generalizing env with
  | nil => rfl
  | cons record modules ih =>
    rw [copies, List.flatMap_cons, List.map_append, List.filter_append, evaluateStatements_append,
      evaluateModules]
    congr 1
    funext outcome
    cases outcome with
    | «continue» env => exact ih env
    | «return» value => rfl

end Modules

theorem preserves_of_linesApart {entry : String} {sources : Sources} {graph : ModuleGraph}
    (h : bundleModuleGraph entry sources = .ok graph) (hkept : SpansKept sources graph)
    (hapart : LinesApart sources graph) : Preserves sources graph := by
  have hknown := copies_known h (hkept.slicesParse h)
  have htext : graph.bundledSource.toList =
      linesText ((copies sources graph.modules).map Copy.line) := by
    rw [bundledSource_eq h, bundle_text hknown]
  have hspelled : ∀ line ∈ (copies sources graph.modules).map Copy.line, line.Spelled := by
    intro line hline
    obtain ⟨copy, hcopy, rfl⟩ := List.mem_map.mp hline
    exact (hknown copy hcopy).spelled
  have herased : (((copies sources graph.modules).map Copy.line).map Prod.snd).map Piece.erase =
      ((copies sources graph.modules).map Copy.piece).map Piece.erase := by
    rw [List.map_map, List.map_map, List.map_map]
    exact List.map_congr_left fun copy hcopy => (hknown copy hcopy).erased
  obtain ⟨hclean, hbody⟩ := (parseSource_iff_pieces htext hspelled).mpr (by
    rw [← isChain_erase, herased, isChain_erase]
    exact hapart)
  refine ⟨hclean, hbody.trans ?_⟩
  have hsecond := congrArg (List.map Prod.snd) herased
  rw [List.map_map, List.map_map, List.map_map, List.map_map, List.map_map] at hsecond
  rw [List.map_map]
  exact hsecond

instance (w : List Token) : Decidable (Open w) :=
  decidable_of_iff ((w.getLast?.all fun token => !isSemicolon token.kind) = true) <| by
    rw [Open, Option.all_eq_true]
    simp only [Bool.not_eq_true']

instance (next : Next) : Decidable (EndsExpression next) :=
  decidable_of_iff (next ≠ some .dot ∧ next ≠ some .leftParen ∧
    next.bind assignmentOperator = none ∧ next.bind binaryOperator = none)
    ⟨fun h => ⟨h.1, h.2.1, h.2.2.1, h.2.2.2⟩,
      fun h => ⟨h.dot, h.leftParen, h.assignment, h.binary⟩⟩

instance : (ending : Ending) → (next : Next) → Decidable (ending.Stops next)
  | .expression, _ => inferInstanceAs (Decidable (_ ∧ _))
  | .type, _ => inferInstanceAs (Decidable (_ ∧ _ ∧ _))
  | .name, _ => inferInstanceAs (Decidable (_ ∧ _ ∧ _))
  | .closed, _ => inferInstanceAs (Decidable True)

instance (piece piece' : Piece) : Decidable (piece.Apart piece') :=
  inferInstanceAs (Decidable (_ ∨ _))

instance (sources : Sources) (graph : ModuleGraph) : Decidable (LinesApart sources graph) :=
  inferInstanceAs (Decidable (List.IsChain _ _))

section Execution

variable [F64 ν] (order : IterationOrder) (entry : String) (sources : Sources)

/-- `execute_module_graph`. -/
def executeModuleGraph (fuel : ℕ) : Except Stop (ExecutionOutput ν) :=
  match bundleModuleGraph entry sources with
  | .error diagnostics => .error (.error (.module diagnostics))
  | .ok graph => executeSourceWithHost .new order graph.bundledSource fuel

/-- The graph is executed as its modules are written. -/
structure RunsModules (graph : ModuleGraph) (prepared : PreparedModule) : Prop where
  /-- What a host can do with the bundle it can do with the linked program. -/
  meaning : ∀ host : HostEnvironment ν, PreservesMeaning (linkedProgram sources graph) prepared host
  inOrder : ∀ (call : Call ν) (env : Environment ν),
    evaluateStatements call ((linkedProgram sources graph).body.filter isEntryStatement) env =
      evaluateModules call sources graph.modules env
  runs : ∀ result : Except Stop (ExecutionOutput ν), result ≠ .error .outOfFuel →
    ((∃ fuel, executeModuleGraph order entry sources fuel = result) ↔
      ∃ fuel, (evaluateProgram (linkedProgram sources graph) .new fuel .new).1 = result)

/-- A graph whose bundle is prepared means what its modules mean one behind the other. -/
theorem executeModuleGraph_runsModules {graph : ModuleGraph} {prepared : PreparedModule}
    (h : bundleModuleGraph entry sources = .ok graph) (hkept : SpansKept sources graph)
    (hapart : LinesApart sources graph)
    (hprepared : PreparedModule.fromSource order graph.bundledSource = .ok prepared)
    (hsize : irSize (lowerProgram (parseSource graph.bundledSource).program) < 2 ^ 32) :
    RunsModules (ν := ν) order entry sources graph prepared := by
  have hpreserves := preserves_of_linesApart h hkept hapart
  have hmatches : Matches ν (parseSource graph.bundledSource).program prepared.module :=
    fromSource_matches order graph.bundledSource hprepared hsize
  have hmeaning (host : HostEnvironment ν) :
      PreservesMeaning (linkedProgram sources graph) prepared host := by
    refine .of_calls fun name args => ?_
    have hsame (fuel : ℕ) : evaluateCall (parseSource graph.bundledSource).program host fuel =
        evaluateCall (linkedProgram sources graph) host fuel := by
      refine evaluateCall_same (hpreserves.2.trans ?_) fuel
      rw [linkedProgram, List.map_map]
      rfl
    simp only [← hsame]
    exact calls_sameEnds hmatches name args
  refine ⟨hmeaning, fun call env => evaluateModules_eq call sources graph.modules env,
    fun result hresult => ?_⟩
  rw [← (hmeaning .new).runs result hresult]
  have hexecute (fuel : ℕ) : executeModuleGraph order entry sources fuel =
      prepared.executeWithHost (.new : HostEnvironment ν) fuel := by
    rw [executeModuleGraph, h]
    dsimp only
    rw [executeSourceWithHost, hprepared]
    rfl
  simp only [hexecute]

end Execution

def ratios : Sources := .ofList [
  ("/main.ts", "import { half } from './half.ts'; import { third } from './lib/third.ts';
console.log(half(12) + third(12));"),
  ("/lib/third.ts", "import { half } from '../half.ts';
export function third(x: number): number { return x / 3; }
console.log(half(third(30)));"),
  ("/half.ts", "export function half(x: number): number { return x / 2; } console.log(1);")]

theorem ratios_runsModules : ∃ graph prepared, graph.modules.length = 3 ∧
    bundleModuleGraph "main.ts" ratios = .ok graph ∧
      RunsModules (ν := Int) .listed "main.ts" ratios graph prepared := by
  have hcomputed : ((bundleModuleGraph "main.ts" ratios).toOption.map fun graph =>
      (graph.modules.length, decide (SpansKept ratios graph),
        decide (LinesApart ratios graph),
        (analyzeSource .listed graph.bundledSource).diagnostics.isEmpty,
        (verify (compile (lowerProgram (parseSource graph.bundledSource).program))).isEmpty,
        decide (irSize (lowerProgram (parseSource graph.bundledSource).program) < 2 ^ 32))) =
      some (3, true, true, true, true, true) := by decide +kernel
  cases hbundle : bundleModuleGraph "main.ts" ratios with
  | error diagnostics =>
    rw [hbundle] at hcomputed
    cases hcomputed
  | ok graph =>
    rw [hbundle] at hcomputed
    have hall := Option.some_inj.mp hcomputed
    simp only [Prod.mk.injEq, decide_eq_true_eq, List.isEmpty_iff] at hall
    obtain ⟨hlength, hkept, hapart, hquiet, hverified, hsize⟩ := hall
    obtain ⟨prepared, hprepared⟩ := fromSource_of_accepted .listed
      (List.isEmpty_iff.mpr hquiet) ((accepted_iff _).mpr hverified)
    exact ⟨graph, prepared, hlength, rfl, executeModuleGraph_runsModules .listed "main.ts" ratios
      hbundle hkept hapart hprepared hsize⟩

end Tsvm.LinkedPrograms
