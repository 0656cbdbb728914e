import Tsvm.ModuleOrder
import Tsvm.ScriptLoader

set_option autoImplicit false

/-!
# What a page reads of its resources

The search for modules looks a source up when an import leads to it, and nothing else is
ever looked up. Resources that agree on the modules the scripts of a page lead to cannot be
told apart by the page, whatever else there is and however many there are.
-/
namespace Tsvm.ModuleReach
open Ast Interop Interpreter Modules ModuleOrder Parsing PreparationCache RuntimeValues ScriptLoader
open Semantic
open Relation (ReflTransGen)

section Search

theorem visitBody_congr {visit visit' : String → GraphBuilder → Option GraphBuilder}
    {body : List Statement} {record : ModuleRecord} {s : GraphBuilder}
    (hvisit : ∀ target, TargetOf record.specifier body target →
      ∀ s, visit' target s = visit target s) :
    visitBody visit' body record s = visitBody visit body record s := by
  induction body generalizing record s with
  | nil => rfl
  | cons statement body ih =>
    have hrest (target : String) (htarget : TargetOf record.specifier body target)
        (s : GraphBuilder) : visit' target s = visit target s := by
      obtain ⟨declaration, span, hmem, hresolve⟩ := htarget
      exact hvisit target ⟨declaration, span, List.mem_cons_of_mem _ hmem, hresolve⟩ s
    cases statement with
    | «import» declaration span =>
      rw [visitBody, visitBody]
      cases hresolve : resolveImport record.specifier declaration with
      | error message =>
        dsimp only
        exact ih hrest
      | ok resolved =>
        dsimp only
        rw [hvisit resolved ⟨declaration, span, List.mem_cons_self, hresolve⟩]
        cases visit resolved s with
        | none => rfl
        | some t => exact ih hrest
    | «export» inner span => exact ih hrest
    | _ => exact ih hrest

variable {sources sources' : Sources} {reached : String → Prop}

theorem visit_congr (hclosed : ∀ a b, reached a → Imports sources a b → reached b)
    (hagree : ∀ module, reached module → sources'[module]? = sources[module]?) (depth : ℕ)
    {module : String} (hmodule : reached module) (s : GraphBuilder) :
    visit sources' depth module s = visit sources depth module s := by
  induction depth generalizing module s with
  | zero => rfl
  | succ depth ih =>
    rw [visit, visit, hagree module hmodule]
    cases hstate : s.states[module]? with
    | some state => cases state <;> rfl
    | none =>
      cases hsource : sources[module]? with
      | none => rfl
      | some source =>
        dsimp only
        rw [visitBody_congr]
        intro target htarget t
        exact ih (hclosed module target hmodule ⟨source, hsource, htarget⟩) t

theorem search_congr (hclosed : ∀ a b, reached a → Imports sources a b → reached b)
    (hagree : ∀ module, reached module → sources'[module]? = sources[module]?)
    {entry : String} (hentry : reached entry) : search sources' entry = search sources entry := by
  have hvisit := visit_mono_of_le (Nat.le_max_left (sources.size + 1) (sources'.size + 1))
    (visit_search sources entry)
  have hvisit' := visit_mono_of_le (Nat.le_max_right (sources.size + 1) (sources'.size + 1))
    (visit_search sources' entry)
  rw [visit_congr hclosed hagree _ hentry, hvisit] at hvisit'
  exact (Option.some.inj hvisit').symm

/-- The bundle is made of the modules that the entry reaches. -/
theorem bundleModuleGraph_congr {entry : String}
    (hagree : ∀ module, ReflTransGen (Imports sources) (normalizeEntry entry) module →
      sources'[module]? = sources[module]?) :
    bundleModuleGraph entry sources' = bundleModuleGraph entry sources := by
  have hsearch : search sources' (normalizeEntry entry) = search sources (normalizeEntry entry) :=
    search_congr (fun _ _ hreached himports => hreached.tail himports) hagree .refl
  unfold bundleModuleGraph
  dsimp only
  rw [hsearch]
  by_cases hclean : (search sources (normalizeEntry entry)).diagnostics.isEmpty = true
  · rw [if_pos hclean, if_pos hclean]
    have hprogress := visit_progress (visit_search sources (normalizeEntry entry))
      (List.isEmpty_iff.mp hclean) (good_new sources)
    have horder := Good.dependencyOrder hprogress ""
    have hbundle (modules : List ModuleRecord) (h : ∀ record ∈ modules,
        ReflTransGen (Imports sources) (normalizeEntry entry) record.specifier) :
        bundle sources' modules = bundle sources modules := by
      unfold bundle
      refine congrArg String.join (List.map_congr_left fun record hrecord => ?_)
      rw [bundleModule, bundleModule, hagree record.specifier (h record hrecord)]
    rw [hbundle _ fun record hrecord =>
      (horder.mem_iff record.specifier).mp (List.mem_map_of_mem hrecord)]
  · rw [if_neg hclean, if_neg hclean]

end Search

theorem normalizeEntry_resolveUrl (documentUrl src : String) :
    normalizeEntry (resolveUrl documentUrl src) = resolveUrl documentUrl src := by
  have habsolute : hasPrefix "/" (resolveUrl documentUrl src) = true := by
    unfold resolveUrl
    by_cases hsrc : hasPrefix "/" src = true
    · rw [if_pos hsrc]
      exact hsrc
    · rw [if_neg hsrc]
      simp only [joinPath, hasPrefix, String.toList_append]
      rfl
  rw [normalizeEntry, if_pos habsolute]

/-- A script of the page leads to the module. -/
def Needs (documentUrl : String) (resources : Sources) (scripts : List ScriptSlice)
    (module : String) : Prop :=
  ∃ script ∈ scripts, script.isTypescript = true ∧ ∃ src, scriptSrc script.openTag = some src ∧
    ReflTransGen (Imports resources) (resolveUrl documentUrl src) module

section Page

variable {ν : Type} {documentUrl : String} {resources resources' : Sources}
  {executeSource : Lookup → String → Session ν (ExecutionOutput ν)}

theorem executeScript_congr {script : ScriptSlice}
    (hagree : ∀ src, scriptSrc script.openTag = some src → ∀ module,
      ReflTransGen (Imports resources) (resolveUrl documentUrl src) module →
      resources'[module]? = resources[module]?) (order : IterationOrder) :
    executeScript documentUrl resources' executeSource script order =
      executeScript documentUrl resources executeSource script order := by
  unfold executeScript
  cases hsrc : scriptSrc script.openTag with
  | none => rfl
  | some src =>
    have hreached := hagree src hsrc
    have hbundle : bundleModuleGraph (resolveUrl documentUrl src) resources' =
        bundleModuleGraph (resolveUrl documentUrl src) resources := by
      refine bundleModuleGraph_congr fun module hmodule => ?_
      rw [normalizeEntry_resolveUrl] at hmodule
      exact hreached module hmodule
    have hcontains : resources'.contains (resolveUrl documentUrl src) =
        resources.contains (resolveUrl documentUrl src) := by
      rw [Std.TreeMap.contains_eq_isSome_getElem?, Std.TreeMap.contains_eq_isSome_getElem?,
        hreached _ .refl]
    dsimp only
    rw [hbundle, hcontains]

variable {policy : ScriptPolicy}

theorem executeScripts_congr (orders : ℕ → IterationOrder) (scripts : List (ScriptSlice × ℕ))
    (hagree : ∀ module, Needs documentUrl resources (scripts.map Prod.fst) module →
      resources'[module]? = resources[module]?) (output : BrowserExecution ν) :
    executeScripts documentUrl resources' policy executeSource orders scripts output =
      executeScripts documentUrl resources policy executeSource orders scripts output := by
  induction scripts generalizing output with
  | nil => rfl
  | cons script scripts ih =>
    obtain ⟨script, index⟩ := script
    have hrest (module : String) (h : Needs documentUrl resources (scripts.map Prod.fst) module) :
        resources'[module]? = resources[module]? := by
      obtain ⟨other, hmem, hneeds⟩ := h
      exact hagree module ⟨other, List.mem_cons_of_mem _ hmem, hneeds⟩
    rw [executeScripts, executeScripts]
    by_cases htypescript : script.isTypescript = true
    · rw [if_pos htypescript, if_pos htypescript, executeScript_congr fun src hsrc module hmodule =>
        hagree module ⟨script, List.mem_cons_self, htypescript, src, hsrc, hmodule⟩]
      simp only [ih hrest]
    · rw [if_neg htypescript, if_neg htypescript]
      exact ih hrest output

end Page

/-- The scripts of a document read of the resources only the modules that they lead to: the
    session is the same and answers the same with any other resources that agree on these. -/
theorem executeTypescriptScripts_reads {ν : Type} [F64 ν] (documentUrl html : String)
    {resources resources' : Sources}
    (hagree : ∀ module, Needs documentUrl resources (findScripts html) module →
      resources'[module]? = resources[module]?)
    (host : HostEnvironment ν) (policy : ScriptPolicy) (fuel : ℕ) (orders : ℕ → IterationOrder) :
    PageScriptSession.executeTypescriptScriptsWithPolicy documentUrl html resources' host policy
        fuel orders =
      PageScriptSession.executeTypescriptScriptsWithPolicy documentUrl html resources host policy
        fuel orders := by
  unfold PageScriptSession.executeTypescriptScriptsWithPolicy
  refine executeScripts_congr orders _ (fun module h => hagree module ?_) _
  rw [List.zipIdx_map_fst] at h
  exact h

def closedUnderImports (sources : Sources) (modules : List String) : Bool :=
  modules.all fun module =>
    match sources[module]? with
    | some source => (importsOf module (parseSource source).program.body).all fun resolved =>
        modules.contains resolved.resolved
    | none => true

theorem reached_mem {sources : Sources} {modules : List String}
    (hclosed : closedUnderImports sources modules = true) {entry module : String}
    (hentry : entry ∈ modules) (h : ReflTransGen (Imports sources) entry module) :
    module ∈ modules := by
  induction h with
  | refl => exact hentry
  | @tail importer module _ himports ih =>
    obtain ⟨source, hsource, htarget⟩ := himports
    have hall := List.all_eq_true.mp hclosed importer ih
    simp only [hsource] at hall
    obtain ⟨resolved, hresolved, rfl⟩ := (importsOf_iff _ _ _).mpr htarget
    exact List.contains_iff_mem.mp (List.all_eq_true.mp hall resolved hresolved)

def coversScripts (documentUrl : String) (resources : Sources) (scripts : List ScriptSlice)
    (modules : List String) : Bool :=
  closedUnderImports resources modules && scripts.all fun script =>
    (scriptSrc script.openTag).all fun src => modules.contains (resolveUrl documentUrl src)

theorem needs_mem {documentUrl : String} {resources : Sources} {scripts : List ScriptSlice}
    {modules : List String} (h : coversScripts documentUrl resources scripts modules = true)
    {module : String} (hneeds : Needs documentUrl resources scripts module) : module ∈ modules := by
  obtain ⟨hclosed, hscripts⟩ := (Bool.and_eq_true _ _).mp h
  obtain ⟨script, hscript, _, src, hsrc, hreached⟩ := hneeds
  have hall := List.all_eq_true.mp hscripts script hscript
  rw [hsrc, Option.all_some] at hall
  exact reached_mem hclosed (List.contains_iff_mem.mp hall) hreached

def readingPage : String := "<script type=\"text/typescript\" src=\"app.ts\"></script>"

def readingResources : Sources := .ofList [
  ("/site/app.ts", "import { double } from './lib/double.ts'; console.log(double(4));"),
  ("/site/lib/double.ts", "export function double(x: number): number { return x + x; }")]

/-- A resource that nothing leads to makes no difference. -/
theorem readingPage_reads :
    PageScriptSession.executeTypescriptScriptsWithPolicy (ν := Int) "/site/index.html" readingPage
        (readingResources.insert "/site/other.ts" "let ;") .new ⟨true⟩ 100 (fun _ => .listed) =
      PageScriptSession.executeTypescriptScriptsWithPolicy "/site/index.html" readingPage
        readingResources .new ⟨true⟩ 100 fun _ => .listed := by
  have hcovers : coversScripts "/site/index.html" readingResources (findScripts readingPage)
      ["/site/app.ts", "/site/lib/double.ts"] = true := by decide +kernel
  refine executeTypescriptScripts_reads "/site/index.html" readingPage (fun module hneeds => ?_)
    .new ⟨true⟩ 100 fun _ => .listed
  have hmem := needs_mem hcovers hneeds
  rw [Std.TreeMap.getElem?_insert]
  rcases List.mem_cons.mp hmem with rfl | hmem
  · rfl
  · rw [List.mem_singleton.mp hmem]
    rfl

end Tsvm.ModuleReach
