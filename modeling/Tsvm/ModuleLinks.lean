import Tsvm.ModuleOrder

set_option autoImplicit false

/-!
# Imports and exports

Every import resolves to a module of the graph, whose record lists the names its
export statements declare. Which of them the import asks for is not looked at.
-/
namespace Tsvm.ModuleLinks
open Ast Modules ModuleOrder Parsing

def exportedName : Statement → Option String
  | .export inner _ => exportName inner
  | _ => none

def exportsOf (body : List Statement) : List String := body.filterMap exportedName

def Exports (sources : Sources) (module name : String) : Prop :=
  ∃ source, sources[module]? = some source ∧
    ∃ inner span, .export inner span ∈ (parseSource source).program.body ∧
      exportName inner = some name

theorem exportsOf_iff (body : List Statement) (name : String) : name ∈ exportsOf body ↔
    ∃ inner span, .export inner span ∈ body ∧ exportName inner = some name := by
  constructor
  · intro hmem
    obtain ⟨statement, hstatement, hname⟩ := List.mem_filterMap.mp hmem
    cases statement with
    | «export» inner span => exact ⟨inner, span, hstatement, hname⟩
    | _ => exact nomatch hname
  · rintro ⟨inner, span, hmem, hname⟩
    exact List.mem_filterMap.mpr ⟨_, hmem, hname⟩

theorem visitBody_exports {visit : String → GraphBuilder → Option GraphBuilder}
    {body : List Statement} {record record' : ModuleRecord} {s s' : GraphBuilder}
    (h : visitBody visit body record s = some (record', s')) :
    record'.exports = record.exports ++ exportsOf body := by
  induction body generalizing record s with
  | nil =>
    obtain ⟨rfl, rfl⟩ := Prod.mk.inj (Option.some.inj h)
    exact (List.append_nil _).symm
  | cons statement body ih =>
    cases statement with
    | «import» declaration span =>
      rw [visitBody] at h
      cases hresolve : resolveImport record.specifier declaration with
      | error message =>
        simp only [hresolve] at h
        exact ih h
      | ok resolved =>
        simp only [hresolve, Option.bind_eq_bind] at h
        obtain ⟨t, _, hrest⟩ := Option.bind_eq_some_iff.mp h
        have hexports := ih hrest
        exact hexports
    | «export» inner span =>
      rw [visitBody] at h
      refine (ih h).trans ?_
      cases hname : exportName inner with
      | none =>
        simp only [exportsOf, List.filterMap_cons, exportedName, hname, Option.toList_none,
          List.append_nil]
      | some name =>
        simp only [exportsOf, List.filterMap_cons, exportedName, hname, Option.toList_some,
          List.append_assoc, List.singleton_append]
    | _ => exact ih h

section Records

variable {sources : Sources}

/-- Every record has the exports of its source. -/
def Exported (sources : Sources) (s : GraphBuilder) : Prop :=
  ∀ (module : String) (record : ModuleRecord), s.records[module]? = some record → ∃ source,
    sources[record.specifier]? = some source ∧ record.exports = exportsOf (parseSource source).program.body

theorem records_parseDiagnostics (module : String) (diagnostics : List ParseDiagnostic)
    (s : GraphBuilder) : (s.parseDiagnostics module diagnostics).records = s.records := by
  induction diagnostics generalizing s with
  | nil => rfl
  | cons diagnostic diagnostics ih => exact ih _

theorem records_leave {P : ModuleRecord → Prop} {t : GraphBuilder} {record : ModuleRecord}
    (h : ∀ (module : String) (other : ModuleRecord), t.records[module]? = some other → P other)
    (hrecord : P record) (module : String) (other : ModuleRecord)
    (hother : (t.leave record).records[module]? = some other) : P other := by
  change (t.records.insert record.specifier record)[module]? = some other at hother
  rw [Std.TreeMap.getElem?_insert] at hother
  simp only [Std.LawfulEqCmp.compare_eq_iff_eq] at hother
  by_cases heq : record.specifier = module
  · rw [if_pos heq] at hother
    rw [← Option.some_inj.mp hother]
    exact hrecord
  · rw [if_neg heq] at hother
    exact h module other hother

theorem visitBody_keeps {visit : String → GraphBuilder → Option GraphBuilder} {I : GraphBuilder → Prop}
    (hdiagnostic : ∀ code message module s, I s → I (s.diagnostic code message module))
    (hvisit : ∀ module s s', visit module s = some s' → I s → I s')
    {body : List Statement} {record record' : ModuleRecord} {s s' : GraphBuilder}
    (h : visitBody visit body record s = some (record', s')) (hs : I s) : I s' := by
  induction body generalizing record s with
  | nil =>
    obtain ⟨rfl, rfl⟩ := Prod.mk.inj (Option.some.inj h)
    exact hs
  | cons statement body ih =>
    cases statement with
    | «import» declaration span =>
      rw [visitBody] at h
      cases hresolve : resolveImport record.specifier declaration with
      | error message =>
        simp only [hresolve] at h
        exact ih h (hdiagnostic _ _ _ s hs)
      | ok resolved =>
        simp only [hresolve, Option.bind_eq_bind] at h
        obtain ⟨t, hcall, hrest⟩ := Option.bind_eq_some_iff.mp h
        exact ih hrest (hvisit resolved s t hcall hs)
    | «export» inner span => exact ih h hs
    | _ => exact ih h hs

theorem visit_exported {depth : ℕ} {module : String} {s s' : GraphBuilder}
    (h : visit sources depth module s = some s') (hs : Exported sources s) :
    Exported sources s' := by
  induction depth generalizing module s s' with
  | zero => exact absurd h nofun
  | succ depth ih =>
    rw [visit] at h
    cases hstate : s.states[module]? with
    | some state =>
      cases state <;>
      · simp only [hstate, Option.some.injEq] at h
        subst h
        exact hs
    | none =>
      cases hsource : sources[module]? with
      | none =>
        simp only [hstate, hsource, Option.some.injEq] at h
        subst h
        exact hs
      | some source =>
        simp only [hstate, hsource, Option.bind_eq_bind] at h
        obtain ⟨⟨record, t⟩, hbody, hleave⟩ := Option.bind_eq_some_iff.mp h
        have hs' : t.leave record = s' := Option.some.inj hleave
        subst hs'
        have hspecifier : record.specifier = module := (visitBody_record hbody).1
        have hentered : Exported sources ((s.enter module).parseDiagnostics module
            (parseSource source).diagnostics) := by
          rw [Exported, records_parseDiagnostics]
          exact hs
        rw [← hspecifier] at hsource
        have hbodyKeeps : Exported sources t :=
          visitBody_keeps (fun _ _ _ _ hs => hs) (fun _ _ _ => ih) hbody hentered
        exact records_leave hbodyKeeps ⟨source, hsource, visitBody_exports hbody⟩

end Records

/-- Every import of the record is a module of the graph, with the exports of its source. -/
def Linked (sources : Sources) (graph : ModuleGraph) (record : ModuleRecord) : Prop :=
  ∀ resolved ∈ record.imports, ∃ target ∈ graph.modules, target.specifier = resolved.resolved ∧
    ∀ name, name ∈ target.exports ↔ Exports sources resolved.resolved name

theorem bundleModuleGraph_links (entry : String) (sources : Sources) (graph : ModuleGraph)
    (h : bundleModuleGraph entry sources = .ok graph) :
    ∀ record ∈ graph.modules, Linked sources graph record := by
  have horder := ((bundleModuleGraph_order entry sources).2 graph h).2
  have hexported : ∀ target ∈ graph.modules, ∃ source, sources[target.specifier]? = some source ∧
      target.exports = exportsOf (parseSource source).program.body := by
    have hsearch := visit_exported (visit_search sources (normalizeEntry entry))
      fun _ _ hrecord => nomatch hrecord
    unfold bundleModuleGraph at h
    simp only at h
    split at h
    · rw [← Except.ok.inj h]
      intro target hmem
      obtain ⟨module, _, hrecord⟩ := List.mem_filterMap.mp hmem
      exact hsearch module target hrecord
    · exact nomatch h
  intro record hrecord resolved hresolved
  have himports := (horder.imports_iff record hrecord resolved.resolved).mp ⟨resolved, hresolved, rfl⟩
  have hreached := (horder.mem_iff record.specifier).mp (List.mem_map_of_mem hrecord)
  have hmem := (horder.mem_iff resolved.resolved).mpr (hreached.tail himports)
  obtain ⟨target, htarget, hspecifier⟩ := List.mem_map.mp hmem
  obtain ⟨source, hsource, hexports⟩ := hexported target htarget
  refine ⟨target, htarget, hspecifier, fun name => ?_⟩
  rw [hexports, exportsOf_iff, Exports, ← hspecifier, hsource]
  constructor
  · exact fun hname => ⟨source, rfl, hname⟩
  · rintro ⟨source', heq, hname⟩
    rw [Option.some_inj.mp heq]
    exact hname

theorem bundleModuleGraph_links_diamond : ∃ graph, graph.modules.length = 4 ∧
    bundleModuleGraph "main.ts" diamond = .ok graph ∧
      ∀ record ∈ graph.modules, Linked diamond graph record := by
  have hgraph : ((bundleModuleGraph "main.ts" diamond).toOption.map fun graph =>
      graph.modules.length) = some 4 := by decide +kernel
  cases hbundle : bundleModuleGraph "main.ts" diamond with
  | error diagnostics =>
    rw [hbundle] at hgraph
    exact nomatch hgraph
  | ok graph =>
    rw [hbundle] at hgraph
    exact ⟨graph, Option.some_inj.mp hgraph, rfl,
      bundleModuleGraph_links "main.ts" diamond graph hbundle⟩

/-- Every name that is imported is exported by the module it is imported from. -/
def NamesLinked (graph : ModuleGraph) : Prop :=
  ∀ record ∈ graph.modules, ∀ resolved ∈ record.imports, ∀ name ∈ resolved.names,
    ∃ target ∈ graph.modules, target.specifier = resolved.resolved ∧ name ∈ target.exports

instance (graph : ModuleGraph) : Decidable (NamesLinked graph) :=
  inferInstanceAs (Decidable (∀ record ∈ graph.modules, ∀ resolved ∈ record.imports,
    ∀ name ∈ resolved.names, ∃ target ∈ graph.modules,
      target.specifier = resolved.resolved ∧ name ∈ target.exports))

def unlinked : Sources := .ofList [
  ("/main.ts", "import { missing } from './a.ts'; missing;"),
  ("/a.ts", "export const a = 1;")]

theorem unlinked_bundles : ¬∀ entry sources graph,
    bundleModuleGraph entry sources = .ok graph → NamesLinked graph := by
  intro hlinked
  have hgraph : ((bundleModuleGraph "main.ts" unlinked).toOption.map fun graph =>
      decide (NamesLinked graph)) = some false := by decide +kernel
  cases hbundle : bundleModuleGraph "main.ts" unlinked with
  | error diagnostics =>
    rw [hbundle] at hgraph
    exact nomatch hgraph
  | ok graph =>
    rw [hbundle] at hgraph
    exact of_decide_eq_false (Option.some_inj.mp hgraph) (hlinked "main.ts" unlinked graph hbundle)

end Tsvm.ModuleLinks
