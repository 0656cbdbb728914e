import Mathlib.Data.List.Nodup
import Mathlib.Logic.Relation
import Tsvm.Modules

set_option autoImplicit false

/-!
# The order of the modules

A list is in dependency order when the successors of each of its elements stand
before it. A search without diagnostics keeps the order of its modules so.
-/
namespace Tsvm.ModuleOrder
open Ast Modules Parsing

section Ordered

variable {α : Type} {E : α → α → Prop}

/-- The successors of every element come before it. -/
def Ordered (E : α → α → Prop) (order : List α) : Prop :=
  ∀ before a after, order = before ++ a :: after → ∀ b, E a b → b ∈ before

theorem Ordered.nil : Ordered E [] := fun before a after h => by
  rw [List.nil_eq, List.append_eq_nil_iff] at h
  exact absurd h.2 (List.cons_ne_nil _ _)

theorem Ordered.snoc {order : List α} {a : α} (h : Ordered E order)
    (ha : ∀ b, E a b → b ∈ order) : Ordered E (order ++ [a]) := by
  intro before c after heq b hb
  rcases List.eq_nil_or_concat after with rfl | ⟨rest, last, rfl⟩
  · obtain ⟨rfl, hlast⟩ := List.append_inj' heq rfl
    rw [List.cons.injEq] at hlast
    exact ha b (hlast.1 ▸ hb)
  · have hsplit : order ++ [a] = (before ++ c :: rest) ++ [last] := by
      rw [heq, List.concat_eq_append, List.append_assoc, List.cons_append]
    exact h before c rest (List.append_inj' hsplit rfl).1 b hb

theorem Ordered.mem_of_edge {order : List α} (h : Ordered E order) {a b : α} (ha : a ∈ order)
    (hb : E a b) : b ∈ order := by
  obtain ⟨before, after, rfl⟩ := List.append_of_mem ha
  exact List.mem_append_left _ (h before a after rfl b hb)

theorem Ordered.mem_of_reachable {order : List α} (h : Ordered E order) {a b : α} (ha : a ∈ order)
    (hb : Relation.ReflTransGen E a b) : b ∈ order := by
  induction hb with
  | refl => exact ha
  | tail _ hedge ih => exact h.mem_of_edge ih hedge

end Ordered

def resolvedImport (module : String) : Statement → Option ResolvedImport
  | .import declaration _ =>
    match resolveImport module declaration with
    | .ok resolved => some ⟨declaration.names, declaration.from, resolved⟩
    | .error _ => none
  | _ => none

/-- The imports of a module's statements, as far as their specifiers are supported. -/
def importsOf (module : String) (body : List Statement) : List ResolvedImport :=
  body.filterMap (resolvedImport module)

def Imports (sources : Sources) (module other : String) : Prop :=
  ∃ source, sources[module]? = some source ∧
    ∃ declaration span, .import declaration span ∈ (parseSource source).program.body ∧
      resolveImport module declaration = .ok other

theorem visitBody_record {visit : String → GraphBuilder → Option GraphBuilder}
    {body : List Statement} {record record' : ModuleRecord} {s s' : GraphBuilder}
    (h : visitBody visit body record s = some (record', s')) :
    record'.specifier = record.specifier ∧
      record'.imports = record.imports ++ importsOf record.specifier body := by
  induction body generalizing record s with
  | nil =>
    obtain ⟨rfl, rfl⟩ := Prod.mk.inj (Option.some.inj h)
    exact ⟨rfl, (List.append_nil _).symm⟩
  | cons statement body ih =>
    cases statement with
    | «import» declaration span =>
      rw [visitBody] at h
      cases hresolve : resolveImport record.specifier declaration with
      | error message =>
        simp only [hresolve] at h
        obtain ⟨hspecifier, himports⟩ := ih h
        refine ⟨hspecifier, himports.trans ?_⟩
        simp only [importsOf, List.filterMap_cons, resolvedImport, hresolve]
      | ok resolved =>
        simp only [hresolve, Option.bind_eq_bind] at h
        obtain ⟨t, _, hrest⟩ := Option.bind_eq_some_iff.mp h
        obtain ⟨hspecifier, himports⟩ := ih hrest
        refine ⟨hspecifier, himports.trans ?_⟩
        simp only [importsOf, List.filterMap_cons, resolvedImport, hresolve, List.append_assoc,
          List.singleton_append]
    | «export» inner span =>
      rw [visitBody] at h
      have hrest := ih h
      exact hrest
    | _ => exact ih h

theorem visitBody_mono {visit visit' : String → GraphBuilder → Option GraphBuilder}
    (hvisit : ∀ module s s', visit module s = some s' → visit' module s = some s')
    {body : List Statement} {record : ModuleRecord} {s : GraphBuilder}
    {result : ModuleRecord × GraphBuilder} (h : visitBody visit body record s = some result) :
    visitBody visit' body record s = some result := by
  induction body generalizing record s with
  | nil => exact h
  | cons statement body ih =>
    cases statement with
    | «import» declaration span =>
      rw [visitBody] at h ⊢
      cases hresolve : resolveImport record.specifier declaration with
      | error message =>
        simp only [hresolve] at h ⊢
        exact ih h
      | ok resolved =>
        simp only [hresolve, Option.bind_eq_bind] at h ⊢
        obtain ⟨t, hcall, hrest⟩ := Option.bind_eq_some_iff.mp h
        rw [hvisit resolved s t hcall, Option.bind_some]
        exact ih hrest
    | «export» inner span => exact ih h
    | _ => exact ih h

section Search

variable {sources : Sources}

theorem visit_mono {depth : ℕ} {module : String} {s s' : GraphBuilder}
    (h : visit sources depth module s = some s') :
    visit sources (depth + 1) module s = some s' := by
  induction depth generalizing module s s' with
  | zero => exact absurd h nofun
  | succ depth ih =>
    rw [visit] at h ⊢
    cases hstate : s.states[module]? with
    | some state => cases state <;> simpa only [hstate] using h
    | none =>
      cases hsource : sources[module]? with
      | none => simpa only [hstate, hsource] using h
      | some source =>
        simp only [hstate, hsource, Option.bind_eq_bind] at h ⊢
        obtain ⟨result, hbody, hrest⟩ := Option.bind_eq_some_iff.mp h
        rw [visitBody_mono (fun module s s' => ih) hbody, Option.bind_some]
        exact hrest

theorem visit_mono_of_le {depth depth' : ℕ} (hle : depth ≤ depth') {module : String}
    {s s' : GraphBuilder} (h : visit sources depth module s = some s') :
    visit sources depth' module s = some s' := by
  induction hle with
  | refl => exact h
  | step _ ih => exact visit_mono ih

theorem parseDiagnostics_grows (module : String) (diagnostics : List ParseDiagnostic)
    (s : GraphBuilder) :
    s.diagnostics <+: (s.parseDiagnostics module diagnostics).diagnostics := by
  induction diagnostics generalizing s with
  | nil => exact List.prefix_refl _
  | cons diagnostic diagnostics ih =>
    exact (List.prefix_append s.diagnostics _).trans
      (ih (s.diagnostic .parse diagnostic.message module))

theorem visitBody_grows {visit : String → GraphBuilder → Option GraphBuilder}
    (hvisit : ∀ module s s', visit module s = some s' → s.diagnostics <+: s'.diagnostics)
    {body : List Statement} {record record' : ModuleRecord} {s s' : GraphBuilder}
    (h : visitBody visit body record s = some (record', s')) :
    s.diagnostics <+: s'.diagnostics := by
  induction body generalizing record s with
  | nil =>
    obtain ⟨rfl, rfl⟩ := Prod.mk.inj (Option.some.inj h)
    exact List.prefix_refl _
  | cons statement body ih =>
    cases statement with
    | «import» declaration span =>
      rw [visitBody] at h
      cases hresolve : resolveImport record.specifier declaration with
      | error message =>
        simp only [hresolve] at h
        exact (List.prefix_append _ _).trans (ih h)
      | ok resolved =>
        simp only [hresolve, Option.bind_eq_bind] at h
        obtain ⟨t, hcall, hrest⟩ := Option.bind_eq_some_iff.mp h
        exact (hvisit resolved s t hcall).trans (ih hrest)
    | «export» inner span => exact ih h
    | _ => exact ih h

theorem visit_grows {depth : ℕ} {module : String} {s s' : GraphBuilder}
    (h : visit sources depth module s = some s') : s.diagnostics <+: s'.diagnostics := by
  induction depth generalizing module s s' with
  | zero => exact absurd h nofun
  | succ depth ih =>
    rw [visit] at h
    cases hstate : s.states[module]? with
    | some state =>
      cases state with
      | visited =>
        simp only [hstate] at h
        obtain rfl := Option.some.inj h
        exact List.prefix_refl _
      | visiting =>
        simp only [hstate] at h
        rw [← Option.some.inj h]
        exact List.prefix_append _ _
    | none =>
      cases hsource : sources[module]? with
      | none =>
        simp only [hstate, hsource] at h
        rw [← Option.some.inj h]
        exact List.prefix_append _ _
      | some source =>
        simp only [hstate, hsource, Option.bind_eq_bind] at h
        obtain ⟨⟨record, t⟩, hbody, hrest⟩ := Option.bind_eq_some_iff.mp h
        rw [← Option.some.inj hrest]
        have hparsed := parseDiagnostics_grows module (parseSource source).diagnostics
          (s.enter module)
        have hcalls : ∀ other s s', visit sources depth other s = some s' →
            s.diagnostics <+: s'.diagnostics := fun _ _ _ => ih
        have hloop := visitBody_grows hcalls hbody
        exact hparsed.trans hloop

/-- The record of a module, read off its source. -/
def Recorded (sources : Sources) (module : String) (record : ModuleRecord) : Prop :=
  record.specifier = module ∧ ∃ source, sources[module]? = some source ∧
    record.imports = importsOf module (parseSource source).program.body

/-- The finished modules: listed once, in dependency order, each with its record. -/
structure Good (sources : Sources) (s : GraphBuilder) : Prop where
  visited : ∀ module, s.states[module]? = some .visited ↔ module ∈ s.order
  nodup : s.order.Nodup
  ordered : Ordered (Imports sources) s.order
  records : ∀ module ∈ s.order, ∃ record, s.records[module]? = some record ∧
    Recorded sources module record

/-- What a search for some targets does: it finishes these and what they reach. -/
structure Progress (sources : Sources) (targets : String → Prop) (s s' : GraphBuilder) : Prop where
  good : Good sources s'
  order_grows : s.order <+: s'.order
  visiting : ∀ module : String,
    s'.states[module]? = some VisitState.visiting ↔ s.states[module]? = some VisitState.visiting
  finished : ∀ target, targets target → target ∈ s'.order
  only : ∀ module ∈ s'.order, module ∈ s.order ∨
    ∃ target, targets target ∧ Relation.ReflTransGen (Imports sources) target module

def TargetOf (module : String) (body : List Statement) (target : String) : Prop :=
  ∃ declaration span, .import declaration span ∈ body ∧
    resolveImport module declaration = .ok target

theorem TargetOf.cons {module target : String} {statement : Statement} {body : List Statement}
    (h : TargetOf module body target) : TargetOf module (statement :: body) target := by
  obtain ⟨declaration, span, hmem, hresolve⟩ := h
  exact ⟨declaration, span, List.mem_cons_of_mem _ hmem, hresolve⟩

theorem targetOf_cons_other {module target : String} {statement : Statement} {body : List Statement}
    (hother : ∀ declaration span, statement = .import declaration span →
      resolveImport module declaration ≠ .ok target) :
    TargetOf module (statement :: body) target ↔ TargetOf module body target := by
  constructor
  · rintro ⟨declaration, span, hmem, hresolve⟩
    rcases List.mem_cons.mp hmem with heq | hmem
    · exact absurd hresolve (hother declaration span heq.symm)
    · exact ⟨declaration, span, hmem, hresolve⟩
  · exact TargetOf.cons

theorem Progress.refl {s : GraphBuilder} (hgood : Good sources s) {targets : String → Prop}
    (htargets : ∀ target, targets target → target ∈ s.order) : Progress sources targets s s :=
  ⟨hgood, List.prefix_refl _, fun _ => Iff.rfl, htargets, fun _ hmem => .inl hmem⟩

theorem Progress.congr {targets targets' : String → Prop} {s s' : GraphBuilder}
    (h : Progress sources targets s s') (heq : ∀ target, targets' target ↔ targets target) :
    Progress sources targets' s s' :=
  ⟨h.good, h.order_grows, h.visiting, fun target htarget => h.finished target ((heq target).mp htarget),
    fun module hmem => (h.only module hmem).imp_right fun ⟨target, htarget, hreach⟩ =>
      ⟨target, (heq target).mpr htarget, hreach⟩⟩

theorem Progress.trans {targets targets' : String → Prop} {s t s' : GraphBuilder}
    (h : Progress sources targets s t) (h' : Progress sources targets' t s') :
    Progress sources (fun target => targets target ∨ targets' target) s s' where
  good := h'.good
  order_grows := h.order_grows.trans h'.order_grows
  visiting module := (h'.visiting module).trans (h.visiting module)
  finished target htarget := htarget.elim
    (fun htarget => h'.order_grows.subset (h.finished target htarget)) (h'.finished target)
  only module hmem := by
    rcases h'.only module hmem with hmem | ⟨target, htarget, hreach⟩
    · exact (h.only module hmem).imp_right fun ⟨target, htarget, hreach⟩ =>
        ⟨target, .inl htarget, hreach⟩
    · exact .inr ⟨target, .inr htarget, hreach⟩

theorem visitBody_progress {visit : String → GraphBuilder → Option GraphBuilder}
    (hgrowing : ∀ module s s', visit module s = some s' → s.diagnostics <+: s'.diagnostics)
    (hvisit : ∀ module s s', visit module s = some s' → s'.diagnostics = [] → Good sources s →
      Progress sources (fun target => target = module) s s')
    {body : List Statement} {record record' : ModuleRecord} {s s' : GraphBuilder}
    (h : visitBody visit body record s = some (record', s')) (hclean : s'.diagnostics = [])
    (hgood : Good sources s) :
    Progress sources (TargetOf record.specifier body) s s' := by
  induction body generalizing record s with
  | nil =>
    obtain ⟨rfl, rfl⟩ := Prod.mk.inj (Option.some.inj h)
    refine .refl hgood fun target htarget => ?_
    obtain ⟨declaration, span, hmem, _⟩ := htarget
    exact absurd hmem List.not_mem_nil
  | cons statement body ih =>
    cases statement with
    | «import» declaration span =>
      rw [visitBody] at h
      cases hresolve : resolveImport record.specifier declaration with
      | error message =>
        simp only [hresolve] at h
        have hgrows : s.diagnostics ++ _ <+: s'.diagnostics := visitBody_grows hgrowing h
        rw [hclean] at hgrows
        exact absurd (List.append_eq_nil_iff.mp (List.prefix_nil.mp hgrows)).2
          (List.cons_ne_nil _ _)
      | ok resolved =>
        simp only [hresolve, Option.bind_eq_bind] at h
        obtain ⟨t, hcall, hrest⟩ := Option.bind_eq_some_iff.mp h
        have hmiddle : t.diagnostics = [] := by
          have := visitBody_grows hgrowing hrest
          rw [hclean] at this
          exact List.prefix_nil.mp this
        have hfirst := hvisit resolved s t hcall hmiddle hgood
        refine (hfirst.trans (ih hrest hfirst.good)).congr fun target => ?_
        constructor
        · rintro ⟨declaration', span', hmem, hresolve'⟩
          rcases List.mem_cons.mp hmem with heq | hmem
          · rw [Statement.import.injEq] at heq
            rw [heq.1, hresolve] at hresolve'
            exact .inl (Except.ok.inj hresolve').symm
          · exact .inr ⟨declaration', span', hmem, hresolve'⟩
        · rintro (rfl | htarget)
          · exact ⟨declaration, span, List.mem_cons_self, hresolve⟩
          · exact htarget.cons
    | «export» inner span =>
      exact (ih h hgood).congr fun target => targetOf_cons_other fun _ _ heq => by cases heq
    | _ => exact (ih h hgood).congr fun target => targetOf_cons_other fun _ _ heq => by cases heq

theorem parseDiagnostics_clean {module : String} {diagnostics : List ParseDiagnostic}
    {s : GraphBuilder} (h : (s.parseDiagnostics module diagnostics).diagnostics = []) :
    s.parseDiagnostics module diagnostics = s := by
  cases diagnostics with
  | nil => rfl
  | cons diagnostic diagnostics =>
    have hgrows : s.diagnostics ++ _ <+: _ := parseDiagnostics_grows module diagnostics
      (s.diagnostic .parse diagnostic.message module)
    change _ <+: (s.parseDiagnostics module (diagnostic :: diagnostics)).diagnostics at hgrows
    rw [h] at hgrows
    exact absurd (List.append_eq_nil_iff.mp (List.prefix_nil.mp hgrows)).2 (List.cons_ne_nil _ _)

theorem getElem?_states_insert (states : Std.TreeMap String VisitState) (module other : String)
    (state : VisitState) : (states.insert module state)[other]? =
      if module = other then some state else states[other]? := by
  rw [Std.TreeMap.getElem?_insert]
  simp only [Std.LawfulEqCmp.compare_eq_iff_eq]

theorem Good.enter {s : GraphBuilder} (h : Good sources s) {module : String}
    (hnew : s.states[module]? = none) : Good sources (s.enter module) where
  visited other := by
    change (s.states.insert module .visiting)[other]? = _ ↔ other ∈ s.order
    rw [getElem?_states_insert, ← h.visited]
    by_cases heq : module = other
    · subst heq
      rw [if_pos rfl, hnew]
      simp only [Option.some.injEq, reduceCtorEq]
    · rw [if_neg heq]
  nodup := h.nodup
  ordered := h.ordered
  records := h.records

theorem Good.leave {t : GraphBuilder} (h : Good sources t) {module source : String}
    {record : ModuleRecord} (hvisiting : t.states[module]? = some .visiting)
    (hsource : sources[module]? = some source) (hspecifier : record.specifier = module)
    (himports : record.imports = importsOf module (parseSource source).program.body)
    (hfinished : ∀ other, TargetOf module (parseSource source).program.body other →
      other ∈ t.order) : Good sources (t.leave record) where
  visited other := by
    change (t.states.insert record.specifier .visited)[other]? = _ ↔
      other ∈ t.order ++ [record.specifier]
    rw [getElem?_states_insert, List.mem_append, List.mem_singleton, ← h.visited, hspecifier]
    by_cases heq : module = other
    · subst heq
      rw [if_pos rfl]
      simp only [or_true]
    · rw [if_neg heq, or_iff_left (Ne.symm heq)]
  nodup := by
    change (t.order ++ [record.specifier]).Nodup
    rw [← List.concat_eq_append]
    refine h.nodup.concat fun hmem => ?_
    rw [hspecifier, ← h.visited, hvisiting] at hmem
    exact absurd hmem nofun
  ordered := by
    refine h.ordered.snoc fun other hother => hfinished other ?_
    obtain ⟨source', hsource', htarget⟩ := hother
    rw [hspecifier, hsource] at hsource'
    rw [hspecifier] at htarget
    rw [Option.some.inj hsource']
    exact htarget
  records other hmem := by
    change ∃ record', (t.records.insert record.specifier record)[other]? = some record' ∧ _
    rw [Std.TreeMap.getElem?_insert]
    simp only [Std.LawfulEqCmp.compare_eq_iff_eq]
    by_cases heq : record.specifier = other
    · rw [if_pos heq]
      refine ⟨record, rfl, heq, source, ?_, ?_⟩
      · rw [← heq, hspecifier]
        exact hsource
      · rw [← heq, hspecifier]
        exact himports
    · rw [if_neg heq]
      rcases List.mem_append.mp hmem with hmem | hmem
      · exact h.records other hmem
      · exact absurd (List.mem_singleton.mp hmem).symm heq

/-- A visit without diagnostics finishes the module and what it reaches. -/
theorem visit_progress {depth : ℕ} {module : String} {s s' : GraphBuilder}
    (h : visit sources depth module s = some s') (hclean : s'.diagnostics = [])
    (hgood : Good sources s) : Progress sources (fun target => target = module) s s' := by
  induction depth generalizing module s s' with
  | zero => cases h
  | succ depth ih =>
    have hgrows := visit_grows h
    rw [visit] at h
    cases hstate : s.states[module]? with
    | some state =>
      cases state with
      | visited =>
        simp only [hstate, Option.some.injEq] at h
        subst h
        refine .refl hgood fun target htarget => ?_
        rw [htarget, ← hgood.visited]
        exact hstate
      | visiting =>
        simp only [hstate, Option.some.injEq] at h
        subst h
        exact absurd (List.append_eq_nil_iff.mp hclean).2 (List.cons_ne_nil _ _)
    | none =>
      cases hsource : sources[module]? with
      | none =>
        simp only [hstate, hsource, Option.some.injEq] at h
        subst h
        exact absurd (List.append_eq_nil_iff.mp hclean).2 (List.cons_ne_nil _ _)
      | some source =>
        simp only [hstate, hsource, Option.bind_eq_bind] at h
        obtain ⟨⟨record, t⟩, hbody, hleave⟩ := Option.bind_eq_some_iff.mp h
        have hs' : t.leave record = s' := Option.some.inj hleave
        subst hs'
        have hcalls : ∀ other s s', visit sources depth other s = some s' →
            s.diagnostics <+: s'.diagnostics := fun _ _ _ => visit_grows
        have hparsed := visitBody_grows hcalls hbody
        rw [show t.diagnostics = [] from hclean] at hparsed
        rw [parseDiagnostics_clean (List.prefix_nil.mp hparsed)] at hbody
        obtain ⟨hspecifier, himports⟩ := visitBody_record hbody
        have hloop := visitBody_progress hcalls (fun _ _ _ => ih) hbody hclean
          (hgood.enter hstate)
        have hvisiting : t.states[module]? = some .visiting := by
          rw [hloop.visiting]
          exact Std.TreeMap.getElem?_insert_self
        refine
          { good := hloop.good.leave hvisiting hsource hspecifier himports hloop.finished
            order_grows := ?_
            visiting := fun other => ?_
            finished := fun target htarget => ?_
            only := fun other hmem => ?_ }
        · exact hloop.order_grows.trans (List.prefix_append _ _)
        · change (t.states.insert record.specifier .visited)[other]? = _ ↔ _
          rw [getElem?_states_insert, hspecifier]
          by_cases heq : module = other
          · subst heq
            rw [if_pos rfl, hstate]
            simp only [Option.some.injEq, reduceCtorEq]
          · rw [if_neg heq, hloop.visiting]
            change (s.states.insert module .visiting)[other]? = _ ↔ _
            rw [getElem?_states_insert, if_neg heq]
        · change target ∈ t.order ++ [record.specifier]
          rw [htarget, hspecifier]
          exact List.mem_append_right _ List.mem_cons_self
        · rcases List.mem_append.mp hmem with hmem | hmem
          · refine (hloop.only other hmem).imp_right ?_
            rintro ⟨target, htarget, hreach⟩
            exact ⟨module, rfl, hreach.head ⟨source, hsource, htarget⟩⟩
          · refine .inr ⟨module, rfl, ?_⟩
            rw [List.mem_singleton.mp hmem, hspecifier]

theorem good_new (sources : Sources) : Good sources .new where
  visited module := by
    refine ⟨fun h => ?_, fun h => absurd h List.not_mem_nil⟩
    cases h
  nodup := List.nodup_nil
  ordered := .nil
  records := fun _ h => absurd h List.not_mem_nil

end Search

/-- The modules of a graph are those the entry reaches, each once and after its imports. -/
structure DependencyOrder (sources : Sources) (graph : ModuleGraph) : Prop where
  mem_iff : ∀ module, module ∈ graph.modules.map ModuleRecord.specifier ↔
    Relation.ReflTransGen (Imports sources) graph.entry module
  nodup : (graph.modules.map ModuleRecord.specifier).Nodup
  imports_iff : ∀ record ∈ graph.modules, ∀ module,
    (∃ resolved ∈ record.imports, resolved.resolved = module) ↔
      Imports sources record.specifier module
  imports_before : ∀ before record after, graph.modules = before ++ record :: after →
    ∀ resolved ∈ record.imports, resolved.resolved ∈ before.map ModuleRecord.specifier

theorem importsOf_iff (module other : String) (body : List Statement) :
    (∃ resolved ∈ importsOf module body, resolved.resolved = other) ↔ TargetOf module body other := by
  constructor
  · rintro ⟨resolved, hmem, rfl⟩
    obtain ⟨statement, hstatement, hresolved⟩ := List.mem_filterMap.mp hmem
    cases statement with
    | «import» declaration span =>
      refine ⟨declaration, span, hstatement, ?_⟩
      cases hresolve : resolveImport module declaration with
      | error message =>
        simp only [resolvedImport, hresolve] at hresolved
        exact absurd hresolved nofun
      | ok path =>
        simp only [resolvedImport, hresolve, Option.some.injEq] at hresolved
        rw [← hresolved]
    | _ => exact absurd hresolved nofun
  · rintro ⟨declaration, span, hmem, hresolve⟩
    refine ⟨⟨declaration.names, declaration.from, other⟩, ?_, rfl⟩
    refine List.mem_filterMap.mpr ⟨_, hmem, ?_⟩
    simp only [resolvedImport, hresolve]

theorem Recorded.imports_iff {sources : Sources} {module other : String} {record : ModuleRecord}
    (h : Recorded sources module record) :
    (∃ resolved ∈ record.imports, resolved.resolved = other) ↔ Imports sources module other := by
  obtain ⟨_, source, hsource, himports⟩ := h
  rw [himports, importsOf_iff]
  constructor
  · exact fun htarget => ⟨source, hsource, htarget⟩
  · rintro ⟨source', hsource', htarget⟩
    rw [hsource] at hsource'
    rw [Option.some.inj hsource']
    exact htarget

theorem map_specifier_filterMap {records : String → Option ModuleRecord} {order : List String}
    (h : ∀ module ∈ order, ∃ record, records module = some record ∧ record.specifier = module) :
    (order.filterMap records).map ModuleRecord.specifier = order := by
  induction order with
  | nil => rfl
  | cons module order ih =>
    obtain ⟨record, hrecord, hspecifier⟩ := h module List.mem_cons_self
    rw [List.filterMap_cons_some hrecord, List.map_cons, hspecifier,
      ih fun other hother => h other (List.mem_cons_of_mem _ hother)]

theorem Good.dependencyOrder {sources : Sources} {s : GraphBuilder} {entry : String}
    (h : Progress sources (fun target => target = entry) .new s) (bundled : String) :
    DependencyOrder sources
      ⟨entry, s.order.filterMap fun specifier => s.records[specifier]?, bundled⟩ := by
  have hgood := h.good
  have hmap : (s.order.filterMap fun specifier => s.records[specifier]?).map
      ModuleRecord.specifier = s.order := by
    refine map_specifier_filterMap fun module hmem => ?_
    obtain ⟨record, hrecord, hspecifier, _⟩ := hgood.records module hmem
    exact ⟨record, hrecord, hspecifier⟩
  have hrecorded : ∀ record ∈ s.order.filterMap fun specifier => s.records[specifier]?,
      Recorded sources record.specifier record := by
    intro record hmem
    obtain ⟨module, hmodule, hrecord⟩ := List.mem_filterMap.mp hmem
    obtain ⟨record', hrecord', hspec⟩ := hgood.records module hmodule
    rw [hrecord] at hrecord'
    rw [← Option.some.inj hrecord'] at hspec
    rw [hspec.1]
    exact hspec
  refine
    { mem_iff := fun module => ?_
      nodup := ?_
      imports_iff := fun record hmem module => (hrecorded record hmem).imports_iff
      imports_before := fun before record after hsplit resolved hresolved => ?_ }
  · change module ∈ List.map _ _ ↔ Relation.ReflTransGen (Imports sources) entry module
    rw [hmap]
    constructor
    · intro hmem
      rcases h.only module hmem with hmem | ⟨target, rfl, hreach⟩
      · exact absurd hmem List.not_mem_nil
      · exact hreach
    · exact hgood.ordered.mem_of_reachable (h.finished entry rfl)
  · rw [hmap]
    exact hgood.nodup
  · change List.filterMap _ _ = _ at hsplit
    have horder : s.order = before.map ModuleRecord.specifier ++
        record.specifier :: after.map ModuleRecord.specifier := by
      rw [← hmap, hsplit, List.map_append, List.map_cons]
    have hmem : record ∈ s.order.filterMap fun specifier => s.records[specifier]? := by
      rw [hsplit]
      exact List.mem_append_right _ List.mem_cons_self
    exact hgood.ordered _ _ _ horder _
      ((hrecorded record hmem).imports_iff.mp ⟨resolved, hresolved, rfl⟩)

theorem bundleModuleGraph_order (entry : String) (sources : Sources) :
    (∀ module s, ∃ s', ∀ depth, sources.size < depth →
      visit sources depth module s = some s') ∧
    ∀ graph, bundleModuleGraph entry sources = .ok graph →
      graph.entry = normalizeEntry entry ∧ DependencyOrder sources graph := by
  refine ⟨fun module s => ?_, fun graph hgraph => ?_⟩
  · obtain ⟨s', hvisit, _⟩ := visit_isSome module s
      (Nat.lt_succ_of_le (@unvisited_le_size sources s))
    exact ⟨s', fun depth hdepth => visit_mono_of_le hdepth hvisit⟩
  · unfold bundleModuleGraph at hgraph
    simp only at hgraph
    split at hgraph
    · rename_i hclean
      have hprogress := visit_progress (visit_search sources (normalizeEntry entry))
        (List.isEmpty_iff.mp hclean) (good_new sources)
      rw [← Except.ok.inj hgraph]
      exact ⟨rfl, Good.dependencyOrder hprogress _⟩
    · exact absurd hgraph nofun

def diamond : Sources := .ofList [
  ("/main.ts", "import { b } from './lib/b.ts'; import { c } from './c.ts'; b + c;"),
  ("/lib/b.ts", "import { a } from '../a.ts'; export const b = a;"),
  ("/c.ts", "import { a } from './a.ts'; export const c = a;"),
  ("/a.ts", "export const a = 1;")]

theorem bundleModuleGraph_order_diamond : ∃ graph,
    graph.modules.map ModuleRecord.specifier = ["/a.ts", "/lib/b.ts", "/c.ts", "/main.ts"] ∧
      graph.entry = "/main.ts" ∧ DependencyOrder diamond graph := by
  have hgraph : ((bundleModuleGraph "main.ts" diamond).toOption.map fun graph =>
      graph.modules.map ModuleRecord.specifier) =
        some ["/a.ts", "/lib/b.ts", "/c.ts", "/main.ts"] := by decide +kernel
  cases hbundle : bundleModuleGraph "main.ts" diamond with
  | error diagnostics =>
    rw [hbundle] at hgraph
    exact absurd hgraph nofun
  | ok graph =>
    rw [hbundle] at hgraph
    exact ⟨graph, Option.some.inj hgraph, (bundleModuleGraph_order "main.ts" diamond).2 graph hbundle⟩

end Tsvm.ModuleOrder
