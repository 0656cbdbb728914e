import Mathlib.Data.List.Chain
import Tsvm.ModuleOrder

set_option autoImplicit false

/-!
# Import cycles

The stack of the search is a path of imports, so what is reported is a cycle. A
search that reports none finishes every module after the modules it imports.
-/
namespace Tsvm.ModuleCycles
open Ast Modules ModuleOrder Parsing

section Orders

variable {α : Type} {E : α → α → Prop}

theorem Ordered.before_of_transGen {order : List α} (h : Ordered E order) {a b : α}
    (hpath : Relation.TransGen E a b) {before after : List α} (hsplit : order = before ++ a :: after) :
    b ∈ before := by
  induction hpath with
  | single hedge => exact h before a after hsplit _ hedge
  | @tail b c _ hedge ih =>
    obtain ⟨first, rest, rfl⟩ := List.append_of_mem ih
    refine List.mem_append_left _ (h first b (rest ++ a :: after) ?_ c hedge)
    rw [hsplit, List.append_assoc, List.cons_append]

theorem Ordered.acyclic {order : List α} (h : Ordered E order) (hnodup : order.Nodup) {a : α}
    (ha : a ∈ order) : ¬Relation.TransGen E a a := by
  intro hcycle
  obtain ⟨before, after, rfl⟩ := List.append_of_mem ha
  have hbefore := Ordered.before_of_transGen h hcycle rfl
  exact (List.disjoint_of_nodup_append hnodup) hbefore List.mem_cons_self

end Orders

variable {sources : Sources}

/-- From the first to the last entry, which are the same, each imports the next. -/
structure ImportCycle (sources : Sources) (path : List String) : Prop where
  long : 2 ≤ path.length
  closed : path.head? = path.getLast?
  imports : path.IsChain (Imports sources)

def Reports (diagnostics : List ModuleDiagnostic) : Prop :=
  ∃ diagnostic ∈ diagnostics, diagnostic.code = .cycle

/-- The modules of the stack are the ones that are visited just now, each imported by the one
below it. -/
structure Trail (sources : Sources) (entry : String) (s : GraphBuilder) : Prop where
  visiting : ∀ module, s.states[module]? = some .visiting ↔ module ∈ s.stack
  chain : s.stack.IsChain (Imports sources)
  reached : ∀ module ∈ s.stack, Relation.ReflTransGen (Imports sources) entry module
  reports : ∀ diagnostic ∈ s.diagnostics, diagnostic.code = .cycle →
    ImportCycle sources diagnostic.modules ∧
      ∃ module ∈ diagnostic.modules, Relation.ReflTransGen (Imports sources) entry module

/-- The module may be visited next, below the modules of a stack. -/
structure NextOf (sources : Sources) (entry : String) (stack : List String) (module : String) :
    Prop where
  imported : ∀ last ∈ stack.getLast?, Imports sources last module
  reached : Relation.ReflTransGen (Imports sources) entry module

section Trail

variable {entry : String}

theorem Trail.diagnostic {s : GraphBuilder} (h : Trail sources entry s)
    {code : ModuleDiagnosticCode} (hcode : code ≠ .cycle) (message module : String) :
    Trail sources entry (s.diagnostic code message module) where
  visiting := h.visiting
  chain := h.chain
  reached := h.reached
  reports diagnostic hmem heq := by
    rcases List.mem_append.mp hmem with hmem | hmem
    · exact h.reports diagnostic hmem heq
    · rw [List.mem_singleton.mp hmem] at heq
      exact absurd heq hcode

theorem Trail.parseDiagnostics {s : GraphBuilder} (h : Trail sources entry s)
    (module : String) (diagnostics : List ParseDiagnostic) :
    Trail sources entry (s.parseDiagnostics module diagnostics) ∧
      (s.parseDiagnostics module diagnostics).stack = s.stack := by
  induction diagnostics generalizing s with
  | nil => exact ⟨h, rfl⟩
  | cons diagnostic diagnostics ih => exact ih (h.diagnostic (by decide) diagnostic.message module)

theorem drop_idxOf {module : String} {stack : List String} (h : module ∈ stack) :
    ∃ after, stack.drop ((stack.idxOf? module).getD 0) = module :: after := by
  cases hindex : stack.idxOf? module with
  | none => exact absurd h (List.idxOf?_eq_none_iff.mp hindex)
  | some index =>
    obtain ⟨hlt, hmodule, _⟩ := List.idxOf?_eq_some_iff.mp hindex
    refine ⟨stack.drop (index + 1), ?_⟩
    rw [Option.getD_some, List.drop_eq_getElem_cons hlt, hmodule]

theorem Trail.importCycle {s : GraphBuilder} (h : Trail sources entry s) {module : String}
    (hnext : NextOf sources entry s.stack module) (hmem : module ∈ s.stack) :
    ImportCycle sources (s.stack.drop ((s.stack.idxOf? module).getD 0) ++ [module]) := by
  have hchain := h.chain.drop ((s.stack.idxOf? module).getD 0)
  have hsuffix := List.drop_suffix ((s.stack.idxOf? module).getD 0) s.stack
  obtain ⟨after, hdrop⟩ := drop_idxOf hmem
  rw [hdrop] at hchain hsuffix ⊢
  refine ⟨?_, ?_, hchain.append (List.isChain_singleton module) fun last hlast other hother => ?_⟩
  · rw [List.length_append, List.length_cons, List.length_singleton]
    omega
  · rw [List.getLast?_concat]
    rfl
  · rw [← Option.some_inj.mp hother]
    refine hnext.imported last ?_
    obtain ⟨before, hbefore⟩ := hsuffix
    rw [← hbefore, List.getLast?_append_of_ne_nil _ (List.cons_ne_nil _ _)]
    exact hlast

theorem Trail.reportCycle {s : GraphBuilder} (h : Trail sources entry s) {module : String}
    (hnext : NextOf sources entry s.stack module) (hmem : module ∈ s.stack) :
    Trail sources entry (s.reportCycle module) where
  visiting := h.visiting
  chain := h.chain
  reached := h.reached
  reports diagnostic hdiagnostic heq := by
    rcases List.mem_append.mp hdiagnostic with hdiagnostic | hdiagnostic
    · exact h.reports diagnostic hdiagnostic heq
    · rw [List.mem_singleton.mp hdiagnostic]
      exact ⟨h.importCycle hnext hmem, module, List.mem_append_right _ List.mem_cons_self,
        hnext.reached⟩

theorem Trail.enter {s : GraphBuilder} (h : Trail sources entry s) {module : String}
    (hnext : NextOf sources entry s.stack module) : Trail sources entry (s.enter module) where
  visiting other := by
    change (s.states.insert module .visiting)[other]? = _ ↔ other ∈ s.stack ++ [module]
    rw [getElem?_states_insert, List.mem_append, List.mem_singleton, ← h.visiting]
    by_cases heq : module = other
    · subst heq
      rw [if_pos rfl]
      simp only [or_true]
    · rw [if_neg heq, or_iff_left (Ne.symm heq)]
  chain := by
    refine h.chain.append (List.isChain_singleton module) fun last hlast other hother => ?_
    rw [← Option.some_inj.mp hother]
    exact hnext.imported last hlast
  reached other hmem := by
    rcases List.mem_append.mp hmem with hmem | hmem
    · exact h.reached other hmem
    · rw [List.mem_singleton.mp hmem]
      exact hnext.reached
  reports := h.reports

theorem Trail.leave {t : GraphBuilder} (h : Trail sources entry t) {stack : List String}
    {record : ModuleRecord} (hstack : t.stack = stack ++ [record.specifier])
    (hnew : record.specifier ∉ stack) :
    Trail sources entry (t.leave record) ∧ (t.leave record).stack = stack := by
  have hleft : (t.leave record).stack = stack := by
    change t.stack.dropLast = stack
    rw [hstack, List.dropLast_concat]
  refine ⟨⟨fun other => ?_, ?_, fun other hmem => h.reached other ?_, h.reports⟩, hleft⟩
  · rw [hleft]
    change (t.states.insert record.specifier .visited)[other]? = _ ↔ _
    rw [getElem?_states_insert]
    by_cases heq : record.specifier = other
    · subst heq
      rw [if_pos rfl]
      exact iff_of_false nofun hnew
    · rw [if_neg heq, h.visiting, hstack, List.mem_append, List.mem_singleton,
        or_iff_left (Ne.symm heq)]
  · exact h.chain.dropLast
  · exact List.dropLast_subset _ hmem

theorem visitBody_trail {visit : String → GraphBuilder → Option GraphBuilder} (stack : List String)
    (hvisit : ∀ module s s', visit module s = some s' → Trail sources entry s → s.stack = stack →
      NextOf sources entry stack module → Trail sources entry s' ∧ s'.stack = stack)
    {body : List Statement} {record record' : ModuleRecord} {s s' : GraphBuilder}
    (h : visitBody visit body record s = some (record', s')) (htrail : Trail sources entry s)
    (hstack : s.stack = stack)
    (hnext : ∀ target, TargetOf record.specifier body target → NextOf sources entry stack target) :
    Trail sources entry s' ∧ s'.stack = stack := by
  induction body generalizing record s with
  | nil =>
    obtain ⟨rfl, rfl⟩ := Prod.mk.inj (Option.some.inj h)
    exact ⟨htrail, hstack⟩
  | cons statement body ih =>
    have hrest : ∀ target, TargetOf record.specifier body target →
        NextOf sources entry stack target := fun target htarget => hnext target htarget.cons
    cases statement with
    | «import» declaration span =>
      rw [visitBody] at h
      cases hresolve : resolveImport record.specifier declaration with
      | error message =>
        simp only [hresolve] at h
        exact ih h (htrail.diagnostic (by decide) message record.specifier) hstack hrest
      | ok resolved =>
        simp only [hresolve, Option.bind_eq_bind] at h
        obtain ⟨t, hcall, hloop⟩ := Option.bind_eq_some_iff.mp h
        obtain ⟨htrail', hstack'⟩ := hvisit resolved s t hcall htrail hstack
          (hnext resolved ⟨declaration, span, List.mem_cons_self, hresolve⟩)
        exact ih hloop htrail' hstack' hrest
    | «export» inner span => exact ih h htrail hstack hrest
    | _ => exact ih h htrail hstack hrest

theorem visit_trail {depth : ℕ} {module : String} {s s' : GraphBuilder}
    (h : visit sources depth module s = some s') (htrail : Trail sources entry s)
    (hnext : NextOf sources entry s.stack module) :
    Trail sources entry s' ∧ s'.stack = s.stack := by
  induction depth generalizing module s s' with
  | zero => cases h
  | succ depth ih =>
    rw [visit] at h
    cases hstate : s.states[module]? with
    | some state =>
      cases state with
      | visited =>
        simp only [hstate, Option.some.injEq] at h
        subst h
        exact ⟨htrail, rfl⟩
      | visiting =>
        simp only [hstate, Option.some.injEq] at h
        subst h
        exact ⟨htrail.reportCycle hnext ((htrail.visiting module).mp hstate), rfl⟩
    | none =>
      cases hsource : sources[module]? with
      | none =>
        simp only [hstate, hsource, Option.some.injEq] at h
        subst h
        exact ⟨htrail.diagnostic (by decide) _ module, rfl⟩
      | some source =>
        simp only [hstate, hsource, Option.bind_eq_bind] at h
        obtain ⟨⟨record, t⟩, hbody, hleave⟩ := Option.bind_eq_some_iff.mp h
        have hs' : t.leave record = s' := Option.some.inj hleave
        subst hs'
        have hnew : module ∉ s.stack := fun hmem => by
          rw [← htrail.visiting, hstate] at hmem
          cases hmem
        obtain ⟨hparsed, hstack⟩ := (htrail.enter hnext).parseDiagnostics module
          (parseSource source).diagnostics
        obtain ⟨htrail', hstack'⟩ := visitBody_trail (s.stack ++ [module])
          (fun other u u' hcall hu hustack hother => by
            obtain ⟨hu', hsame⟩ := ih hcall hu (by rw [hustack]; exact hother)
            exact ⟨hu', hsame.trans hustack⟩)
          hbody hparsed hstack fun target htarget => by
            have hedge : Imports sources module target := ⟨source, hsource, htarget⟩
            refine ⟨fun last hlast => ?_, hnext.reached.tail hedge⟩
            rw [List.getLast?_concat] at hlast
            rw [← Option.some_inj.mp hlast]
            exact hedge
        have hspecifier := (visitBody_record hbody).1
        rw [← show record.specifier = module from hspecifier] at hstack' hnew
        exact htrail'.leave hstack' hnew

theorem trail_new (entry : String) : Trail sources entry .new where
  visiting _ := iff_of_false nofun List.not_mem_nil
  chain := .nil
  reached := fun _ h => absurd h List.not_mem_nil
  reports := fun _ h => absurd h List.not_mem_nil

end Trail

def Links (sources : Sources) (module other : String) : Prop :=
  Imports sources module other ∧ other ∈ sources

/-- The finished modules, each after the modules it imports. -/
structure Settled (sources : Sources) (s : GraphBuilder) : Prop where
  visited : ∀ module, s.states[module]? = some .visited ↔ module ∈ s.order
  nodup : s.order.Nodup
  ordered : Ordered (Links sources) s.order

/-- What a search that reports no cycle does for its targets. -/
structure Settles (sources : Sources) (targets : String → Prop) (s s' : GraphBuilder) : Prop where
  settled : Settled sources s'
  order_grows : s.order <+: s'.order
  visiting : ∀ module : String,
    s'.states[module]? = some VisitState.visiting ↔ s.states[module]? = some VisitState.visiting
  finished : ∀ target ∈ sources, targets target → target ∈ s'.order

theorem Settles.refl {s : GraphBuilder} (h : Settled sources s) {targets : String → Prop}
    (htargets : ∀ target ∈ sources, targets target → target ∈ s.order) :
    Settles sources targets s s := ⟨h, List.prefix_refl _, fun _ => Iff.rfl, htargets⟩

theorem Settles.trans {targets targets' goals : String → Prop} {s t s' : GraphBuilder}
    (h : Settles sources targets s t) (h' : Settles sources targets' t s')
    (hgoals : ∀ target, goals target → targets target ∨ targets' target) :
    Settles sources goals s s' where
  settled := h'.settled
  order_grows := h.order_grows.trans h'.order_grows
  visiting module := (h'.visiting module).trans (h.visiting module)
  finished target hsource htarget := (hgoals target htarget).elim
    (fun htarget => h'.order_grows.subset (h.finished target hsource htarget))
    (h'.finished target hsource)

theorem Settles.congr {targets goals : String → Prop} {s s' : GraphBuilder}
    (h : Settles sources targets s s') (hgoals : ∀ target, goals target → targets target) :
    Settles sources goals s s' :=
  ⟨h.settled, h.order_grows, h.visiting, fun target hsource htarget =>
    h.finished target hsource (hgoals target htarget)⟩

theorem Reports.mono {diagnostics diagnostics' : List ModuleDiagnostic} (h : Reports diagnostics)
    (hgrows : diagnostics <+: diagnostics') : Reports diagnostics' := by
  obtain ⟨diagnostic, hmem, hcode⟩ := h
  exact ⟨diagnostic, hgrows.subset hmem, hcode⟩

theorem visitBody_settles {visit : String → GraphBuilder → Option GraphBuilder}
    (hgrowing : ∀ module s s', visit module s = some s' → s.diagnostics <+: s'.diagnostics)
    (hvisit : ∀ module s s', visit module s = some s' → ¬Reports s'.diagnostics →
      Settled sources s → Settles sources (fun target => target = module) s s')
    {body : List Statement} {record record' : ModuleRecord} {s s' : GraphBuilder}
    (h : visitBody visit body record s = some (record', s')) (hsilent : ¬Reports s'.diagnostics)
    (hsettled : Settled sources s) : Settles sources (TargetOf record.specifier body) s s' := by
  induction body generalizing record s with
  | nil =>
    obtain ⟨rfl, rfl⟩ := Prod.mk.inj (Option.some.inj h)
    refine .refl hsettled fun target _ htarget => ?_
    obtain ⟨declaration, span, hmem, _⟩ := htarget
    exact absurd hmem List.not_mem_nil
  | cons statement body ih =>
    cases statement with
    | «import» declaration span =>
      rw [visitBody] at h
      cases hresolve : resolveImport record.specifier declaration with
      | error message =>
        simp only [hresolve] at h
        have hloop := @ih record
          (s.diagnostic .unsupportedSpecifier message record.specifier) h ⟨hsettled.1, hsettled.2, hsettled.3⟩
        have hloop' : Settles sources (TargetOf record.specifier body) s s' :=
          ⟨hloop.settled, hloop.order_grows, hloop.visiting, hloop.finished⟩
        refine hloop'.congr fun target => (targetOf_cons_other ?_).mp
        intro declaration' span' heq hresolve'
        rw [Statement.import.injEq] at heq
        rw [← heq.1, hresolve] at hresolve'
        cases hresolve'
      | ok resolved =>
        simp only [hresolve, Option.bind_eq_bind] at h
        obtain ⟨t, hcall, hrest⟩ := Option.bind_eq_some_iff.mp h
        have hmiddle : ¬Reports t.diagnostics := fun hreports =>
          hsilent (hreports.mono (visitBody_grows hgrowing hrest))
        have hfirst := hvisit resolved s t hcall hmiddle hsettled
        refine hfirst.trans (ih hrest hfirst.settled) fun target htarget => ?_
        obtain ⟨declaration', span', hmem, hresolve'⟩ := htarget
        rcases List.mem_cons.mp hmem with heq | hmem
        · rw [Statement.import.injEq] at heq
          rw [heq.1, hresolve] at hresolve'
          exact .inl (Except.ok.inj hresolve').symm
        · exact .inr ⟨declaration', span', hmem, hresolve'⟩
    | «export» inner span =>
      exact (ih h hsettled).congr fun target => Iff.mp (targetOf_cons_other fun _ _ heq => by cases heq)
    | _ =>
      exact (ih h hsettled).congr fun target => Iff.mp (targetOf_cons_other fun _ _ heq => by cases heq)

theorem parseDiagnostics_order (module : String) (diagnostics : List ParseDiagnostic)
    (s : GraphBuilder) : (s.parseDiagnostics module diagnostics).order = s.order := by
  induction diagnostics generalizing s with
  | nil => rfl
  | cons diagnostic diagnostics ih => exact ih _

theorem Settled.enter {s : GraphBuilder} (h : Settled sources s) {module : String}
    (hnew : s.states[module]? = none) (diagnostics : List ParseDiagnostic) :
    Settled sources ((s.enter module).parseDiagnostics module diagnostics) where
  visited other := by
    rw [states_parseDiagnostics, parseDiagnostics_order]
    change (s.states.insert module .visiting)[other]? = _ ↔ other ∈ s.order
    rw [getElem?_states_insert, ← h.visited]
    by_cases heq : module = other
    · subst heq
      rw [if_pos rfl, hnew]
      simp only [Option.some.injEq, reduceCtorEq]
    · rw [if_neg heq]
  nodup := by
    rw [parseDiagnostics_order]
    exact h.nodup
  ordered := by
    rw [parseDiagnostics_order]
    exact h.ordered

theorem Settled.leave {t : GraphBuilder} (h : Settled sources t) {source : String}
    {record : ModuleRecord} (hvisiting : t.states[record.specifier]? = some .visiting)
    (hsource : sources[record.specifier]? = some source)
    (hfinished : ∀ other ∈ sources,
      TargetOf record.specifier (parseSource source).program.body other → other ∈ t.order) :
    Settled sources (t.leave record) where
  visited other := by
    change (t.states.insert record.specifier .visited)[other]? = _ ↔
      other ∈ t.order ++ [record.specifier]
    rw [getElem?_states_insert, List.mem_append, List.mem_singleton, ← h.visited]
    by_cases heq : record.specifier = other
    · subst heq
      rw [if_pos rfl]
      simp only [or_true]
    · rw [if_neg heq, or_iff_left (Ne.symm heq)]
  nodup := by
    change (t.order ++ [record.specifier]).Nodup
    rw [← List.concat_eq_append]
    refine h.nodup.concat fun hmem => ?_
    rw [← h.visited, hvisiting] at hmem
    exact absurd hmem nofun
  ordered := by
    refine h.ordered.snoc fun other hother => hfinished other hother.2 ?_
    obtain ⟨source', hsource', htarget⟩ := hother.1
    rw [hsource] at hsource'
    rw [Option.some.inj hsource']
    exact htarget

theorem visit_settles {depth : ℕ} {module : String} {s s' : GraphBuilder}
    (h : visit sources depth module s = some s') (hsilent : ¬Reports s'.diagnostics)
    (hsettled : Settled sources s) : Settles sources (fun target => target = module) s s' := by
  induction depth generalizing module s s' with
  | zero => cases h
  | succ depth ih =>
    rw [visit] at h
    cases hstate : s.states[module]? with
    | some state =>
      cases state with
      | visited =>
        simp only [hstate, Option.some.injEq] at h
        subst h
        refine .refl hsettled fun target _ htarget => ?_
        rw [htarget, ← hsettled.visited]
        exact hstate
      | visiting =>
        simp only [hstate, Option.some.injEq] at h
        subst h
        exact absurd ⟨_, List.mem_append_right _ List.mem_cons_self, rfl⟩ hsilent
    | none =>
      cases hsource : sources[module]? with
      | none =>
        simp only [hstate, hsource, Option.some.injEq] at h
        subst h
        refine ⟨⟨hsettled.1, hsettled.2, hsettled.3⟩, List.prefix_refl _, fun _ => Iff.rfl,
          fun target hmem htarget => ?_⟩
        rw [htarget, Std.TreeMap.mem_iff_isSome_getElem?, hsource] at hmem
        cases hmem
      | some source =>
        simp only [hstate, hsource, Option.bind_eq_bind] at h
        obtain ⟨⟨record, t⟩, hbody, hleave⟩ := Option.bind_eq_some_iff.mp h
        have hs' : t.leave record = s' := Option.some.inj hleave
        subst hs'
        have hcalls : ∀ other s s', visit sources depth other s = some s' →
            s.diagnostics <+: s'.diagnostics := fun _ _ _ => visit_grows
        have hspecifier : record.specifier = module := (visitBody_record hbody).1
        have hloop := visitBody_settles hcalls (fun _ _ _ => ih) hbody hsilent
          (hsettled.enter hstate (parseSource source).diagnostics)
        have hentered : ∀ other : String, t.states[other]? = some VisitState.visiting ↔
            (s.states.insert module .visiting)[other]? = some VisitState.visiting := by
          intro other
          rw [hloop.visiting, states_parseDiagnostics]
          rfl
        have hgrows := hloop.order_grows
        rw [parseDiagnostics_order] at hgrows
        have hvisiting : t.states[module]? = some .visiting := by
          rw [hentered, getElem?_states_insert, if_pos rfl]
        rw [← hspecifier] at hvisiting hsource
        have hfinished := hloop.finished
        simp only at hfinished
        rw [← hspecifier] at hfinished
        refine ⟨hloop.settled.leave hvisiting hsource hfinished, hgrows.trans (List.prefix_append _ _),
          fun other => ?_, fun target _ htarget => ?_⟩
        · change (t.states.insert record.specifier .visited)[other]? = _ ↔ _
          rw [getElem?_states_insert, hspecifier]
          by_cases heq : module = other
          · subst heq
            rw [if_pos rfl, hstate]
            simp only [Option.some.injEq, reduceCtorEq]
          · rw [if_neg heq, hentered, getElem?_states_insert, if_neg heq]
        · change target ∈ t.order ++ [record.specifier]
          rw [htarget, hspecifier]
          exact List.mem_append_right _ List.mem_cons_self

theorem settled_new (sources : Sources) : Settled sources .new where
  visited _ := ⟨fun h => absurd h nofun, fun h => absurd h List.not_mem_nil⟩
  nodup := List.nodup_nil
  ordered := .nil

theorem mem_of_imports {module other : String} (h : Imports sources module other) :
    module ∈ sources := by
  obtain ⟨source, hsource, _⟩ := h
  rw [Std.TreeMap.mem_iff_isSome_getElem?, hsource]
  rfl

theorem links_of_imports {module other : String}
    (h : Relation.TransGen (Imports sources) module other) (hother : other ∈ sources) :
    Relation.TransGen (Links sources) module other := by
  induction h with
  | single hedge => exact .single ⟨hedge, hother⟩
  | tail _ hedge ih => exact (ih (mem_of_imports hedge)).tail ⟨hedge, hother⟩

theorem reached_of_imports {module other : String}
    (h : Relation.ReflTransGen (Imports sources) module other) (hother : other ∈ sources) :
    module ∈ sources ∧ Relation.ReflTransGen (Links sources) module other := by
  induction h with
  | refl => exact ⟨hother, .refl⟩
  | tail _ hedge ih =>
    obtain ⟨hmodule, hreach⟩ := ih (mem_of_imports hedge)
    exact ⟨hmodule, hreach.tail ⟨hedge, hother⟩⟩

theorem transGen_of_isChain {a b : String} {path : List String}
    (h : (a :: b :: path).IsChain (Imports sources)) {last : String}
    (hlast : (b :: path).getLast? = some last) : Relation.TransGen (Imports sources) a last := by
  induction path generalizing a b with
  | nil =>
    rw [← Option.some_inj.mp hlast]
    exact .single (List.isChain_cons_cons.mp h).1
  | cons c path ih =>
    obtain ⟨hedge, hchain⟩ := List.isChain_cons_cons.mp h
    exact .head hedge (ih hchain hlast)

theorem ImportCycle.transGen {path : List String} (h : ImportCycle sources path) {module : String}
    (hmem : module ∈ path) : Relation.TransGen (Imports sources) module module := by
  obtain ⟨before, after, rfl⟩ := List.append_of_mem hmem
  have hchain := h.imports
  have hclosed := h.closed
  -- the way from the head to the entry, and the way from the entry to the last
  have hhead : ∀ head rest, before = head :: rest → Relation.TransGen (Imports sources) head module := by
    rintro head rest rfl
    rw [List.append_cons] at hchain
    have hpath := hchain.left_of_append
    cases rest with
    | nil => exact transGen_of_isChain hpath rfl
    | cons next rest => exact transGen_of_isChain hpath (@List.getLast?_concat _ (next :: rest) module)
  have hlast : ∀ next rest, after = next :: rest → ∀ last, (module :: after).getLast? = some last →
      Relation.TransGen (Imports sources) module last := by
    rintro next rest rfl last hend
    exact transGen_of_isChain hchain.right_of_append hend
  rw [List.getLast?_append_of_ne_nil _ (List.cons_ne_nil _ _)] at hclosed
  cases before with
  | nil =>
    cases after with
    | nil => exact absurd h.long (Nat.not_succ_le_self 1)
    | cons next rest => exact hlast next rest rfl module hclosed.symm
  | cons head rest =>
    cases after with
    | nil =>
      have heq : head = module := Option.some_inj.mp hclosed
      have hpath := hhead head rest rfl
      rw [heq] at hpath
      exact hpath
    | cons next rest' => exact (hlast next rest' rfl head hclosed.symm).trans (hhead head rest rfl)

/-- The import graph that the entry reaches has a cycle. -/
def Cyclic (sources : Sources) (entry : String) : Prop :=
  ∃ module, Relation.ReflTransGen (Imports sources) entry module ∧
    Relation.TransGen (Imports sources) module module

theorem search_reports_iff (sources : Sources) (entry : String) :
    Reports (search sources entry).diagnostics ↔ Cyclic sources entry := by
  have hvisit := visit_search sources entry
  constructor
  · rintro ⟨diagnostic, hmem, hcode⟩
    have htrail := (visit_trail hvisit (trail_new entry) ⟨fun _ h => (nomatch h), .refl⟩).1
    obtain ⟨hcycle, module, hmodule, hreach⟩ := htrail.reports diagnostic hmem hcode
    exact ⟨module, hreach, hcycle.transGen hmodule⟩
  · rintro ⟨module, hreach, hcycle⟩
    by_contra hsilent
    have hsettles := visit_settles hvisit hsilent (settled_new sources)
    obtain ⟨_, hedge, _⟩ := Relation.TransGen.head'_iff.mp hcycle
    have hmodule := mem_of_imports hedge
    obtain ⟨hentry, hreach⟩ := reached_of_imports hreach hmodule
    have hmem := hsettles.settled.ordered.mem_of_reachable (hsettles.finished entry hentry rfl) hreach
    exact Ordered.acyclic hsettles.settled.ordered hsettles.settled.nodup hmem
      (links_of_imports hcycle hmodule)

/-- A cycle is reported exactly where there is one, and what is reported is one. -/
theorem bundleModuleGraph_cycles (entry : String) (sources : Sources) :
    ((∃ diagnostics, bundleModuleGraph entry sources = .error diagnostics ∧ Reports diagnostics) ↔
      Cyclic sources (normalizeEntry entry)) ∧
    ∀ diagnostics, bundleModuleGraph entry sources = .error diagnostics →
      ∀ diagnostic ∈ diagnostics, diagnostic.code = .cycle →
        ImportCycle sources diagnostic.modules := by
  have hreports := search_reports_iff sources (normalizeEntry entry)
  have htrail := (visit_trail (visit_search sources (normalizeEntry entry))
    (trail_new (normalizeEntry entry)) ⟨fun _ h => (nomatch h), .refl⟩).1
  unfold bundleModuleGraph
  simp only
  cases hempty : (search sources (normalizeEntry entry)).diagnostics.isEmpty with
  | true =>
    rw [if_pos rfl]
    have hnone := List.isEmpty_iff.mp hempty
    refine ⟨iff_of_false (fun h => ?_) fun hcyclic => ?_, fun _ h => nomatch h⟩
    · obtain ⟨diagnostics, heq, _⟩ := h
      exact nomatch heq
    · obtain ⟨diagnostic, hmem, _⟩ := hreports.mpr hcyclic
      rw [hnone] at hmem
      exact absurd hmem List.not_mem_nil
  | false =>
    rw [if_neg Bool.false_ne_true]
    refine ⟨⟨fun h => ?_, fun hcyclic => ⟨_, rfl, hreports.mpr hcyclic⟩⟩, fun diagnostics h => ?_⟩
    · obtain ⟨diagnostics, heq, h⟩ := h
      rw [← Except.error.inj heq] at h
      exact hreports.mp h
    · rw [← Except.error.inj h]
      exact fun diagnostic hmem hcode => (htrail.reports diagnostic hmem hcode).1

def pair : Sources := .ofList [
  ("/a.ts", "import { b } from './b.ts'; export const a = 1;"),
  ("/b.ts", "import { a } from './a.ts'; export const b = 2;")]

theorem bundleModuleGraph_cycles_pair : Cyclic pair "/a.ts" ∧ ∃ diagnostics,
    bundleModuleGraph "a.ts" pair = .error diagnostics ∧
      ∀ diagnostic ∈ diagnostics, diagnostic.code = .cycle → ImportCycle pair diagnostic.modules := by
  have hreport : (match bundleModuleGraph "a.ts" pair with
      | .ok _ => false
      | .error diagnostics => diagnostics.any fun diagnostic => diagnostic.code = .cycle) = true := by
    decide +kernel
  cases hbundle : bundleModuleGraph "a.ts" pair with
  | ok graph =>
    rw [hbundle] at hreport
    exact nomatch hreport
  | error diagnostics =>
    rw [hbundle] at hreport
    obtain ⟨diagnostic, hmem, hcode⟩ := List.any_eq_true.mp hreport
    obtain ⟨hiff, hgenuine⟩ := bundleModuleGraph_cycles "a.ts" pair
    exact ⟨hiff.mp ⟨diagnostics, hbundle, diagnostic, hmem, of_decide_eq_true hcode⟩, diagnostics, rfl,
      hgenuine diagnostics hbundle⟩

end Tsvm.ModuleCycles
