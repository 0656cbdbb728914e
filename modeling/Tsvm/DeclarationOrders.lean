import Tsvm.RelocatedChecks
import Tsvm.TopLevelFunctions

set_option autoImplicit false

/-!
# The order of the declarations

The types of a program are resolved while its declarations are collected, so a
declaration can only name the types that stand before it. Once all of them are
collected nothing depends on their order any more.
-/
namespace Tsvm.DeclarationOrders
open Ast Semantic AnalyzerSteps TopLevelFunctions RelocatedChecks
open Parsing (parseSource)

def isDeclaration : Statement → Bool
  | .interface _ _ | .typeAlias _ _ | .class _ _ | .function _ _ => true
  | .export inner _ => isDeclaration inner
  | _ => false

def declaredType : Statement → Option String
  | .interface declaration _ => some declaration.name
  | .typeAlias declaration _ => some declaration.name
  | .class declaration _ => some declaration.name
  | .export inner _ => declaredType inner
  | _ => none

def declaredFunction : Statement → Option String
  | .function declaration _ => some declaration.name
  | .export inner _ => declaredFunction inner
  | _ => none

def declaredName (statement : Statement) : Option String :=
  (declaredType statement).or (declaredFunction statement)

mutual

def typeNames : TypeNode → List String
  | .named name _ => [name]
  | .array inner _ => typeNames inner
  | .object members _ => memberTypeNames members
  | _ => []

def memberTypeNames : List TypeMember → List String
  | [] => []
  | .mk _ ty _ :: members => typeNames ty ++ memberTypeNames members

end

def optionalTypeNames : Option TypeNode → List String
  | some ty => typeNames ty
  | none => []

def annotationNames : Statement → List String
  | .interface declaration _ => memberTypeNames declaration.members
  | .typeAlias declaration _ => typeNames declaration.ty
  | .class declaration _ => declaration.members.flatMap fun member => optionalTypeNames member.ty
  | .function declaration _ =>
    (declaration.params.flatMap fun param => optionalTypeNames param.ty) ++
      optionalTypeNames declaration.returnType
  | .export inner _ => annotationNames inner
  | _ => []

/-- Every declaration names only types that are known or declared before it. -/
def Backward : List String → List Statement → Prop
  | _, [] => True
  | known, statement :: body =>
    (∀ name ∈ annotationNames statement, name ∈ known) ∧
      Backward ((declaredType statement).toList ++ known) body

def Knows (names : List String) (s : Analyzer) : Prop :=
  ∀ name ∈ names, (s.typeBindings.lookup name).isSome = true

def AgreeOn (names : List String) (s s' : Analyzer) : Prop :=
  ∀ name ∈ names, s.typeBindings.lookup name = s'.typeBindings.lookup name

/-- `f` resolves an annotation with these type names. -/
structure Resolves {α : Type} (f : Analyzer → α × Analyzer) (names : List String) : Prop where
  reports : ∀ s, Reports s (f s).2
  quiet : ∀ s, (f s).2.diagnostics = [] ↔ s.diagnostics = [] ∧ Knows names s
  congr : ∀ s s', AgreeOn names s s' → (f s).1 = (f s').1

namespace Resolves

variable {α β : Type} {f : Analyzer → α × Analyzer} {names names' : List String}

theorem of_eq {g : Analyzer → α × Analyzer} (hg : Resolves g names) (h : ∀ s, f s = g s) :
    Resolves f names := by
  rw [funext h]
  exact hg

theorem pure (a : α) : Resolves (fun s => (a, s)) [] where
  reports s := .refl s
  quiet s := by simp [Knows]
  congr _ _ _ := rfl

theorem bind {g : α → Analyzer → β × Analyzer} (hf : Resolves f names)
    (hg : ∀ a, Resolves (g a) names') :
    Resolves (fun s => g (f s).1 (f s).2) (names ++ names') where
  reports s := (hf.reports s).trans ((hg _).reports _)
  quiet s := by
    have hbindings := (hf.reports s).typeBindings
    rw [(hg _).quiet, hf.quiet]
    simp only [Knows, List.forall_mem_append, hbindings]
    tauto
  congr s s' h := by
    have hfirst := hf.congr s s' fun name hname => h name (List.mem_append_left _ hname)
    rw [hfirst]
    apply (hg _).congr
    intro name hname
    rw [(hf.reports s).typeBindings, (hf.reports s').typeBindings]
    exact h name (List.mem_append_right _ hname)

theorem map (hf : Resolves f names) (k : α → β) :
    Resolves (fun s => (k (f s).1, (f s).2)) names where
  reports := hf.reports
  quiet := hf.quiet
  congr s s' h := congrArg k (hf.congr s s' h)

end Resolves

mutual

theorem resolveTypeNode_resolves (ty : TypeNode) : Resolves (resolveTypeNode ty) (typeNames ty) := by
  cases ty with
  | named name span =>
    have hknows (s : Analyzer) : Knows (typeNames (.named name span)) s ↔
        (s.typeBindings.lookup name).isSome = true := by
      simp only [Knows, typeNames, List.mem_singleton, forall_eq]
    refine ⟨resolveTypeNode_reports _, fun s => ?_, fun s s' h => ?_⟩
    · rw [hknows, resolveTypeNode]
      cases hlookup : s.typeBindings.lookup name with
      | none => simp [Analyzer.diagnostic]
      | some ty => simp
    · rw [resolveTypeNode, resolveTypeNode, h name (by simp [typeNames])]
      cases s'.typeBindings.lookup name with
      | none => rfl
      | some ty => rfl
  | array inner span =>
    exact ((resolveTypeNode_resolves inner).map Ty.array).of_eq fun s => by rw [resolveTypeNode]
  | object members span =>
    exact ((resolveTypeMembers_resolves members).map fun fields =>
      Ty.object (collectFields fields)).of_eq fun s => by rw [resolveTypeNode]
  | number | string | boolean | null | undefined =>
    exact (Resolves.pure _).of_eq fun s => by rw [resolveTypeNode]

theorem resolveTypeMembers_resolves (members : List TypeMember) :
    Resolves (resolveTypeMembers members) (memberTypeNames members) := by
  match members with
  | [] => exact (Resolves.pure []).of_eq fun s => by rw [resolveTypeMembers]
  | .mk name ty span :: members =>
    have hmembers (ty : Ty) := (resolveTypeMembers_resolves members).map fun fields =>
      (name, ty) :: fields
    exact ((resolveTypeNode_resolves ty).bind hmembers).of_eq fun s => by rw [resolveTypeMembers]

end

theorem resolveOptionalType_resolves (default : Ty) (ty : Option TypeNode) :
    Resolves (resolveOptionalType default ty) (optionalTypeNames ty) := by
  cases ty with
  | none => exact .pure default
  | some ty => exact resolveTypeNode_resolves ty

theorem resolveParams_resolves (params : List Parameter) :
    Resolves (resolveParams params) (params.flatMap fun param => optionalTypeNames param.ty) := by
  induction params with
  | nil => exact .pure []
  | cons param params ih =>
    exact (resolveOptionalType_resolves .unknown param.ty).bind fun ty => ih.map (ty :: ·)

theorem resolveClassMembers_resolves (members : List ClassMember) :
    Resolves (resolveClassMembers members)
      (members.flatMap fun member => optionalTypeNames member.ty) := by
  induction members with
  | nil => exact .pure []
  | cons member members ih =>
    exact (resolveOptionalType_resolves .unknown member.ty).bind fun ty =>
      ih.map ((member.name, ty) :: ·)

def resolveDeclaration : Statement → Analyzer → Ty × Analyzer
  | .interface declaration _, s =>
    let (fields, s) := resolveTypeMembers declaration.members s
    (.object (collectFields fields), s)
  | .typeAlias declaration _, s => resolveTypeNode declaration.ty s
  | .class declaration _, s =>
    let (fields, s) := resolveClassMembers declaration.members s
    (.object (collectFields fields), s)
  | .function declaration _, s =>
    let (params, s) := resolveParams declaration.params s
    let (returnType, s) := resolveOptionalType .undefined declaration.returnType s
    (.function params returnType false, s)
  | .export inner _, s => resolveDeclaration inner s
  | _, s => (.unknown, s)

theorem resolveDeclaration_resolves (statement : Statement) :
    Resolves (resolveDeclaration statement) (annotationNames statement) := by
  fun_induction annotationNames statement with
  | case1 declaration span =>
    exact (resolveTypeMembers_resolves _).map fun fields => Ty.object (collectFields fields)
  | case2 declaration span => exact resolveTypeNode_resolves _
  | case3 declaration span =>
    exact (resolveClassMembers_resolves _).map fun fields => Ty.object (collectFields fields)
  | case4 declaration span =>
    exact (resolveParams_resolves _).bind fun params =>
      (resolveOptionalType_resolves .undefined declaration.returnType).map fun returnType =>
        Ty.function params returnType false
  | case5 inner span ih => exact ih
  | case6 statement =>
    refine (Resolves.pure Ty.unknown).of_eq fun s => ?_
    cases statement <;> simp_all [resolveDeclaration]

theorem collect_type {statement : Statement} {name : String} (h : declaredType statement = some name)
    (s : Analyzer) : ∃ kind span, collectStatementSymbol statement s =
      (resolveDeclaration statement s).2.defineType name (resolveDeclaration statement s).1 kind
        span := by
  fun_induction declaredType statement with
  | case4 inner span ih =>
    rw [collectStatementSymbol]
    exact ih h
  | case5 => cases h
  | _ =>
    cases h
    exact ⟨_, _, rfl⟩

theorem collect_function {statement : Statement} {name : String}
    (h : declaredFunction statement = some name) (s : Analyzer) :
    ∃ span binding, collectStatementSymbol statement s =
      let t := (resolveDeclaration statement s).2.defineValue name (resolveDeclaration statement s).1
        .function (some span)
      { t with functions := t.functions ++ [binding] } := by
  fun_induction declaredFunction statement with
  | case2 inner span ih =>
    rw [collectStatementSymbol]
    exact ih h
  | case3 => cases h
  | _ =>
    cases h
    exact ⟨_, _, rfl⟩

theorem collect_other {statement : Statement} (htype : declaredType statement = none)
    (hfunction : declaredFunction statement = none) (s : Analyzer) :
    collectStatementSymbol statement s = s := by
  fun_induction declaredType statement with
  | case4 inner span ih =>
    rw [collectStatementSymbol]
    exact ih htype hfunction
  | case5 statement =>
    cases statement <;> simp_all [collectStatementSymbol, declaredFunction]
  | _ => cases htype

theorem declaredFunction_none {statement : Statement} {name : String}
    (h : declaredType statement = some name) : declaredFunction statement = none := by
  fun_induction declaredType statement with
  | case4 inner span ih => exact ih h
  | case5 => cases h
  | _ => rfl

/-- What collecting a statement adds to an analyzer with one scope, if it reports nothing. -/
structure Adds (statement : Statement) (scope : Scope) (s t : Analyzer) : Prop where
  types : t.typeBindings = ((declaredType statement).map fun name =>
    (name, (resolveDeclaration statement s).1)).toList ++ s.typeBindings
  scopes : t.valueScopes = [((declaredFunction statement).map fun name =>
    (name, (resolveDeclaration statement s).1)).toList ++ scope]
  returnType : t.currentReturnType = s.currentReturnType

structure Free (statement : Statement) (scope : Scope) (s : Analyzer) : Prop where
  type : ∀ name, declaredType statement = some name → s.typeBindings.lookup name = none
  function : ∀ name, declaredFunction statement = some name → scope.lookup name = none

theorem annotationNames_other {statement : Statement} (htype : declaredType statement = none)
    (hfunction : declaredFunction statement = none) : annotationNames statement = [] := by
  fun_induction declaredType statement with
  | case4 inner span ih => exact ih htype hfunction
  | case5 statement =>
    cases statement <;> simp_all [annotationNames, declaredFunction]
  | _ => cases htype

theorem free_type_iff {statement : Statement} {name : String} {scope : Scope} {s : Analyzer}
    (htype : declaredType statement = some name) :
    Free statement scope s ↔ s.typeBindings.lookup name = none := by
  have hfunction := declaredFunction_none htype
  constructor
  · exact fun h => h.type name htype
  · intro h
    constructor
    · intro other hother
      rw [htype] at hother
      cases hother
      exact h
    · intro other hother
      rw [hfunction] at hother
      cases hother

theorem free_function_iff {statement : Statement} {scope : Scope} {s : Analyzer}
    (htype : declaredType statement = none) : Free statement scope s ↔
      ∀ name, declaredFunction statement = some name → scope.lookup name = none := by
  constructor
  · exact fun h => h.function
  · intro h
    refine ⟨fun name hname => ?_, h⟩
    rw [htype] at hname
    cases hname

theorem collectStatementSymbol_quiet (statement : Statement) {scope : Scope} {s : Analyzer}
    (hscope : s.valueScopes = [scope]) :
    ((collectStatementSymbol statement s).diagnostics = [] ↔
        s.diagnostics = [] ∧ Knows (annotationNames statement) s ∧ Free statement scope s) ∧
      ((collectStatementSymbol statement s).diagnostics = [] →
        Adds statement scope s (collectStatementSymbol statement s)) := by
  have hresolves := resolveDeclaration_resolves statement
  have hreports := hresolves.reports s
  have hbindings := hreports.typeBindings
  have hscopes := hreports.valueScopes.trans hscope
  have hreturn : (resolveDeclaration statement s).2.currentReturnType = s.currentReturnType := by
    obtain ⟨errors, iterations, heq⟩ := hreports
    rw [heq]
  rw [← and_assoc, ← hresolves.quiet s]
  cases htype : declaredType statement with
  | some name =>
    have hfunction := declaredFunction_none htype
    obtain ⟨kind, span, hcollect⟩ := collect_type htype s
    rw [hcollect, free_type_iff htype, Analyzer.defineType, hbindings]
    cases hlookup : s.typeBindings.lookup name with
    | some ty => simp [Analyzer.diagnostic]
    | none =>
      rw [if_neg (by simp)]
      exact ⟨by simp, fun _ => ⟨by simp [htype], by simp [hfunction, hscopes], hreturn⟩⟩
  | none =>
    rw [free_function_iff htype]
    cases hfunction : declaredFunction statement with
    | some name =>
      have hfree : (∀ other, some name = some other → scope.lookup other = none) ↔
          scope.lookup name = none := by
        constructor
        · exact fun h => h name rfl
        · intro h other hother
          cases hother
          exact h
      obtain ⟨span, binding, hcollect⟩ := collect_function hfunction s
      rw [hfree, hcollect, Analyzer.defineValue, hscopes]
      dsimp only
      cases hlookup : scope.lookup name with
      | some ty => simp [Analyzer.diagnostic]
      | none =>
        rw [if_neg (by simp)]
        exact ⟨by simp, fun _ => ⟨by simp [htype, hbindings], by simp [hfunction], hreturn⟩⟩
    | none =>
      have hquiet := hresolves.quiet s
      rw [annotationNames_other htype hfunction] at hquiet
      rw [collect_other htype hfunction]
      exact ⟨by simp [hquiet, Knows], fun _ => ⟨by simp [htype], by simp [hfunction, hscope], rfl⟩⟩

/-- The statements can be collected in this state without clashes of names. -/
structure Distinct (body : List Statement) (s : Analyzer) : Prop where
  types : (body.filterMap declaredType).Nodup
  functions : (body.filterMap declaredFunction).Nodup
  fresh : ∀ name ∈ body.filterMap declaredType, s.typeBindings.lookup name = none

def FreeFunctions (body : List Statement) (scope : Scope) : Prop :=
  ∀ name ∈ body.filterMap declaredFunction, scope.lookup name = none

/-- What collecting the statements comes to: every declared name is bound to what its
    declaration is resolved to in the end, and the other names to what they were. -/
structure Collects (body : List Statement) (scope scope' : Scope) (s t : Analyzer) : Prop where
  scopes : t.valueScopes = [scope']
  returnType : t.currentReturnType = s.currentReturnType
  types : ∀ statement ∈ body, ∀ name, declaredType statement = some name →
    t.typeBindings.lookup name = some (resolveDeclaration statement t).1
  otherTypes : ∀ name, name ∉ body.filterMap declaredType →
    t.typeBindings.lookup name = s.typeBindings.lookup name
  functions : ∀ statement ∈ body, ∀ name, declaredFunction statement = some name →
    scope'.lookup name = some (resolveDeclaration statement t).1
  otherFunctions : ∀ name, name ∉ body.filterMap declaredFunction →
    scope'.lookup name = scope.lookup name

theorem lookup_toList_append {α : Type} (entry : Option (String × α)) (bindings : List (String × α))
    {name : String} (h : ∀ value, entry ≠ some (name, value)) :
    (entry.toList ++ bindings).lookup name = bindings.lookup name := by
  cases entry with
  | none => rfl
  | some entry =>
    obtain ⟨key, value⟩ := entry
    have hne : name ≠ key := by
      intro heq
      exact h value (by rw [heq])
    rw [Option.toList_some, List.singleton_append, List.lookup_cons, beq_false_of_ne hne]

theorem knows_iff (names : List String) (s : Analyzer) :
    Knows names s ↔ ∀ name ∈ names, name ∈ s.typeBindings.map Prod.fst := by
  simp only [Knows, lookup_isSome_iff]

section Cons

variable {statement : Statement} {body : List Statement} {scope : Scope} {s t : Analyzer}

theorem mem_filterMap_cons {α : Type} {f : Statement → Option α} {a : α} :
    a ∈ (statement :: body).filterMap f ↔ f statement = some a ∨ a ∈ body.filterMap f := by
  simp only [List.mem_filterMap, List.exists_mem_cons_iff]

theorem nodup_filterMap_cons {α : Type} {f : Statement → Option α}
    (h : ((statement :: body).filterMap f).Nodup) :
    (body.filterMap f).Nodup ∧ ∀ a, f statement = some a → a ∉ body.filterMap f := by
  rw [List.filterMap_cons] at h
  cases hstatement : f statement with
  | none =>
    rw [hstatement] at h
    exact ⟨h, fun a ha => by cases ha⟩
  | some b =>
    rw [hstatement] at h
    obtain ⟨hmem, hnodup⟩ := List.nodup_cons.mp h
    refine ⟨hnodup, fun a ha => ?_⟩
    cases ha
    exact hmem

theorem Adds.lookup_type (h : Adds statement scope s t) {name : String}
    (hname : declaredType statement ≠ some name) :
    t.typeBindings.lookup name = s.typeBindings.lookup name := by
  rw [h.types]
  apply lookup_toList_append
  intro value hvalue
  obtain ⟨key, hkey, heq⟩ := Option.map_eq_some_iff.mp hvalue
  cases heq
  exact hname hkey

theorem Distinct.tail (h : Distinct (statement :: body) s) (hadds : Adds statement scope s t) :
    Distinct body t := by
  obtain ⟨htypes, hnew⟩ := nodup_filterMap_cons h.types
  refine ⟨htypes, (nodup_filterMap_cons h.functions).1, fun name hname => ?_⟩
  rw [hadds.lookup_type fun heq => hnew name heq hname]
  exact h.fresh name (mem_filterMap_cons.mpr (.inr hname))

theorem Distinct.head (h : Distinct (statement :: body) s) :
    ∀ name, declaredType statement = some name → s.typeBindings.lookup name = none :=
  fun name hname => h.fresh name (mem_filterMap_cons.mpr (.inl hname))

theorem Collects.nil (hscope : s.valueScopes = [scope]) : Collects [] scope scope s s :=
  ⟨hscope, rfl, fun _ h => absurd h List.not_mem_nil, fun _ _ => rfl,
    fun _ h => absurd h List.not_mem_nil, fun _ _ => rfl⟩

def scopeAfter (statement : Statement) (scope : Scope) (s : Analyzer) : Scope :=
  ((declaredFunction statement).map fun name => (name, (resolveDeclaration statement s).1)).toList ++
    scope

theorem scopeAfter_lookup {name : String} (hname : declaredFunction statement ≠ some name) :
    (scopeAfter statement scope s).lookup name = scope.lookup name := by
  apply lookup_toList_append
  intro value hvalue
  obtain ⟨key, hkey, heq⟩ := Option.map_eq_some_iff.mp hvalue
  cases heq
  exact hname hkey

theorem Collects.cons {u : Analyzer} {scope' : Scope} (hadds : Adds statement scope s u)
    (hdistinct : Distinct (statement :: body) s) (hknows : Knows (annotationNames statement) s)
    (hrest : Collects body (scopeAfter statement scope s) scope' u t) :
    Collects (statement :: body) scope scope' s t := by
  have hnewTypes := (nodup_filterMap_cons hdistinct.types).2
  have hnewFunctions := (nodup_filterMap_cons hdistinct.functions).2
  -- The types that the statement names are bound already and stay so.
  have hresolved : (resolveDeclaration statement t).1 = (resolveDeclaration statement s).1 := by
    apply (resolveDeclaration_resolves statement).congr
    intro name hname
    have hbound := hknows name hname
    have hnot : name ∉ (statement :: body).filterMap declaredType := by
      intro hmem
      rw [hdistinct.fresh name hmem] at hbound
      cases hbound
    rw [mem_filterMap_cons, not_or] at hnot
    rw [hrest.otherTypes name hnot.2, hadds.lookup_type hnot.1]
  refine ⟨hrest.scopes, hrest.returnType.trans hadds.returnType, ?_, ?_, ?_, ?_⟩
  · intro other hother name hname
    rcases List.mem_cons.mp hother with rfl | hbody
    · rw [hrest.otherTypes name (hnewTypes name hname), hadds.types, hname, hresolved]
      exact List.lookup_cons_self
    · exact hrest.types other hbody name hname
  · intro name hname
    rw [mem_filterMap_cons, not_or] at hname
    rw [hrest.otherTypes name hname.2, hadds.lookup_type hname.1]
  · intro other hother name hname
    rcases List.mem_cons.mp hother with rfl | hbody
    · rw [hrest.otherFunctions name (hnewFunctions name hname), scopeAfter, hname, hresolved]
      exact List.lookup_cons_self
    · exact hrest.functions other hbody name hname
  · intro name hname
    rw [mem_filterMap_cons, not_or] at hname
    rw [hrest.otherFunctions name hname.2, scopeAfter_lookup hname.1]

end Cons

theorem collectStatementSymbol_keeps (statement : Statement) (s : Analyzer) :
    s.diagnostics <+: (collectStatementSymbol statement s).diagnostics := by
  have hreports := (resolveDeclaration_resolves statement).reports s
  cases htype : declaredType statement with
  | some name =>
    obtain ⟨kind, span, hcollect⟩ := collect_type htype s
    rw [hcollect]
    exact hreports.diagnostics.trans (defineType_advances _ _ _ _ _).diagnostics
  | none =>
    cases hfunction : declaredFunction statement with
    | some name =>
      obtain ⟨span, binding, hcollect⟩ := collect_function hfunction s
      rw [hcollect]
      exact hreports.diagnostics.trans (defineValue_advances _ _ _ _ _).diagnostics
    | none =>
      simp only [collect_other htype hfunction, List.prefix_rfl]

theorem collectTopLevelSymbols_keeps (body : List Statement) (s : Analyzer) :
    s.diagnostics <+: (collectTopLevelSymbols body s).diagnostics := by
  induction body generalizing s with
  | nil => exact List.prefix_rfl
  | cons statement body ih => exact (collectStatementSymbol_keeps statement s).trans (ih _)

section Cons

variable {statement : Statement} {body : List Statement} {scope : Scope} {s t : Analyzer}

theorem Adds.backward_iff (h : Adds statement scope s t)
    (hknows : Knows (annotationNames statement) s) :
    Backward (s.typeBindings.map Prod.fst) (statement :: body) ↔
      Backward (t.typeBindings.map Prod.fst) body := by
  have hnames : t.typeBindings.map Prod.fst =
      (declaredType statement).toList ++ s.typeBindings.map Prod.fst := by
    rw [h.types]
    cases declaredType statement <;> rfl
  rw [Backward, hnames, ← knows_iff]
  exact and_iff_right hknows

theorem freeFunctions_cons_iff (hdistinct : Distinct (statement :: body) s) :
    FreeFunctions (statement :: body) scope ↔
      (∀ name, declaredFunction statement = some name → scope.lookup name = none) ∧
        FreeFunctions body (scopeAfter statement scope s) := by
  have hnew := (nodup_filterMap_cons hdistinct.functions).2
  have htail {name : String} (hname : name ∈ body.filterMap declaredFunction) :
      (scopeAfter statement scope s).lookup name = scope.lookup name :=
    scopeAfter_lookup fun heq => hnew name heq hname
  constructor
  · intro h
    refine ⟨fun name hname => h name (mem_filterMap_cons.mpr (.inl hname)), fun name hname => ?_⟩
    rw [htail hname]
    exact h name (mem_filterMap_cons.mpr (.inr hname))
  · rintro ⟨hhead, hbody⟩ name hname
    rcases mem_filterMap_cons.mp hname with hstatement | hmem
    · exact hhead name hstatement
    · rw [← htail hmem]
      exact hbody name hmem

end Cons

/-- Collecting statements reports nothing exactly when they only name types before them and
    no function has a name that is taken. -/
theorem collectTopLevelSymbols_quiet (body : List Statement) {scope : Scope} {s : Analyzer}
    (hscope : s.valueScopes = [scope]) (hdistinct : Distinct body s) :
    ((collectTopLevelSymbols body s).diagnostics = [] ↔ s.diagnostics = [] ∧
        Backward (s.typeBindings.map Prod.fst) body ∧ FreeFunctions body scope) ∧
      ((collectTopLevelSymbols body s).diagnostics = [] →
        ∃ scope', Collects body scope scope' s (collectTopLevelSymbols body s)) := by
  induction body generalizing scope s with
  | nil =>
    refine ⟨?_, fun _ => ⟨scope, .nil hscope⟩⟩
    simp [collectTopLevelSymbols, Backward, FreeFunctions]
  | cons statement body ih =>
    obtain ⟨hquiet, hadds⟩ := collectStatementSymbol_quiet statement hscope
    have hnext : collectTopLevelSymbols (statement :: body) s =
        collectTopLevelSymbols body (collectStatementSymbol statement s) := rfl
    have hfirst : (collectTopLevelSymbols (statement :: body) s).diagnostics = [] →
        (collectStatementSymbol statement s).diagnostics = [] :=
      quiet_of_earlier (collectTopLevelSymbols_keeps body _)
    constructor
    · constructor
      · intro h
        obtain ⟨hs, hknows, hfree⟩ := hquiet.mp (hfirst h)
        have hadded := hadds (hfirst h)
        obtain ⟨hrest, _⟩ := ih hadded.scopes (hdistinct.tail hadded)
        obtain ⟨_, hbackward, hfunctions⟩ := hrest.mp h
        exact ⟨hs, (hadded.backward_iff hknows).mpr hbackward,
          (freeFunctions_cons_iff hdistinct).mpr ⟨hfree.function, hfunctions⟩⟩
      · rintro ⟨hs, hbackward, hfunctions⟩
        have hknows := (knows_iff _ s).mpr hbackward.1
        obtain ⟨hhead, hbody⟩ := (freeFunctions_cons_iff hdistinct).mp hfunctions
        have hu := hquiet.mpr ⟨hs, hknows, hdistinct.head, hhead⟩
        have hadded := hadds hu
        obtain ⟨hrest, _⟩ := ih hadded.scopes (hdistinct.tail hadded)
        exact hrest.mpr ⟨hu, (hadded.backward_iff hknows).mp hbackward, hbody⟩
    · intro h
      obtain ⟨_, hknows, _⟩ := hquiet.mp (hfirst h)
      have hadded := hadds (hfirst h)
      obtain ⟨_, hcollects⟩ := ih hadded.scopes (hdistinct.tail hadded)
      obtain ⟨scope', hrest⟩ := hcollects h
      exact ⟨scope', .cons hadded hdistinct hknows hrest⟩

/-- Both programs declare the same. -/
def SameDeclarations (body body' : List Statement) : Prop :=
  ((body.filter isDeclaration)).Perm (body'.filter isDeclaration)

theorem isDeclaration_of_type {statement : Statement} {name : String}
    (h : declaredType statement = some name) : isDeclaration statement = true := by
  fun_induction declaredType statement with
  | case4 inner span ih => exact ih h
  | case5 => cases h
  | _ => rfl

theorem isDeclaration_of_function {statement : Statement} {name : String}
    (h : declaredFunction statement = some name) : isDeclaration statement = true := by
  fun_induction declaredFunction statement with
  | case2 inner span ih => exact ih h
  | case3 => cases h
  | _ => rfl

theorem filterMap_declarations {α : Type} {f : Statement → Option α}
    (hf : ∀ statement a, f statement = some a → isDeclaration statement = true)
    (body : List Statement) : (body.filter isDeclaration).filterMap f = body.filterMap f := by
  induction body with
  | nil => rfl
  | cons statement body ih =>
    cases hstatement : f statement with
    | none =>
      rw [List.filterMap_cons_none hstatement, List.filter_cons]
      split
      · rw [List.filterMap_cons_none hstatement, ih]
      · exact ih
    | some a =>
      rw [List.filterMap_cons_some hstatement, List.filter_cons_of_pos (hf statement a hstatement),
        List.filterMap_cons_some hstatement, ih]

theorem SameDeclarations.filterMap {α : Type} {f : Statement → Option α}
    (hf : ∀ statement a, f statement = some a → isDeclaration statement = true)
    {body body' : List Statement} (h : SameDeclarations body body') :
    (body.filterMap f).Perm (body'.filterMap f) := by
  rw [← filterMap_declarations hf body, ← filterMap_declarations hf body']
  exact List.Perm.filterMap f h

theorem SameDeclarations.mem {body body' : List Statement} (h : SameDeclarations body body')
    {statement : Statement} (hdeclaration : isDeclaration statement = true) :
    statement ∈ body ↔ statement ∈ body' := by
  have hmem := h.mem_iff (a := statement)
  simpa [hdeclaration] using hmem

section Orders

variable {body body' : List Statement} {scope scope₁ scope₂ : Scope} {s t t' : Analyzer}

theorem Collects.types_agree (h : Collects body scope scope₁ s t)
    (h' : Collects body' scope scope₂ s t') (hsame : SameDeclarations body body')
    {known : List String} {rest : List Statement} (hrest : rest <:+ body)
    (hbackward : Backward known rest)
    (hknown : ∀ name ∈ known, t.typeBindings.lookup name = t'.typeBindings.lookup name) :
    (∀ name ∈ rest.filterMap declaredType,
      t.typeBindings.lookup name = t'.typeBindings.lookup name) ∧
    ∀ statement ∈ rest, (resolveDeclaration statement t).1 = (resolveDeclaration statement t').1 := by
  induction rest generalizing known with
  | nil => exact ⟨fun _ hname => absurd hname List.not_mem_nil,
      fun _ hstatement => absurd hstatement List.not_mem_nil⟩
  | cons statement rest ih =>
    have hmem : statement ∈ body := hrest.subset List.mem_cons_self
    have hresolved : (resolveDeclaration statement t).1 = (resolveDeclaration statement t').1 :=
      (resolveDeclaration_resolves statement).congr t t' fun name hname =>
        hknown name (hbackward.1 name hname)
    have hhead (name : String) (hname : declaredType statement = some name) :
        t.typeBindings.lookup name = t'.typeBindings.lookup name := by
      have hmem' := (hsame.mem (isDeclaration_of_type hname)).mp hmem
      rw [h.types statement hmem name hname, h'.types statement hmem' name hname, hresolved]
    obtain ⟨htypes, hstatements⟩ := ih ((List.suffix_cons statement rest).trans hrest)
      hbackward.2 fun name hname => by
        rcases List.mem_append.mp hname with hnew | hold
        · exact hhead name (Option.mem_toList.mp hnew)
        · exact hknown name hold
    constructor
    · intro name hname
      rcases mem_filterMap_cons.mp hname with hstatement | hlater
      · exact hhead name hstatement
      · exact htypes name hlater
    · intro other hother
      rcases List.mem_cons.mp hother with rfl | hlater
      · exact hresolved
      · exact hstatements other hlater

theorem Collects.similar (h : Collects body scope scope₁ s t)
    (h' : Collects body' scope scope₂ s t') (hsame : SameDeclarations body body')
    (hbackward : Backward (s.typeBindings.map Prod.fst) body)
    (hfresh : ∀ name ∈ body.filterMap declaredType, s.typeBindings.lookup name = none)
    (hquiet : t.diagnostics = [] ↔ t'.diagnostics = []) : Similar t t' := by
  have htypes := hsame.filterMap fun _ _ => isDeclaration_of_type
  have hfunctions := hsame.filterMap fun _ _ => isDeclaration_of_function
  have hother {name : String} (hname : name ∉ body.filterMap declaredType) :
      t.typeBindings.lookup name = t'.typeBindings.lookup name := by
    rw [h.otherTypes name hname, h'.otherTypes name (fun hmem => hname (htypes.mem_iff.mpr hmem))]
  obtain ⟨hdeclared, hresolved⟩ := h.types_agree h' hsame List.suffix_rfl hbackward fun name hname =>
    hother fun hmem => by
      have hbound := (lookup_isSome_iff _ _).mpr hname
      rw [hfresh name hmem] at hbound
      cases hbound
  refine ⟨fun name => ?_, ?_, h.returnType.trans h'.returnType.symm, hquiet⟩
  · by_cases hname : name ∈ body.filterMap declaredType
    · exact hdeclared name hname
    · exact hother hname
  · rw [h.scopes, h'.scopes]
    refine .cons (fun name => ?_) .nil
    by_cases hname : name ∈ body.filterMap declaredFunction
    · obtain ⟨statement, hmem, hfunction⟩ := List.mem_filterMap.mp hname
      have hmem' := (hsame.mem (isDeclaration_of_function hfunction)).mp hmem
      rw [h.functions statement hmem name hfunction, h'.functions statement hmem' name hfunction,
        hresolved statement hmem]
    · rw [h.otherFunctions name hname,
        h'.otherFunctions name fun hmem => hname (hfunctions.mem_iff.mpr hmem)]

end Orders

/-- Scopes are closed again, and nothing outside of the innermost one changes. -/
structure Stays (s t : Analyzer) : Prop where
  types : t.typeBindings = s.typeBindings
  outer : t.valueScopes.tail = s.valueScopes.tail
  returnType : t.currentReturnType = s.currentReturnType

namespace Stays

variable {s t u : Analyzer}

theorem refl (s : Analyzer) : Stays s s := ⟨rfl, rfl, rfl⟩

theorem trans (h : Stays s t) (h' : Stays t u) : Stays s u :=
  ⟨h'.types.trans h.types, h'.outer.trans h.outer, h'.returnType.trans h.returnType⟩

theorem of_reports (h : Reports s t) : Stays s t := by
  obtain ⟨errors, iterations, rfl⟩ := h
  exact ⟨rfl, rfl, rfl⟩

theorem defineValue (name : String) (ty : Ty) (kind : SymbolKind) (span : Option Span)
    (s : Analyzer) : Stays s (s.defineValue name ty kind span) := by
  unfold Analyzer.defineValue
  cases hscopes : s.valueScopes with
  | nil => exact .refl s
  | cons scope scopes =>
    dsimp only
    split
    · cases span with
      | none => exact .refl s
      | some span => exact .of_reports (.diagnostic s _ _ _)
    · split <;> exact ⟨rfl, by rw [hscopes]; rfl, rfl⟩

theorem popScope (h : Stays s.pushScope t) :
    t.popScope.typeBindings = s.typeBindings ∧ t.popScope.valueScopes = s.valueScopes ∧
      t.popScope.currentReturnType = s.currentReturnType :=
  ⟨h.types, h.outer, h.returnType⟩

theorem inScope (h : Stays s.pushScope t) : Stays s t.popScope := by
  obtain ⟨htypes, hscopes, hreturn⟩ := h.popScope
  exact ⟨htypes, by rw [hscopes], hreturn⟩

end Stays

section Order

variable (order : IterationOrder)

theorem analyzeVariable_stays (declaration : VariableDeclaration) (span : Span) (s : Analyzer) :
    Stays s (analyzeVariable order declaration span s) := by
  rw [analyzeVariable_eq]
  exact (Stays.of_reports (checkedVariable_reports order declaration span s)).trans
    (.defineValue _ _ _ _ _)

mutual

theorem analyzeStatement_stays (statement : Statement) (s : Analyzer) :
    Stays s (analyzeStatement order statement s) := by
  cases statement with
  | «variable» declaration span => exact analyzeVariable_stays order declaration span s
  | «return» value span => exact .of_reports (analyzeReturn_reports order value span s)
  | throw value span => exact .of_reports (inferExpression_reports order value s)
  | expression value span => exact .of_reports (inferExpression_reports order value s)
  | «if» test consequent alternate span =>
    exact ((Stays.of_reports (inferExpression_reports order test s)).trans
      (analyzeStatement_stays consequent _)).trans (analyzeOptional_stays alternate _)
  | «while» test body span =>
    exact (Stays.of_reports (inferExpression_reports order test s)).trans
      (analyzeStatement_stays body _)
  | «for» initializer test update body span =>
    have hheader := (analyzeOptional_stays initializer s.pushScope).trans
      (.of_reports ((inferOptional_reports order test _).trans
        (inferOptional_reports order update _)))
    exact (hheader.trans (analyzeStatement_stays body _)).inScope
  | block body span => exact (analyzeStatements_stays body s.pushScope).inScope
  | «export» inner span => exact analyzeStatement_stays inner s
  | _ => exact .refl s

theorem analyzeOptional_stays (statement : Option Statement) (s : Analyzer) :
    Stays s (analyzeOptional order statement s) := by
  match statement with
  | none => exact .refl s
  | some statement => exact analyzeStatement_stays statement s

theorem analyzeStatements_stays (statements : List Statement) (s : Analyzer) :
    Stays s (analyzeStatements order statements s) := by
  match statements with
  | [] => exact .refl s
  | statement :: statements =>
    exact (analyzeStatement_stays statement s).trans (analyzeStatements_stays statements _)

end

theorem defineParams_stays (params : List Parameter) (s : Analyzer) :
    Stays s (defineParams params s) := by
  induction params generalizing s with
  | nil => exact .refl s
  | cons param params ih =>
    rw [defineParams]
    exact ((Stays.of_reports (resolveOptionalType_reports _ param.ty s)).trans
      (.defineValue _ _ _ _ _)).trans (ih _)

theorem analyzeFunctionBody_restores (binding : FunctionBinding) (s : Analyzer) :
    let t := analyzeFunctionBody order binding s
    t.typeBindings = s.typeBindings ∧ t.valueScopes = s.valueScopes ∧
      t.currentReturnType = s.currentReturnType ∧ s.diagnostics <+: t.diagnostics := by
  obtain ⟨errors, iterations, hresolved⟩ :=
    resolveOptionalType_reports .undefined binding.declaration.returnType s
  have hparams := defineParams_stays binding.declaration.params
    { (resolveOptionalType .undefined binding.declaration.returnType s).2 with
      currentReturnType := some (resolveOptionalType .undefined binding.declaration.returnType s).1
      }.pushScope
  have hbody := (hparams.trans
    (analyzeStatements_stays order binding.declaration.body _)).popScope
  have hdiagnostics := (defineParams_advances binding.declaration.params
    { (resolveOptionalType .undefined binding.declaration.returnType s).2 with
      currentReturnType := some (resolveOptionalType .undefined binding.declaration.returnType s).1
      }.pushScope).trans (analyzeStatements_advances order binding.declaration.body _)
  have hprefix : s.diagnostics <+:
      (resolveOptionalType .undefined binding.declaration.returnType s).2.diagnostics :=
    (resolveOptionalType_reports .undefined binding.declaration.returnType s).diagnostics
  have hreturn : (resolveOptionalType .undefined binding.declaration.returnType s).2.currentReturnType
      = s.currentReturnType := by rw [hresolved]
  have hscopes : (resolveOptionalType .undefined binding.declaration.returnType s).2.valueScopes =
      s.valueScopes := by rw [hresolved]
  have htypes : (resolveOptionalType .undefined binding.declaration.returnType s).2.typeBindings =
      s.typeBindings := by rw [hresolved]
  have hwhole := hprefix.trans hdiagnostics.diagnostics
  unfold analyzeFunctionBody
  dsimp only
  split
  · exact ⟨hbody.1.trans htypes, hbody.2.1.trans hscopes, hreturn,
      hwhole.trans (List.prefix_append _ _)⟩
  · exact ⟨hbody.1.trans htypes, hbody.2.1.trans hscopes, hreturn, hwhole⟩

theorem analyzeFunctionBody_self (binding : FunctionBinding) {s : Analyzer}
    (hs : s.diagnostics = []) (hquiet : (analyzeFunctionBody order binding s).diagnostics = []) :
    Similar s (analyzeFunctionBody order binding s) := by
  obtain ⟨htypes, hscopes, hreturn, _⟩ := analyzeFunctionBody_restores order binding s
  refine ⟨fun name => by rw [htypes], ?_, hreturn.symm, by rw [hs, hquiet]⟩
  rw [hscopes]
  exact List.forall₂_same.mpr fun _ _ _ => rfl

variable (order' : IterationOrder)

theorem analyzeFunctionBody_congr {s s' : Analyzer} (h : Similar s s') (binding : FunctionBinding) :
    Similar (analyzeFunctionBody order binding s) (analyzeFunctionBody order' binding s') :=
  (analyzeFunctionBody_similar id order order' h binding).trans
    (analyzeFunctionBody_similar id order' order' (.refl s') binding).symm

theorem analyzeStatements_congr {s s' : Analyzer} (h : Similar s s') (statements : List Statement) :
    Similar (analyzeStatements order statements s) (analyzeStatements order' statements s') :=
  (analyzeStatements_similar id order order' h statements).trans
    (analyzeStatements_similar id order' order' (.refl s') statements).symm

theorem functionBodies_quiet_iff (bindings : List FunctionBinding) {s : Analyzer}
    (hs : s.diagnostics = []) :
    let t := bindings.foldl (fun s binding => analyzeFunctionBody order binding s) s
    (t.diagnostics = [] ↔
        ∀ binding ∈ bindings, (analyzeFunctionBody order binding s).diagnostics = []) ∧
      (t.diagnostics = [] → Similar s t) ∧ s.diagnostics <+: t.diagnostics := by
  induction bindings generalizing s with
  | nil =>
    exact ⟨⟨fun _ _ h => absurd h List.not_mem_nil, fun _ => hs⟩, fun _ => .refl s, List.prefix_rfl⟩
  | cons binding bindings ih =>
    obtain ⟨_, _, _, hfirst⟩ := analyzeFunctionBody_restores order binding s
    by_cases hquiet : (analyzeFunctionBody order binding s).diagnostics = []
    · have hself := analyzeFunctionBody_self order binding hs hquiet
      obtain ⟨hiff, hsimilar, hprefix⟩ := ih hquiet
      refine ⟨?_, fun h => hself.trans (hsimilar h), hfirst.trans hprefix⟩
      rw [List.foldl_cons, hiff, List.forall_mem_cons]
      have heach (other : FunctionBinding) := (analyzeFunctionBody_congr order order hself other).quiet
      simp only [← heach, hquiet, true_and]
    · have hprefix := (analyzeFunctionBodies_advances order bindings
        (analyzeFunctionBody order binding s)).diagnostics
      have hloud : (bindings.foldl (fun s binding => analyzeFunctionBody order binding s)
          (analyzeFunctionBody order binding s)).diagnostics ≠ [] :=
        fun h => hquiet (quiet_of_earlier hprefix h)
      exact ⟨⟨fun h => absurd h hloud, fun h => absurd (h binding List.mem_cons_self) hquiet⟩,
        fun h => absurd h hloud, hfirst.trans hprefix⟩

def startAnalyzer : Analyzer := installBrowserBuiltins Analyzer.new.pushScope

def builtinScope : Scope := [("console", .object [("log", .function [] .undefined true)])]

def checkBodies (body : List Statement) (s : Analyzer) : Analyzer :=
  let s := s.functions.foldl (fun s binding => analyzeFunctionBody order binding s) s
  analyzeStatements order (body.filter fun statement => !isFunctionStatement statement) s

/-- Apart from the types that its declarations name, nothing is wrong with a program. -/
structure Checked (body : List Statement) : Prop where
  functions : FreeFunctions body builtinScope
  bodies : (checkBodies order body
    { collectTopLevelSymbols body startAnalyzer with diagnostics := [] }).diagnostics = []

theorem checkBodies_keeps (body : List Statement) (s : Analyzer) :
    s.diagnostics <+: (checkBodies order body s).diagnostics :=
  ((analyzeFunctionBodies_advances order _ s).trans
    (analyzeStatements_advances order _ _)).diagnostics

theorem start_quiet {body : List Statement} (htypes : (body.filterMap declaredType).Nodup)
    (hfunctions : (body.filterMap declaredFunction).Nodup) :
    ((collectTopLevelSymbols body startAnalyzer).diagnostics = [] ↔
        Backward [] body ∧ FreeFunctions body builtinScope) ∧
      ((collectTopLevelSymbols body startAnalyzer).diagnostics = [] →
        ∃ scope, Collects body builtinScope scope startAnalyzer
          (collectTopLevelSymbols body startAnalyzer)) := by
  have hscope : startAnalyzer.valueScopes = [builtinScope] := rfl
  have hquiet : startAnalyzer.diagnostics = [] := rfl
  have hcollect := collectTopLevelSymbols_quiet body hscope ⟨htypes, hfunctions, fun _ _ => rfl⟩
  rw [and_iff_right hquiet] at hcollect
  exact hcollect

theorem accepted_iff {body : List Statement} (htypes : (body.filterMap declaredType).Nodup)
    (hfunctions : (body.filterMap declaredFunction).Nodup) :
    (checkBodies order body (collectTopLevelSymbols body startAnalyzer)).diagnostics = [] ↔
      Backward [] body ∧ Checked order body := by
  obtain ⟨hcollected, _⟩ := start_quiet htypes hfunctions
  have hsame (h : (collectTopLevelSymbols body startAnalyzer).diagnostics = []) :
      { collectTopLevelSymbols body startAnalyzer with diagnostics := [] } =
        collectTopLevelSymbols body startAnalyzer := by
    rw [← h]
  constructor
  · intro h
    have hquiet := quiet_of_earlier (checkBodies_keeps order body _) h
    obtain ⟨hbackward, hfree⟩ := hcollected.mp hquiet
    refine ⟨hbackward, hfree, ?_⟩
    rw [hsame hquiet]
    exact h
  · rintro ⟨hbackward, hfree, hbodies⟩
    rw [hsame (hcollected.mpr ⟨hbackward, hfree⟩)] at hbodies
    exact hbodies

theorem analyzeStatement_declaration {statement : Statement} (h : isDeclaration statement = true)
    (s : Analyzer) : analyzeStatement order statement s = s := by
  fun_induction isDeclaration statement with
  | case5 inner span ih => exact ih h
  | case6 => cases h
  | _ => rfl

theorem function_isDeclaration {statement : Statement}
    (h : isFunctionStatement statement = true) : isDeclaration statement = true := by
  cases statement with
  | function declaration span => rfl
  | _ => cases h

theorem analyzeStatements_others (body : List Statement) (s : Analyzer) :
    analyzeStatements order (body.filter fun statement => !isFunctionStatement statement) s =
      analyzeStatements order (body.filter fun statement => !isDeclaration statement) s := by
  induction body generalizing s with
  | nil => rfl
  | cons statement body ih =>
    by_cases hdeclaration : isDeclaration statement = true
    · rw [List.filter_cons_of_neg (p := fun statement => !isDeclaration statement) (by simp [hdeclaration])]
      by_cases hfunction : isFunctionStatement statement = true
      · rw [List.filter_cons_of_neg (by simp [hfunction])]
        exact ih s
      · rw [List.filter_cons_of_pos (by simp [hfunction]), analyzeStatements,
          analyzeStatement_declaration order hdeclaration]
        exact ih s
    · have hfunction : ¬ isFunctionStatement statement = true :=
        fun h => hdeclaration (function_isDeclaration h)
      rw [List.filter_cons_of_pos (by simp [hfunction]), List.filter_cons_of_pos (by simp [hdeclaration]),
        analyzeStatements, analyzeStatements]
      exact ih _

theorem collectedFunction_isDeclaration {statement : Statement} {binding : FunctionBinding}
    (h : collectedFunction statement = some binding) : isDeclaration statement = true := by
  fun_induction collectedFunction statement with
  | case1 => rfl
  | case2 inner span ih => exact ih h
  | case3 => cases h

theorem checkBodies_order {body body' : List Statement} {s s' : Analyzer}
    (hsame : SameDeclarations body body')
    (hothers : (body.filter fun statement => !isDeclaration statement) =
      body'.filter fun statement => !isDeclaration statement)
    (hsimilar : Similar s s') (hs : s.diagnostics = [])
    (hfunctions : s.functions = body.filterMap collectedFunction)
    (hfunctions' : s'.functions = body'.filterMap collectedFunction)
    (h : (checkBodies order body s).diagnostics = []) :
    (checkBodies order' body' s').diagnostics = [] := by
  have hperm := hsame.filterMap fun _ _ => collectedFunction_isDeclaration
  have hs' := hsimilar.quiet.mp hs
  obtain ⟨hiff, hfirst, _⟩ := functionBodies_quiet_iff order s.functions hs
  obtain ⟨hiff', hfirst', _⟩ := functionBodies_quiet_iff order' s'.functions hs'
  have hbodies := quiet_of_earlier (analyzeStatements_advances order _ _).diagnostics h
  have hbodies' : (s'.functions.foldl (fun s binding => analyzeFunctionBody order' binding s)
      s').diagnostics = [] := by
    rw [hiff']
    intro binding hbinding
    rw [hfunctions', ← hperm.mem_iff, ← hfunctions] at hbinding
    exact (analyzeFunctionBody_congr order order' hsimilar binding).quiet.mp
      (hiff.mp hbodies binding hbinding)
  have hbehind := ((hfirst hbodies).symm.trans hsimilar).trans (hfirst' hbodies')
  unfold checkBodies at h ⊢
  dsimp only at h ⊢
  rw [analyzeStatements_others, hothers] at h
  rw [analyzeStatements_others]
  exact (analyzeStatements_congr order order' hbehind _).quiet.mp h

theorem checked_order {body body' : List Statement} (hsame : SameDeclarations body body')
    (hothers : (body.filter fun statement => !isDeclaration statement) =
      body'.filter fun statement => !isDeclaration statement)
    (htypes : (body.filterMap declaredType).Nodup)
    (hfunctions : (body.filterMap declaredFunction).Nodup)
    (hbackward : Backward [] body) (hbackward' : Backward [] body') (h : Checked order body) :
    Checked order' body' := by
  have htypesPerm := hsame.filterMap fun _ _ => isDeclaration_of_type
  have hfunctionsPerm := hsame.filterMap fun _ _ => isDeclaration_of_function
  have hfree' : FreeFunctions body' builtinScope :=
    fun name hname => h.functions name (hfunctionsPerm.mem_iff.mpr hname)
  obtain ⟨hiff, hcollects⟩ := start_quiet htypes hfunctions
  obtain ⟨hiff', hcollects'⟩ := start_quiet (htypesPerm.nodup_iff.mp htypes)
    (hfunctionsPerm.nodup_iff.mp hfunctions)
  have hquiet := hiff.mpr ⟨hbackward, h.functions⟩
  have hquiet' := hiff'.mpr ⟨hbackward', hfree'⟩
  obtain ⟨scope, hcollected⟩ := hcollects hquiet
  obtain ⟨scope', hcollected'⟩ := hcollects' hquiet'
  have hsimilar := hcollected.similar hcollected' hsame hbackward (fun _ _ => rfl)
    (by rw [hquiet, hquiet'])
  have hbodies := ((accepted_iff order htypes hfunctions).mpr ⟨hbackward, h⟩)
  have hbodies' := checkBodies_order order order' hsame hothers hsimilar hquiet
    (collectTopLevelSymbols_functions body _) (collectTopLevelSymbols_functions body' _) hbodies
  exact ((accepted_iff order' (htypesPerm.nodup_iff.mp htypes)
    (hfunctionsPerm.nodup_iff.mp hfunctions)).mp hbodies').2

def unplaced (source : String) : List Statement :=
  relocateStatements (fun _ => ⟨0, 0, 0⟩) (parseSource source).program.body

/-- Both sources are the same program, up to the order of its declarations. -/
structure Reordered (source source' : String) : Prop where
  parsed : (parseSource source).diagnostics = [] ↔ (parseSource source').diagnostics = []
  declarations : SameDeclarations (unplaced source) (unplaced source')
  others : ((unplaced source).filter fun statement => !isDeclaration statement) =
    (unplaced source').filter fun statement => !isDeclaration statement
  distinct : ((unplaced source).filterMap declaredName).Nodup

/-- Apart from the types that its declarations name, nothing is wrong with a source. -/
structure CheckedSource (source : String) : Prop where
  parsed : (parseSource source).diagnostics = []
  checked : Checked order (unplaced source)

theorem nodup_filterMap_mono {α β : Type} {f g : α → Option β}
    (hfg : ∀ a b, f a = some b → g a = some b) {l : List α} (h : (l.filterMap g).Nodup) :
    (l.filterMap f).Nodup := by
  rw [List.Nodup, List.pairwise_filterMap] at h ⊢
  exact h.imp fun hdistinct b hb c hc => hdistinct b (hfg _ b hb) c (hfg _ c hc)

theorem isDeclaration_of_name {statement : Statement} {name : String}
    (h : declaredName statement = some name) : isDeclaration statement = true := by
  rcases Option.or_eq_some_iff.mp h with htype | ⟨_, hfunction⟩
  · exact isDeclaration_of_type htype
  · exact isDeclaration_of_function hfunction

theorem declaredName_of_type {statement : Statement} {name : String}
    (h : declaredType statement = some name) : declaredName statement = some name := by
  rw [declaredName, h, Option.some_or]

theorem declaredName_of_function {statement : Statement} {name : String}
    (h : declaredFunction statement = some name) : declaredName statement = some name := by
  cases htype : declaredType statement with
  | none => rw [declaredName, htype, Option.none_or, h]
  | some other =>
    rw [declaredFunction_none htype] at h
    cases h

theorem parseSource_quiet {source : String} (h : (analyzeSource order source).diagnostics = []) :
    (parseSource source).diagnostics = [] := by
  have hcollected := quiet_of_earlier (analyzeSource_collected order source) h
  have hinitial := quiet_of_earlier (collectTopLevelSymbols_keeps _ _) hcollected
  exact List.map_eq_nil_iff.mp hinitial

/-- A source is accepted when every declaration names only types before it, and nothing
    else is wrong. -/
theorem analyzeSource_quiet_iff {source : String}
    (hdistinct : ((unplaced source).filterMap declaredName).Nodup) :
    (analyzeSource order source).diagnostics = [] ↔
      Backward [] (unplaced source) ∧ CheckedSource order source := by
  have hparsed (h : (parseSource source).diagnostics = []) :
      (analyzeSource order source).diagnostics = [] ↔
        (checkBodies order (unplaced source)
          (collectTopLevelSymbols (unplaced source) startAnalyzer)).diagnostics = [] := by
    have hrelocated := analyzeProgram_relocate (fun _ => ⟨0, 0, 0⟩) order order
      (parseSource source).program.body (parseSource source).program.span none Analyzer.new rfl
    unfold analyzeSource
    dsimp only
    rw [h]
    exact hrelocated
  have htypes := nodup_filterMap_mono (fun _ _ => declaredName_of_type) hdistinct
  have hfunctions := nodup_filterMap_mono (fun _ _ => declaredName_of_function) hdistinct
  have haccepted := accepted_iff order htypes hfunctions
  constructor
  · intro h
    have hquiet := parseSource_quiet order h
    obtain ⟨hbackward, hchecked⟩ := haccepted.mp ((hparsed hquiet).mp h)
    exact ⟨hbackward, hquiet, hchecked⟩
  · rintro ⟨hbackward, hquiet, hchecked⟩
    exact (hparsed hquiet).mpr (haccepted.mpr ⟨hbackward, hchecked⟩)

/-- Two orders of the declarations are accepted alike exactly when neither of them, with
    nothing else wrong, is the only one in which every named type is declared before. -/
theorem analyzeSource_reordered {source source' : String} (h : Reordered source source') :
    ((analyzeSource order source).diagnostics = [] ↔
        (analyzeSource order' source').diagnostics = []) ↔
      (CheckedSource order source → Backward [] (unplaced source) →
          Backward [] (unplaced source')) ∧
        (CheckedSource order' source' → Backward [] (unplaced source') →
          Backward [] (unplaced source)) := by
  have hnames := h.declarations.filterMap fun _ _ => isDeclaration_of_name
  have hdistinct' := hnames.nodup_iff.mp h.distinct
  have htypes := nodup_filterMap_mono (fun _ _ => declaredName_of_type) h.distinct
  have hfunctions := nodup_filterMap_mono (fun _ _ => declaredName_of_function) h.distinct
  have htypes' := nodup_filterMap_mono (fun _ _ => declaredName_of_type) hdistinct'
  have hfunctions' := nodup_filterMap_mono (fun _ _ => declaredName_of_function) hdistinct'
  -- In two orders without forward references the rest of the checks agrees.
  have hagree (hbackward : Backward [] (unplaced source))
      (hbackward' : Backward [] (unplaced source')) :
      CheckedSource order source ↔ CheckedSource order' source' := by
    constructor
    · rintro ⟨hparsed, hchecked⟩
      exact ⟨h.parsed.mp hparsed, checked_order order order' h.declarations h.others htypes
        hfunctions hbackward hbackward' hchecked⟩
    · rintro ⟨hparsed, hchecked⟩
      exact ⟨h.parsed.mpr hparsed, checked_order order' order h.declarations.symm h.others.symm
        htypes' hfunctions' hbackward' hbackward hchecked⟩
  rw [analyzeSource_quiet_iff order h.distinct, analyzeSource_quiet_iff order' hdistinct']
  constructor
  · intro hiff
    exact ⟨fun hchecked hbackward => (hiff.mp ⟨hbackward, hchecked⟩).1,
      fun hchecked hbackward => (hiff.mpr ⟨hbackward, hchecked⟩).1⟩
  · rintro ⟨hforth, hback⟩
    constructor
    · rintro ⟨hbackward, hchecked⟩
      have hbackward' := hforth hchecked hbackward
      exact ⟨hbackward', (hagree hbackward hbackward').mp hchecked⟩
    · rintro ⟨hbackward', hchecked⟩
      have hbackward := hback hchecked hbackward'
      exact ⟨hbackward, (hagree hbackward hbackward').mpr hchecked⟩

end Order

def nowhere : Span := ⟨⟨0, 0, 0⟩, ⟨0, 0, 0⟩⟩

/-- An alias of another type, or of `number`. -/
def simpleAlias (name : String) (target : Option String) : Statement :=
  .typeAlias ⟨name, (target.map fun target => .named target nowhere).getD (.number nowhere)⟩ nowhere

def toSimpleAlias : Statement → Option (String × Option String)
  | .typeAlias ⟨name, .number _⟩ _ => some (name, none)
  | .typeAlias ⟨name, .named target _⟩ _ => some (name, some target)
  | _ => none

theorem relocate_of_toSimpleAlias {statement : Statement} {name : String} {target : Option String}
    (h : toSimpleAlias statement = some (name, target)) :
    statement.relocate (fun _ => ⟨0, 0, 0⟩) = simpleAlias name target := by
  unfold toSimpleAlias at h
  split at h
  · cases h
    rfl
  · cases h
    rfl
  · cases h

theorem unplaced_of_aliases {source : String} {aliases : List (String × Option String)}
    (h : (parseSource source).program.body.map toSimpleAlias = aliases.map some) :
    unplaced source = aliases.map fun entry => simpleAlias entry.1 entry.2 := by
  unfold unplaced
  generalize (parseSource source).program.body = body at h
  induction body generalizing aliases with
  | nil =>
    rw [List.map_eq_nil_iff.mp h.symm]
    rfl
  | cons statement body ih =>
    cases aliases with
    | nil => cases h
    | cons entry aliases =>
      obtain ⟨hstatement, hbody⟩ := List.cons.inj h
      rw [relocateStatements, List.map_cons, ih hbody, relocate_of_toSimpleAlias hstatement]

theorem unplaced_backward : unplaced "type A = number; type B = A;" =
    [simpleAlias "A" none, simpleAlias "B" (some "A")] :=
  @unplaced_of_aliases _ [("A", none), ("B", some "A")] (by decide +kernel)

theorem unplaced_forward : unplaced "type B = A; type A = number;" =
    [simpleAlias "B" (some "A"), simpleAlias "A" none] :=
  @unplaced_of_aliases _ [("B", some "A"), ("A", none)] (by decide +kernel)

theorem aliases_reordered :
    Reordered "type A = number; type B = A;" "type B = A; type A = number;" where
  parsed := by decide +kernel
  declarations := by
    rw [unplaced_backward, unplaced_forward]
    exact List.Perm.swap (simpleAlias "B" (some "A")) (simpleAlias "A" none) []
  others := by
    rw [unplaced_backward, unplaced_forward]
    rfl
  distinct := by
    rw [unplaced_backward]
    decide

theorem aliases_accepted_iff :
    let source := "type A = number; type B = A;"
    let source' := "type B = A; type A = number;"
    ((analyzeSource .listed source).diagnostics = [] ↔
        (analyzeSource .listed source').diagnostics = []) ↔
      (CheckedSource .listed source → Backward [] (unplaced source) →
          Backward [] (unplaced source')) ∧
        (CheckedSource .listed source' → Backward [] (unplaced source') →
          Backward [] (unplaced source)) :=
  analyzeSource_reordered .listed .listed aliases_reordered

/-- An alias that names another one is accepted behind it and rejected in front of it. -/
theorem aliases_not_accepted :
    let source := "type A = number; type B = A;"
    let source' := "type B = A; type A = number;"
    Reordered source source' ∧ (analyzeSource .listed source).diagnostics = [] ∧
      (analyzeSource .listed source').diagnostics.map SemanticDiagnostic.message =
        ["unknown type `A`"] :=
  ⟨aliases_reordered, by decide +kernel, by decide +kernel⟩

end Tsvm.DeclarationOrders
