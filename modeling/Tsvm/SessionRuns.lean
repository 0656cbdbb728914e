import Tsvm.DeterministicResults
import Tsvm.HostHistories
import Tsvm.SemanticOrders

set_option autoImplicit false

/-!
# Runs of a page session

A cached module is what a preparation of its source gives, whatever calls came
before. A call that the policy blocks leaves the session as it was.
-/
namespace Tsvm.SessionRuns
open CApi CheckTraces DeterministicResults HostHistories Interop Interpreter Modules Pipeline
open PreparationCache RuntimeValues ScriptLoader Semantic SemanticOrders FailState

theorem lowerSource_order (order order' : IterationOrder) (source : String) :
    (lowerSource order source).ir = (lowerSource order' source).ir ∧
      (lowerSource order source).diagnostics.Perm (lowerSource order' source).diagnostics := by
  have hperm := analyzeSource_perm order order' source
  have hempty : (analyzeSource order source).diagnostics.isEmpty =
      (analyzeSource order' source).diagnostics.isEmpty := hperm.isEmpty_eq
  unfold lowerSource
  simp only [hempty]
  split
  · exact ⟨rfl, .refl _⟩
  · exact ⟨rfl, hperm⟩

/-- Two outcomes that differ in the order of the diagnostics of a compile error only. -/
inductive SameOutcome {α : Type} : Except Stop α → Except Stop α → Prop
  | refl (outcome : Except Stop α) : SameOutcome outcome outcome
  | compile {diagnostics diagnostics' : List SemanticDiagnostic}
      (h : diagnostics.Perm diagnostics') :
    SameOutcome (.error (.error (.compile diagnostics))) (.error (.error (.compile diagnostics')))

theorem fromSource_order (order order' : IterationOrder) (source : String) :
    SameOutcome (PreparedModule.fromSource order source) (PreparedModule.fromSource order' source) := by
  obtain ⟨hir, hperm⟩ := lowerSource_order order order' source
  unfold PreparedModule.fromSource compileSource
  simp only [← hir]
  cases (lowerSource order source).ir with
  | some ir => exact .refl _
  | none => exact .compile hperm

theorem SameOutcome.bind {α β : Type} {x x' : Except Stop α} (h : SameOutcome x x')
    (f : α → Except Stop β) : SameOutcome (x >>= f) (x' >>= f) := by
  cases h with
  | refl => exact .refl _
  | compile hperm => exact .compile hperm

theorem SameOutcome.ok {α : Type} {x : Except Stop α} {a : α} (h : SameOutcome (.ok a) x) :
    x = .ok a := by
  cases h
  rfl

theorem executeSourceWithHost_order {ν : Type} [F64 ν] (host : HostEnvironment ν)
    (order order' : IterationOrder) (source : String) (fuel : ℕ) :
    SameOutcome (executeSourceWithHost host order source fuel)
      (executeSourceWithHost host order' source fuel) :=
  (fromSource_order order order' source).bind _

/-- In every check of the analysis the fields can be gone through in any order. -/
def SteadySource (source : String) : Prop := ∀ check ∈ sourceChecks source, check.Steady

theorem executeSourceWithHost_reported {ν : Type} [F64 ν] (host : HostEnvironment ν)
    {order : IterationOrder} {source : String} (fuel : ℕ)
    (h : (analyzeSource order source).diagnostics ≠ []) :
    executeSourceWithHost host order source fuel =
      .error (.error (.compile (analyzeSource order source).diagnostics)) := by
  have hreported : (analyzeSource order source).diagnostics.isEmpty = false :=
    List.isEmpty_eq_false_iff.mpr h
  unfold executeSourceWithHost PreparedModule.fromSource compileSource lowerSource
  simp only [hreported, Bool.false_eq_true, if_false]
  rfl

theorem executeSourceWithHost_equal_iff {ν : Type} [F64 ν] (host : HostEnvironment ν)
    (source : String) (fuel : ℕ) :
    (∀ order order', executeSourceWithHost host order source fuel =
      executeSourceWithHost host order' source fuel) ↔ SteadySource source := by
  rw [SteadySource, ← analyzeSource_equal_iff]
  constructor
  · intro h order order'
    have hempty := (analyzeSource_perm order order' source).isEmpty_eq
    by_cases hquiet : (analyzeSource order source).diagnostics = []
    · rw [hquiet] at hempty
      rw [hquiet, List.isEmpty_iff.mp hempty.symm]
    · have hquiet' : (analyzeSource order' source).diagnostics ≠ [] := by
        intro hnil
        rw [hnil] at hempty
        exact hquiet (List.isEmpty_iff.mp hempty)
      have hequal := h order order'
      rw [executeSourceWithHost_reported host fuel hquiet,
        executeSourceWithHost_reported host fuel hquiet'] at hequal
      injection hequal with hstop
      injection hstop with herror
      injection herror
  · intro h order order'
    rw [executeSourceWithHost, executeSourceWithHost, fromSource_equal (h order order')]

/-- Every entry is what a preparation of its key gives, under any order. -/
def Faithful (cache : PreparedModuleCache) : Prop :=
  ∀ source module, cache.modules[source]? = some module →
    ∀ order, PreparedModule.fromSource order source = .ok module

structure Sound (cache : PreparedModuleCache) : Prop where
  consistent : cache.Consistent
  faithful : Faithful cache

theorem fromSource_ok {order : IterationOrder} {source : String} {module : PreparedModule}
    (h : PreparedModule.fromSource order source = .ok module) (order' : IterationOrder) :
    PreparedModule.fromSource order' source = .ok module := by
  have hsame := fromSource_order order order' source
  rw [h] at hsame
  exact hsame.ok

theorem Faithful.insert {cache : PreparedModuleCache} (modules : Std.TreeMap String PreparedModule)
    (h : ∀ source module, modules[source]? = some module →
      ∀ order, PreparedModule.fromSource order source = .ok module)
    {lookup : Lookup} {module : PreparedModule}
    (hprepared : PreparedModule.fromSource lookup.order lookup.source = .ok module)
    (hcache : cache.modules = modules.insert lookup.source module) : Faithful cache := by
  intro source found hfound order
  rw [hcache, Std.TreeMap.getElem?_insert] at hfound
  simp only [Std.LawfulEqCmp.compare_eq_iff_eq] at hfound
  by_cases heq : lookup.source = source
  · rw [if_pos heq] at hfound
    rw [← Option.some.inj hfound, ← heq]
    exact fromSource_ok hprepared order
  · rw [if_neg heq] at hfound
    exact h source found hfound order

theorem Sound.new {capacity : ℕ} {cache : PreparedModuleCache}
    (h : PreparedModuleCache.new capacity = .ok cache) : Sound cache := by
  refine ⟨(PreparedModuleCache.new_accounts h).toConsistent, ?_⟩
  rw [PreparedModuleCache.new] at h
  split at h
  · cases h
  · rw [← Except.ok.inj h]
    exact fun source module hfound => by cases hfound

theorem Sound.getOrPrepare {cache : PreparedModuleCache} (h : Sound cache) (lookup : Lookup) :
    (PreparedModuleCache.getOrPrepare lookup cache).1.map CacheLookup.module =
        PreparedModule.fromSource lookup.order lookup.source ∧
      Sound (PreparedModuleCache.getOrPrepare lookup cache).2 := by
  have houtcome := h.consistent.outcome lookup
  have hconsistent := h.consistent.step houtcome
  cases hafter : PreparedModuleCache.getOrPrepare lookup cache with
  | mk result after =>
    rw [hafter] at houtcome hconsistent
    cases houtcome with
    | hit found => exact ⟨(h.faithful _ _ found lookup.order).symm, hconsistent, h.faithful⟩
    | failed absent failure => exact ⟨failure.symm, hconsistent, h.faithful⟩
    | inserted absent prepared room =>
      exact ⟨prepared.symm, hconsistent, Faithful.insert _ h.faithful prepared rfl⟩
    | @evicted module oldest rest absent prepared full front =>
      refine ⟨prepared.symm, hconsistent, Faithful.insert (cache.modules.erase oldest)
        (fun source found hfound => ?_) prepared rfl⟩
      rw [Std.TreeMap.getElem?_erase] at hfound
      split at hfound
      · exact absurd hfound nofun
      · exact h.faithful source found hfound

section Executions

variable {ν : Type} [F64 ν] (host : HostEnvironment ν) (fuel : ℕ)

/-- The plain path: compile, verify and run, without a session. -/
def executeUncachedSource (lookup : Lookup) (message : String) : Session ν (ExecutionOutput ν) :=
  mapError (executionError message)
    (lift (executeSourceWithHost host lookup.order lookup.source fuel))

theorem executeCachedSource_run (lookup : Lookup) (message : String) (s : PageScriptSession ν) :
    executeCachedSource host fuel lookup message s =
      match PreparedModuleCache.getOrPrepare lookup s.cache with
      | (.error stop, cache) => (.error (executionError message stop), { s with cache })
      | (.ok found, cache) =>
        mapError (executionError message) (executeWithHost host fuel found.module)
          { s with cache } := by
  unfold executeCachedSource
  cases hfound : PreparedModuleCache.getOrPrepare lookup s.cache with
  | mk result cache =>
    cases result with
    | error stop =>
      refine bind_error ?_
      simp only [mapError, onCache, hfound, Except.mapError]
    | ok found =>
      refine bind_ok ?_
      simp only [mapError, onCache, hfound, Except.mapError]

theorem executeCachedSource_cache (lookup : Lookup) (message : String) (s : PageScriptSession ν) :
    (executeCachedSource host fuel lookup message s).2.cache =
      (PreparedModuleCache.getOrPrepare lookup s.cache).2 := by
  rw [executeCachedSource_run]
  cases PreparedModuleCache.getOrPrepare lookup s.cache with
  | mk result cache => cases result <;> rfl

theorem executeCachedSource_result (hhost : Forgetful host) (lookup : Lookup) (message : String)
    {s : PageScriptSession ν} (hs : Sound s.cache) :
    (executeCachedSource host fuel lookup message s).1 =
      (executeSourceWithHost host lookup.order lookup.source fuel).mapError
        (executionError message) := by
  have hfound := (hs.getOrPrepare lookup).1
  rw [executeCachedSource_run, executeSourceWithHost]
  cases hlookup : PreparedModuleCache.getOrPrepare lookup s.cache with
  | mk result cache =>
    rw [hlookup] at hfound
    cases result with
    | error stop =>
      rw [← hfound]
      rfl
    | ok found =>
      rw [← hfound]
      have hrun := (execute_same found.module.module hhost fuel
        { Machine.new with hostCalls := s.hostCalls } .new ⟨rfl, rfl⟩).1
      change (Prod.fst (execute found.module.module host fuel
        { Machine.new with hostCalls := s.hostCalls })).mapError (executionError message) = _
      rw [hrun]
      rfl

end Executions

section Documents

variable {ν : Type} {R : PageScriptSession ν → PageScriptSession ν → Prop}

theorem ensureTypescriptAllowed_parallel (policy : ScriptPolicy) :
    Parallel R (ensureTypescriptAllowed policy) (ensureTypescriptAllowed policy) := by
  unfold ensureTypescriptAllowed
  split
  · exact .pure _
  · exact .fail _

variable {executeSource executeSource' : Lookup → String → Session ν (ExecutionOutput ν)}
  (hsource : ∀ lookup message,
    Parallel R (executeSource lookup message) (executeSource' lookup message))
include hsource

theorem executeScript_parallel (documentUrl : String) (resources : Sources) (script : ScriptSlice)
    (order : IterationOrder) :
    Parallel R (executeScript documentUrl resources executeSource script order)
      (executeScript documentUrl resources executeSource' script order) := by
  unfold executeScript
  cases scriptSrc script.openTag with
  | none => exact .bind (hsource _ _) fun _ => .pure _
  | some src =>
    simp only
    split
    · split
      · exact .fail _
      · exact .bind (hsource _ _) fun _ => .pure _
    · exact .fail _

theorem executeScripts_parallel (documentUrl : String) (resources : Sources) (policy : ScriptPolicy)
    (orders : ℕ → IterationOrder) (scripts : List (ScriptSlice × ℕ)) (output : BrowserExecution ν) :
    Parallel R (executeScripts documentUrl resources policy executeSource orders scripts output)
      (executeScripts documentUrl resources policy executeSource' orders scripts output) := by
  induction scripts generalizing output with
  | nil => exact .pure _
  | cons script scripts ih =>
    obtain ⟨script, index⟩ := script
    rw [executeScripts, executeScripts]
    split
    · refine .bind (ensureTypescriptAllowed_parallel policy) fun _ => ?_
      exact .bind (executeScript_parallel hsource documentUrl resources script _) fun _ => ih _
    · exact ih output

end Documents

def scriptText (documentUrl : String) (resources : Sources) (script : ScriptSlice) :
    Option String :=
  match scriptSrc script.openTag with
  | some src =>
    let specifier := resolveUrl documentUrl src
    if resources.contains specifier then
      match bundleModuleGraph specifier resources with
      | .error _ => none
      | .ok graph => some graph.bundledSource
    else none
  | none => some script.body

section Texts

variable {ν : Type} {documentUrl : String} {resources : Sources} {script : ScriptSlice}

variable (ν documentUrl resources script) in
/-- A script whose text is there executes it, any other fails whatever executes the texts. -/
theorem executeScript_cases :
    (∃ source message kind, scriptText documentUrl resources script = some source ∧
      ∀ (executeSource : Lookup → String → Session ν (ExecutionOutput ν)) order,
        executeScript documentUrl resources executeSource script order = (do
          let execution ← executeSource ⟨order, source⟩ message
          Pure.pure (execution, kind))) ∨
    scriptText documentUrl resources script = none ∧ ∃ failed,
      ∀ (executeSource : Lookup → String → Session ν (ExecutionOutput ν)) order,
        executeScript documentUrl resources executeSource script order = failed := by
  unfold scriptText executeScript
  cases scriptSrc script.openTag with
  | none => exact .inl ⟨_, _, _, rfl, fun _ _ => rfl⟩
  | some src =>
    simp only
    by_cases hcontains : resources.contains (resolveUrl documentUrl src) = true
    · simp only [if_pos hcontains]
      cases bundleModuleGraph (resolveUrl documentUrl src) resources with
      | error diagnostics => exact .inr ⟨rfl, _, fun _ _ => rfl⟩
      | ok graph => exact .inl ⟨_, _, _, rfl, fun _ _ => rfl⟩
    · simp only [if_neg hcontains]
      exact .inr ⟨trivial, _, fun _ _ => rfl⟩

variable [F64 ν]

theorem executeUncachedSource_orders {host : HostEnvironment ν} {fuel : ℕ} {source : String}
    (hsteady : SteadySource source) (order order' : IterationOrder) (message : String) :
    executeUncachedSource host fuel ⟨order, source⟩ message =
      executeUncachedSource host fuel ⟨order', source⟩ message := by
  rw [executeUncachedSource, executeUncachedSource,
    (executeSourceWithHost_equal_iff host source fuel).mpr hsteady order order']

theorem executeScripts_orders (policy : ScriptPolicy) (host : HostEnvironment ν) (fuel : ℕ)
    (orders orders' : ℕ → IterationOrder) {scripts : List (ScriptSlice × ℕ)}
    (hsteady : ∀ script ∈ scripts, script.1.isTypescript = true →
      ∀ source ∈ scriptText documentUrl resources script.1, SteadySource source)
    (output : BrowserExecution ν) :
    executeScripts documentUrl resources policy (executeUncachedSource host fuel) orders scripts
        output =
      executeScripts documentUrl resources policy (executeUncachedSource host fuel) orders' scripts
        output := by
  induction scripts generalizing output with
  | nil => rfl
  | cons first scripts ih =>
    obtain ⟨script, index⟩ := first
    obtain ⟨hfirst, hrest⟩ := List.forall_mem_cons.mp hsteady
    have hscript (htypescript : script.isTypescript = true) :
        executeScript documentUrl resources (executeUncachedSource host fuel) script
            (orders index) =
          executeScript documentUrl resources (executeUncachedSource host fuel) script
            (orders' index) := by
      obtain ⟨source, message, kind, htext, hexecute⟩ | ⟨_, failed, hfailed⟩ :=
        executeScript_cases ν documentUrl resources script
      · have hsource := hfirst htypescript source htext
        rw [hexecute, hexecute, executeUncachedSource_orders hsource _ (orders' index)]
      · rw [hfailed, hfailed]
    rw [executeScripts, executeScripts]
    by_cases htypescript : script.isTypescript = true
    · simp only [if_pos htypescript, hscript htypescript, ih hrest]
    · simp only [if_neg htypescript, ih hrest]

end Texts

section Sessions

variable {ν : Type} [F64 ν]

def SoundTwice (s s' : PageScriptSession ν) : Prop := s = s' ∧ Sound s.cache

theorem executeCachedSource_sound (host : HostEnvironment ν) (fuel : ℕ) (lookup : Lookup)
    (message : String) :
    Parallel SoundTwice (executeCachedSource host fuel lookup message)
      (executeCachedSource host fuel lookup message) := by
  rintro s s' ⟨rfl, hs⟩
  refine ⟨rfl, rfl, ?_⟩
  rw [executeCachedSource_cache]
  exact (hs.getOrPrepare lookup).2

theorem perform_sound (call : SessionCall ν) :
    Parallel SoundTwice (perform call) (perform call) := by
  cases call with
  | inline lookup host policy fuel =>
    refine .bind (.bind (ensureTypescriptAllowed_parallel policy) fun _ => ?_) fun _ => .pure _
    exact executeCachedSource_sound host fuel lookup _
  | document documentUrl html resources host policy fuel orders =>
    refine .bind ?_ fun _ => .pure _
    exact executeScripts_parallel (executeCachedSource_sound host fuel) _ _ _ _ _ _

theorem performAll_sound (calls : List (SessionCall ν)) {session : PageScriptSession ν}
    (h : Sound session.cache) : Sound (performAll calls session).2.cache := by
  induction calls generalizing session with
  | nil => exact h
  | cons call calls ih => exact ih (perform_sound call session session ⟨rfl, h⟩).2.2

omit [F64 ν] in
theorem sound_of_new {capacity : ℕ} {session : PageScriptSession ν}
    (h : PageScriptSession.new capacity = .ok session) : Sound session.cache := by
  unfold PageScriptSession.new at h
  cases hcache : PreparedModuleCache.new capacity with
  | error error =>
    rw [hcache] at h
    exact absurd h nofun
  | ok cache =>
    rw [hcache] at h
    rw [← Except.ok.inj h]
    exact Sound.new hcache

def SoundFirst (s _s' : PageScriptSession ν) : Prop := Sound s.cache

theorem executeCachedSource_uncached {host : HostEnvironment ν} (hhost : Forgetful host) (fuel : ℕ)
    (lookup : Lookup) (message : String) :
    Parallel SoundFirst (executeCachedSource host fuel lookup message)
      (executeUncachedSource host fuel lookup message) := by
  intro s s' hs
  refine ⟨executeCachedSource_result host fuel hhost lookup message hs, ?_⟩
  change Sound (executeCachedSource host fuel lookup message s).2.cache
  rw [executeCachedSource_cache]
  exact (Sound.getOrPrepare hs lookup).2

/-- The results of the two entry points: the same status, and the same text on success. -/
structure SameApiResult (plain paged : Except Stop CApiResult) : Prop where
  status : plain.map CApiResult.status = paged.map CApiResult.status
  success : ∀ result, plain = .ok result → result.status = .ok → paged = .ok result

theorem fromUTF8_toUTF8 (source : String) : String.fromUTF8? source.toUTF8 = some source :=
  dif_pos source.isValidUTF8

theorem fromExecuteError_ne_ok (error : ExecuteError) : Status.fromExecuteError error ≠ .ok := by
  cases error <;> nofun

theorem executePageSessionUtf8_same (isFinite : ν → Bool) (debug : ExecuteError → String)
    (utf8Error : ByteArray → String) {lookup : Lookup} {policy : ScriptPolicy} {fuel : ℕ}
    {session : PageScriptSession ν}
    (h : (PageScriptSession.executeInlineTypescript .new fuel lookup policy session).1 =
      (executeSourceWithHost .new lookup.order lookup.source fuel).mapError
        (executionError "failed to execute inline TypeScript script")) :
    SameApiResult (executeUtf8 isFinite debug utf8Error lookup.source.toUTF8 lookup.order fuel)
      (executePageSessionUtf8 isFinite lookup policy fuel session).1 := by
  unfold executeUtf8 executePageSessionUtf8
  simp only [fromUTF8_toUTF8, h]
  cases executeSourceWithHost (HostEnvironment.new : HostEnvironment ν) lookup.order lookup.source
      fuel with
  | ok output => exact ⟨rfl, fun result hresult _ => hresult⟩
  | error stop =>
    cases stop with
    | error error =>
      refine ⟨rfl, fun result hresult hstatus => ?_⟩
      rw [← Except.ok.inj hresult] at hstatus
      exact absurd hstatus (fromExecuteError_ne_ok error)
    | panic => exact ⟨rfl, nofun⟩
    | stackOverflow => exact ⟨rfl, nofun⟩
    | outOfFuel => exact ⟨rfl, nofun⟩

/-- What a session returns, against executions without a cache. -/
structure CacheInvisible (session : PageScriptSession ν) : Prop where
  inline : ∀ host, Forgetful host → ∀ lookup policy fuel, policy.allowTypescript = true →
    (PageScriptSession.executeInlineTypescript host fuel lookup policy session).1 =
      (executeSourceWithHost host lookup.order lookup.source fuel).mapError
        (executionError "failed to execute inline TypeScript script")
  /-- Each script of a document does what a plain execution of its source does. -/
  document : ∀ host, Forgetful host → ∀ documentUrl html resources policy fuel orders,
    (PageScriptSession.executeTypescriptScriptsWithPolicy documentUrl html resources host policy
        fuel orders session).1 =
      (executeScripts documentUrl resources policy (executeUncachedSource host fuel) orders
        (findScripts html).zipIdx ⟨[], [], false⟩ session).1
  api : ∀ isFinite debug utf8Error lookup policy fuel, policy.allowTypescript = true →
    SameApiResult (executeUtf8 isFinite debug utf8Error lookup.source.toUTF8 lookup.order fuel)
      (executePageSessionUtf8 isFinite lookup policy fuel session).1

/-- What a session returns for a source, against executions that go through their maps in orders
    of their own. -/
structure InvisibleFor (session : PageScriptSession ν) (source : String) : Prop where
  inline : ∀ host, Forgetful host → ∀ order order' policy fuel, policy.allowTypescript = true →
    (PageScriptSession.executeInlineTypescript host fuel ⟨order, source⟩ policy session).1 =
      (executeSourceWithHost host order' source fuel).mapError
        (executionError "failed to execute inline TypeScript script")
  script : ∀ host, Forgetful host → ∀ documentUrl resources script order order' fuel,
    scriptText documentUrl resources script = some source →
      (executeScript documentUrl resources (executeCachedSource host fuel) script order session).1 =
        (executeScript documentUrl resources (executeUncachedSource host fuel) script order'
          session).1

/-- The same for every source that a session is asked for. -/
structure InvisibleUnderOrders (session : PageScriptSession ν) : Prop where
  sources : ∀ source, InvisibleFor session source ↔ SteadySource source
  documents : ∀ host, Forgetful host → ∀ documentUrl html resources policy fuel orders orders',
    (∀ script ∈ findScripts html, script.isTypescript = true →
      ∀ source ∈ scriptText documentUrl resources script, SteadySource source) →
    (PageScriptSession.executeTypescriptScriptsWithPolicy documentUrl html resources host policy
        fuel orders session).1 =
      (executeScripts documentUrl resources policy (executeUncachedSource host fuel) orders'
        (findScripts html).zipIdx ⟨[], [], false⟩ session).1
  api : ∀ isFinite debug utf8Error source order order' policy fuel, policy.allowTypescript = true →
    SameApiResult (executeUtf8 isFinite debug utf8Error source.toUTF8 order' fuel)
      (executePageSessionUtf8 isFinite ⟨order, source⟩ policy fuel session).1

theorem cacheInvisible_of_sound {session : PageScriptSession ν} (h : Sound session.cache) :
    CacheInvisible session := by
  have hinline : ∀ host, Forgetful host → ∀ lookup policy fuel, policy.allowTypescript = true →
      (PageScriptSession.executeInlineTypescript host fuel lookup policy session).1 =
        (executeSourceWithHost host lookup.order lookup.source fuel).mapError
          (executionError "failed to execute inline TypeScript script") := by
    intro host hhost lookup policy fuel hpolicy
    unfold PageScriptSession.executeInlineTypescript ensureTypescriptAllowed
    rw [if_pos hpolicy, bind_ok (pure_run () session)]
    exact executeCachedSource_result host fuel hhost lookup _ h
  refine
    { inline := hinline
      document := fun host hhost documentUrl html resources policy fuel orders => ?_
      api := fun isFinite debug utf8Error lookup policy fuel hpolicy =>
        executePageSessionUtf8_same isFinite debug utf8Error
          (hinline .new forgetful_new lookup policy fuel hpolicy) }
  exact (executeScripts_parallel (executeCachedSource_uncached hhost fuel) documentUrl resources
    policy orders _ _ session session h).1

theorem mapError_executionError_injective {α : Type} {message : String} {x y : Except Stop α}
    (h : x.mapError (executionError message) = y.mapError (executionError message)) : x = y := by
  cases x with
  | ok a =>
    cases y with
    | ok b => exact congrArg Except.ok (Except.ok.inj h)
    | error e => cases h
  | error e =>
    cases y with
    | ok b => cases h
    | error e' =>
      have hstop := Except.error.inj h
      cases e <;> cases e' <;> cases hstop <;> rfl

theorem invisibleFor_of_steady {session : PageScriptSession ν} (h : Sound session.cache)
    {source : String} (hsteady : SteadySource source) : InvisibleFor session source := by
  have hinvisible := cacheInvisible_of_sound h
  have hequal (host : HostEnvironment ν) (fuel : ℕ) (order order' : IterationOrder) :
      executeSourceWithHost host order source fuel =
        executeSourceWithHost host order' source fuel :=
    (executeSourceWithHost_equal_iff host source fuel).mpr hsteady order order'
  have hinline : ∀ host, Forgetful host → ∀ order order' policy fuel,
      policy.allowTypescript = true →
        (PageScriptSession.executeInlineTypescript host fuel ⟨order, source⟩ policy session).1 =
          (executeSourceWithHost host order' source fuel).mapError
            (executionError "failed to execute inline TypeScript script") := by
    intro host hhost order order' policy fuel hpolicy
    rw [← hequal host fuel order order']
    exact hinvisible.inline host hhost ⟨order, source⟩ policy fuel hpolicy
  refine ⟨hinline, fun host hhost documentUrl resources script order order' fuel htext => ?_⟩
  obtain ⟨found, message, kind, hfound, hexecute⟩ | ⟨hnone, _⟩ :=
    executeScript_cases ν documentUrl resources script
  · obtain rfl : found = source := Option.some_inj.mp (hfound.symm.trans htext)
    rw [hexecute, hexecute, executeUncachedSource_orders hsteady order' order]
    have hparallel := (executeCachedSource_uncached hhost fuel ⟨order, found⟩ message).bind
      fun execution => .pure (execution, kind)
    exact (hparallel session session h).1
  · rw [hnone] at htext
    cases htext

theorem SameApiResult.order {order order' : IterationOrder} {source : String} {fuel : ℕ}
    {isFinite : ν → Bool} {debug : ExecuteError → String} {utf8Error : ByteArray → String}
    {paged : Except Stop CApiResult}
    (h : SameApiResult (executeUtf8 isFinite debug utf8Error source.toUTF8 order fuel) paged) :
    SameApiResult (executeUtf8 isFinite debug utf8Error source.toUTF8 order' fuel) paged := by
  have hsame := executeSourceWithHost_order (.new : HostEnvironment ν) order order' source fuel
  unfold executeUtf8 at h ⊢
  simp only [fromUTF8_toUTF8] at h ⊢
  generalize executeSourceWithHost (HostEnvironment.new : HostEnvironment ν) order source fuel =
    outcome at h hsame
  generalize executeSourceWithHost (HostEnvironment.new : HostEnvironment ν) order' source fuel =
    outcome' at hsame ⊢
  cases hsame with
  | refl => exact h
  | @compile diagnostics diagnostics' hperm =>
    refine ⟨h.status, fun result hresult hstatus => ?_⟩
    rw [← Except.ok.inj hresult] at hstatus
    exact absurd hstatus (fromExecuteError_ne_ok (.compile diagnostics'))

/-- After any calls, in a session of any capacity, the cache cannot be told from its absence for
    exactly the steady sources. For the others an execution under another order differs in the
    order of the diagnostics of a compile error, and in nothing else. -/
theorem performAll_cacheInvisible {capacity : ℕ} {session : PageScriptSession ν}
    (hnew : PageScriptSession.new capacity = .ok session) (calls : List (SessionCall ν)) :
    InvisibleUnderOrders (performAll calls session).2 ∧
      CacheInvisible (performAll calls session).2 ∧
      ∀ (host : HostEnvironment ν) order order' source fuel,
        SameOutcome (executeSourceWithHost host order source fuel)
          (executeSourceWithHost host order' source fuel) := by
  have hsound := performAll_sound calls (sound_of_new hnew)
  have hinvisible := cacheInvisible_of_sound hsound
  refine ⟨⟨fun source => ⟨fun h => ?_, invisibleFor_of_steady hsound⟩, ?_, ?_⟩, hinvisible,
    executeSourceWithHost_order⟩
  · -- What the session returns under `order` is the plain execution under any other order.
    refine (executeSourceWithHost_equal_iff (.new : HostEnvironment ν) source 0).mp
      fun order order' => ?_
    have hsame := hinvisible.inline .new forgetful_new ⟨order, source⟩ .default 0 rfl
    have hother := h.inline .new forgetful_new order order' .default 0 rfl
    exact mapError_executionError_injective (hsame.symm.trans hother)
  · intro host hhost documentUrl html resources policy fuel orders orders' hsteady
    have hscripts : ∀ script ∈ (findScripts html).zipIdx, script.1.isTypescript = true →
        ∀ source ∈ scriptText documentUrl resources script.1, SteadySource source :=
      fun script hmem => hsteady script.1
        (List.mem_of_getElem? (List.mem_zipIdx_iff_getElem?.mp hmem))
    rw [hinvisible.document host hhost documentUrl html resources policy fuel orders,
      executeScripts_orders policy host fuel orders orders' hscripts]
  · intro isFinite debug utf8Error source order order' policy fuel hpolicy
    exact (hinvisible.api isFinite debug utf8Error ⟨order, source⟩ policy fuel hpolicy).order

/-- A call that prepares its source, and one that finds it in the cache. -/
theorem performAll_cacheInvisible_twice :
    let calls : List (SessionCall Int) := List.replicate 2 (.inline ⟨.listed, "1;"⟩ .new .default 4)
    let after := (performAll calls ⟨⟨1, ∅, [], 0, 0, 0⟩, []⟩).2
    InvisibleUnderOrders after ∧ CacheInvisible after ∧
      ∀ (host : HostEnvironment Int) order order' source fuel,
        SameOutcome (executeSourceWithHost host order source fuel)
          (executeSourceWithHost host order' source fuel) :=
  @performAll_cacheInvisible Int _ 1 _ rfl _

def messagesOf {α : Type} : Except LoaderStop α → List String
  | .error (.error ⟨_, some (.compile diagnostics)⟩) => diagnostics.map SemanticDiagnostic.message
  | _ => []

/-- A first call for an object without the two properties of its type, and a plain execution
    whose map of the type goes the other way round. -/
theorem missingSource_visible :
    let source := "let o: { a: number, b: number } = {};"
    let session : PageScriptSession Int := ⟨⟨1, ∅, [], 0, 0, 0⟩, []⟩
    let called := (PageScriptSession.executeInlineTypescript .new 4 ⟨.listed, source⟩ .default
      session).1
    let plain := (executeSourceWithHost .new reversed source 4).mapError
      (executionError "failed to execute inline TypeScript script")
    PageScriptSession.new 1 = .ok session ∧
      messagesOf called = ["missing property `a`", "missing property `b`"] ∧
      messagesOf plain = ["missing property `b`", "missing property `a`"] ∧ called ≠ plain := by
  intro source session called plain
  have hcalled : messagesOf called = ["missing property `a`", "missing property `b`"] := by
    decide +kernel
  have hplain : messagesOf plain = ["missing property `b`", "missing property `a`"] := by
    decide +kernel
  refine ⟨rfl, hcalled, hplain, fun h => ?_⟩
  rw [h, hplain] at hcalled
  exact absurd hcalled (by decide)

theorem executeTypescriptScriptsWithPolicy_uncached {host : HostEnvironment ν}
    (hhost : Forgetful host) (documentUrl html : String) (resources : Sources)
    (policy : ScriptPolicy) (fuel : ℕ) (orders : ℕ → IterationOrder)
    (session : PageScriptSession ν) :
    executeTypescriptScriptsWithPolicy documentUrl html resources host policy fuel orders =
      (executeScripts documentUrl resources policy (executeUncachedSource host fuel) orders
        (findScripts html).zipIdx ⟨[], [], false⟩ session).1 :=
  (executeScripts_parallel (executeCachedSource_uncached hhost fuel) documentUrl resources policy
    orders _ _ ⟨⟨1, ∅, [], 0, 0, 0⟩, []⟩ session (@sound_of_new ν 1 _ rfl)).1

omit [F64 ν] in
theorem ensureTypescriptAllowed_blocked {policy : ScriptPolicy}
    (h : policy.allowTypescript = false) (s : PageScriptSession ν) :
    ∃ stop, ensureTypescriptAllowed policy s = (.error stop, s) := by
  unfold ensureTypescriptAllowed
  rw [h]
  exact ⟨_, rfl⟩

omit [F64 ν] in
theorem executeScripts_blocked (documentUrl : String) (resources : Sources) {policy : ScriptPolicy}
    (h : policy.allowTypescript = false)
    (executeSource : Lookup → String → Session ν (ExecutionOutput ν)) (orders : ℕ → IterationOrder)
    (scripts : List (ScriptSlice × ℕ)) (output : BrowserExecution ν) (s : PageScriptSession ν) :
    (executeScripts documentUrl resources policy executeSource orders scripts output s).2 = s := by
  induction scripts generalizing output with
  | nil => rfl
  | cons script scripts ih =>
    obtain ⟨script, index⟩ := script
    rw [executeScripts]
    split
    · obtain ⟨stop, hblocked⟩ := ensureTypescriptAllowed_blocked h s
      rw [bind_error hblocked]
    · exact ih output

theorem perform_blocked {call : SessionCall ν} (h : call.policy.allowTypescript = false)
    (s : PageScriptSession ν) : (perform call s).2 = s := by
  cases call with
  | inline lookup host policy fuel =>
    obtain ⟨stop, hblocked⟩ := ensureTypescriptAllowed_blocked h s
    have hinline : PageScriptSession.executeInlineTypescript host fuel lookup policy s =
        (.error stop, s) := bind_error hblocked
    rw [perform, bind_error hinline]
  | document documentUrl html resources host policy fuel orders =>
    have hscripts := executeScripts_blocked documentUrl resources h (executeCachedSource host fuel)
      orders (findScripts html).zipIdx ⟨[], [], false⟩ s
    rw [perform]
    cases hrun : PageScriptSession.executeTypescriptScriptsWithPolicy documentUrl html resources
        host policy fuel orders s with
    | mk result t =>
      have ht : t = s := (congrArg Prod.snd hrun).symm.trans hscripts
      subst ht
      cases result with
      | error stop => rw [bind_error hrun]
      | ok output =>
        rw [bind_ok hrun]
        rfl

def isAllowed (call : SessionCall ν) : Bool := call.policy.allowTypescript

def allowedResults (calls : List (SessionCall ν)) (results : List (SessionResult ν)) :
    List (SessionResult ν) :=
  ((calls.zip results).filter fun call => isAllowed call.1).map Prod.snd

theorem performAll_cons (call : SessionCall ν) (calls : List (SessionCall ν))
    (session : PageScriptSession ν) :
    performAll (call :: calls) session =
      ((perform call session).1 :: (performAll calls (perform call session).2).1,
        (performAll calls (perform call session).2).2) := rfl

/-- Without its blocked calls a sequence has the same other results and ends in the same session;
    and a blocked call changes nothing, so it calls no host function. -/
theorem performAll_allowed (calls : List (SessionCall ν)) (session : PageScriptSession ν) :
    performAll (calls.filter isAllowed) session =
      (allowedResults calls (performAll calls session).1, (performAll calls session).2) ∧
    ∀ call : SessionCall ν, call.policy.allowTypescript = false →
      ∀ s, (perform call s).2 = s := by
  refine ⟨?_, fun call hblocked => perform_blocked hblocked⟩
  induction calls generalizing session with
  | nil => rfl
  | cons call calls ih =>
    by_cases hallowed : isAllowed call = true
    · rw [List.filter_cons_of_pos hallowed, performAll_cons, performAll_cons, ih]
      simp only [allowedResults, List.zip_cons_cons, List.filter_cons, hallowed, if_true,
        List.map_cons]
    · have hblocked : (perform call session).2 = session :=
        perform_blocked (Bool.eq_false_iff.mpr hallowed) session
      rw [List.filter_cons_of_neg hallowed, performAll_cons, hblocked, ih]
      simp only [allowedResults, List.zip_cons_cons, List.filter_cons, hallowed, Bool.false_eq_true,
        if_false]

theorem performAll_allowed_between :
    let call (allow : Bool) : SessionCall Int := .inline ⟨.listed, "1;"⟩ .new ⟨allow⟩ 4
    let calls := [call true, call false, call true]
    let session : PageScriptSession Int := ⟨⟨1, ∅, [], 0, 0, 0⟩, []⟩
    performAll (calls.filter isAllowed) session =
      (allowedResults calls (performAll calls session).1, (performAll calls session).2) ∧
    ∀ call : SessionCall Int, call.policy.allowTypescript = false →
      ∀ s, (perform call s).2 = s :=
  performAll_allowed _ _

end Sessions

end Tsvm.SessionRuns
