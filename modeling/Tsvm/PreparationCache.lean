import Mathlib.Data.List.Perm.Subperm
import Tsvm.Pipeline

set_option autoImplicit false

/-!
# The cache of prepared modules

The map and the queue of insertions hold the same sources. Over any sequence of
lookups the queue is the most recent part of all insertions.
-/
namespace Tsvm.PreparationCache
open Pipeline RuntimeValues Semantic

inductive CacheLookupStatus where
  | hit
  | miss
  deriving Repr, DecidableEq

structure PreparedModuleCacheStats where
  hits : ℕ
  misses : ℕ
  evictions : ℕ
  entries : ℕ
  deriving Repr, DecidableEq

inductive PreparedModuleCacheError where
  | zeroCapacity
  deriving Repr, DecidableEq

structure CacheLookup where
  status : CacheLookupStatus
  module : PreparedModule

structure PreparedModuleCache where
  capacity : ℕ
  modules : Std.TreeMap String PreparedModule
  insertionOrder : List String
  hits : ℕ
  misses : ℕ
  evictions : ℕ

abbrev Cached (α : Type) := FailState Stop PreparedModuleCache α

/-- The source of a lookup, with the order its analysis goes through hash maps. -/
structure Lookup where
  order : IterationOrder
  source : String

namespace PreparedModuleCache

def new (capacity : ℕ) : Except PreparedModuleCacheError PreparedModuleCache :=
  if capacity = 0 then .error .zeroCapacity else .ok ⟨capacity, ∅, [], 0, 0, 0⟩

/-- `modules.get(source).expect(..)`. -/
def expectModule (source : String) : Cached PreparedModule := do
  let s ← FailState.read
  match s.modules[source]? with
  | some module => pure module
  | none => FailState.fail .panic

/-- The source at the front of the queue leaves; a `debug_assert` wants it in the map. -/
def evictOldest : Cached Unit := do
  let s ← FailState.read
  match s.insertionOrder with
  | [] => FailState.fail .panic
  | evictedSource :: insertionOrder =>
    if s.modules.contains evictedSource then
      FailState.modify fun s => { s with
        modules := s.modules.erase evictedSource
        insertionOrder
        evictions := s.evictions + 1 }
    else FailState.fail .panic

def makeRoom : Cached Unit := do
  let s ← FailState.read
  if s.modules.size = s.capacity then evictOldest else pure ()

def getOrPrepare (lookup : Lookup) : Cached CacheLookup := do
  let source := lookup.source
  let s ← FailState.read
  if s.modules.contains source then
    FailState.modify fun s => { s with hits := s.hits + 1 }
    let module ← expectModule source
    pure ⟨.hit, module⟩
  else
    FailState.modify fun s => { s with misses := s.misses + 1 }
    let module ← FailState.lift (PreparedModule.fromSource lookup.order source)
    makeRoom
    FailState.modify fun s => { s with
      insertionOrder := s.insertionOrder ++ [source]
      modules := s.modules.insert source module }
    let module ← expectModule source
    pure ⟨.miss, module⟩

def stats (cache : PreparedModuleCache) : PreparedModuleCacheStats :=
  ⟨cache.hits, cache.misses, cache.evictions, cache.modules.size⟩

def run : List Lookup → PreparedModuleCache → List (Except Stop CacheLookup) × PreparedModuleCache
  | [], cache => ([], cache)
  | lookup :: lookups, cache =>
    let (result, cache) := getOrPrepare lookup cache
    let (results, cache) := run lookups cache
    (result :: results, cache)

end PreparedModuleCache

def recent {κ : Type} (capacity : ℕ) (history : List κ) : List κ :=
  history.drop (history.length - capacity)

def CacheLookup.isInsertion : Except Stop CacheLookup → Bool
  | .ok ⟨.miss, _⟩ => true
  | _ => false

/-- The sources whose lookup missed and whose preparation succeeded, in their order. -/
def insertions (lookups : List Lookup) (results : List (Except Stop CacheLookup)) : List String :=
  ((lookups.zip results).filter fun call => CacheLookup.isInsertion call.2).map fun call =>
    call.1.source

section Recent

variable {κ : Type} {capacity : ℕ}

theorem recent_length (history : List κ) :
    (recent capacity history).length = min capacity history.length := by
  rw [recent, List.length_drop]
  omega

theorem recent_append_of_lt {history : List κ} (key : κ)
    (h : (recent capacity history).length < capacity) :
    recent capacity (history ++ [key]) = recent capacity history ++ [key] := by
  rw [recent_length] at h
  have hold : history.length - capacity = 0 := by omega
  have hnew : (history ++ [key]).length - capacity = 0 := by
    rw [List.length_append, List.length_singleton]
    omega
  rw [recent, recent, hold, hnew, List.drop_zero, List.drop_zero]

theorem recent_append_of_full {history rest : List κ} {oldest : κ} (key : κ)
    (h : recent capacity history = oldest :: rest) (hfull : (oldest :: rest).length = capacity) :
    recent capacity (history ++ [key]) = rest ++ [key] := by
  have hlength : (recent capacity history).length = capacity := by rw [h, hfull]
  rw [recent_length] at hlength
  have hpos : 0 < capacity := by
    rw [← hfull]
    exact Nat.succ_pos _
  have hnew : (history ++ [key]).length - capacity = (history.length - capacity) + 1 := by
    rw [List.length_append, List.length_singleton]
    omega
  rw [recent, hnew, List.drop_append_of_le_length (by omega), ← List.tail_drop]
  exact congrArg (fun queue => queue.tail ++ [key]) h

end Recent

section Keys

variable {β : Type} {modules : Std.TreeMap String β} {source : String}

theorem keys_insert_perm {order : List String} (module : β) (h : modules.keys.Perm order)
    (habsent : source ∉ modules) : (modules.insert source module).keys.Perm (order ++ [source]) := by
  have hnodup : order.Nodup := h.nodup Std.TreeMap.nodup_keys
  have hnew : source ∉ order := fun hmem =>
    habsent (Std.TreeMap.mem_keys.mp (h.mem_iff.mpr hmem))
  refine (List.perm_ext_iff_of_nodup Std.TreeMap.nodup_keys ?_).mpr fun key => ?_
  · rw [← List.concat_eq_append]
    exact hnodup.concat hnew
  · rw [Std.TreeMap.mem_keys, Std.TreeMap.mem_insert, Std.LawfulEqCmp.compare_eq_iff_eq,
      List.mem_append, List.mem_singleton, ← h.mem_iff, Std.TreeMap.mem_keys, or_comm,
      eq_comm (a := source)]

theorem keys_erase_perm {rest : List String} (h : modules.keys.Perm (source :: rest)) :
    (modules.erase source).keys.Perm rest := by
  have hnodup : (source :: rest).Nodup := h.nodup Std.TreeMap.nodup_keys
  refine (List.perm_ext_iff_of_nodup Std.TreeMap.nodup_keys hnodup.tail).mpr fun key => ?_
  have hmem : key ∈ modules ↔ key ∈ source :: rest := by
    rw [← h.mem_iff, Std.TreeMap.mem_keys]
  rw [Std.TreeMap.mem_keys, Std.TreeMap.mem_erase, ne_eq, Std.LawfulEqCmp.compare_eq_iff_eq, hmem,
    List.mem_cons]
  constructor
  · rintro ⟨hne, rfl | hrest⟩
    · exact absurd rfl hne
    · exact hrest
  · intro hrest
    refine ⟨fun heq => ?_, .inr hrest⟩
    subst heq
    exact (List.nodup_cons.mp hnodup).1 hrest

end Keys

namespace PreparedModuleCache

/-- The queue and the map agree, and the cache is not over full. -/
structure Consistent (cache : PreparedModuleCache) : Prop where
  keys_perm : cache.modules.keys.Perm cache.insertionOrder
  size_le : cache.modules.size ≤ cache.capacity
  capacity_pos : 0 < cache.capacity

/-- All that a lookup can do to a consistent cache. -/
inductive Outcome (lookup : Lookup) (cache : PreparedModuleCache) :
    Except Stop CacheLookup × PreparedModuleCache → Prop
  | hit {module : PreparedModule} (found : cache.modules[lookup.source]? = some module) :
    Outcome lookup cache (.ok ⟨.hit, module⟩, { cache with hits := cache.hits + 1 })
  | failed {stop : Stop} (absent : lookup.source ∉ cache.modules)
      (failure : PreparedModule.fromSource lookup.order lookup.source = .error stop) :
    Outcome lookup cache (.error stop, { cache with misses := cache.misses + 1 })
  | inserted {module : PreparedModule} (absent : lookup.source ∉ cache.modules)
      (prepared : PreparedModule.fromSource lookup.order lookup.source = .ok module)
      (room : cache.modules.size < cache.capacity) :
    Outcome lookup cache (.ok ⟨.miss, module⟩, { cache with
      misses := cache.misses + 1
      insertionOrder := cache.insertionOrder ++ [lookup.source]
      modules := cache.modules.insert lookup.source module })
  | evicted {module : PreparedModule} {oldest : String} {rest : List String}
      (absent : lookup.source ∉ cache.modules)
      (prepared : PreparedModule.fromSource lookup.order lookup.source = .ok module)
      (full : cache.modules.size = cache.capacity)
      (front : cache.insertionOrder = oldest :: rest) :
    Outcome lookup cache (.ok ⟨.miss, module⟩, { cache with
      misses := cache.misses + 1
      insertionOrder := rest ++ [lookup.source]
      modules := (cache.modules.erase oldest).insert lookup.source module
      evictions := cache.evictions + 1 })

namespace Consistent

variable {cache : PreparedModuleCache}

theorem mem_iff (h : cache.Consistent) (source : String) :
    source ∈ cache.insertionOrder ↔ source ∈ cache.modules := by
  rw [← h.keys_perm.mem_iff, Std.TreeMap.mem_keys]

theorem nodup (h : cache.Consistent) : cache.insertionOrder.Nodup :=
  h.keys_perm.nodup Std.TreeMap.nodup_keys

theorem length_eq (h : cache.Consistent) : cache.insertionOrder.length = cache.modules.size := by
  rw [← h.keys_perm.length_eq, Std.TreeMap.length_keys]

theorem front_of_full (h : cache.Consistent) (hfull : cache.modules.size = cache.capacity) :
    ∃ oldest rest, cache.insertionOrder = oldest :: rest ∧ oldest ∈ cache.modules := by
  have hlength := h.length_eq
  have hpos := h.capacity_pos
  cases horder : cache.insertionOrder with
  | nil =>
    rw [horder, List.length_nil] at hlength
    omega
  | cons oldest rest =>
    refine ⟨oldest, rest, rfl, (h.mem_iff oldest).mp ?_⟩
    rw [horder]
    exact List.mem_cons_self

theorem evictOldest_eq {oldest : String} {rest : List String}
    (hfront : cache.insertionOrder = oldest :: rest) (hmem : oldest ∈ cache.modules) :
    evictOldest cache = (.ok (), { cache with
      modules := cache.modules.erase oldest
      insertionOrder := rest
      evictions := cache.evictions + 1 }) := by
  have hcontains : cache.modules.contains oldest = true := Std.TreeMap.mem_iff_contains.mp hmem
  rw [evictOldest, FailState.bind_ok (FailState.read_run cache)]
  simp only [hfront, hcontains, if_true, FailState.modify_run]

theorem expectModule_insert (modules : Std.TreeMap String PreparedModule) (source : String)
    (module : PreparedModule) (h : cache.modules = modules.insert source module) :
    expectModule source cache = (.ok module, cache) := by
  rw [expectModule, FailState.bind_ok (FailState.read_run cache)]
  simp only [h, Std.TreeMap.getElem?_insert_self, FailState.pure_run]

theorem outcome (h : cache.Consistent) (lookup : Lookup) :
    Outcome lookup cache (getOrPrepare lookup cache) := by
  by_cases hmem : lookup.source ∈ cache.modules
  · have hfound := Std.TreeMap.getElem?_eq_some_getElem hmem
    have hcontains : cache.modules.contains lookup.source = true :=
      Std.TreeMap.mem_iff_contains.mp hmem
    have hrun : getOrPrepare lookup cache =
        (.ok ⟨.hit, cache.modules[lookup.source]⟩, { cache with hits := cache.hits + 1 }) := by
      rw [getOrPrepare, FailState.bind_ok (FailState.read_run cache), if_pos hcontains,
        FailState.bind_ok (FailState.modify_run _ cache)]
      refine FailState.bind_ok ?_
      rw [expectModule, FailState.bind_ok (FailState.read_run _)]
      simp only [hfound, FailState.pure_run]
    rw [hrun]
    exact .hit hfound
  · have hcontains : ¬ cache.modules.contains lookup.source = true := fun hcontains =>
      hmem (Std.TreeMap.mem_iff_contains.mpr hcontains)
    cases hprepared : PreparedModule.fromSource lookup.order lookup.source with
    | error stop =>
      have hrun : getOrPrepare lookup cache =
          (.error stop, { cache with misses := cache.misses + 1 }) := by
        rw [getOrPrepare, FailState.bind_ok (FailState.read_run cache), if_neg hcontains,
          FailState.bind_ok (FailState.modify_run _ cache), hprepared]
        exact FailState.bind_error (FailState.lift_run _ _)
      rw [hrun]
      exact .failed hmem hprepared
    | ok module =>
      have hstart (t : PreparedModuleCache)
          (hroom : makeRoom { cache with misses := cache.misses + 1 } = (.ok (), t)) :
          getOrPrepare lookup cache = (.ok ⟨.miss, module⟩, { t with
            insertionOrder := t.insertionOrder ++ [lookup.source]
            modules := t.modules.insert lookup.source module }) := by
        rw [getOrPrepare, FailState.bind_ok (FailState.read_run cache), if_neg hcontains,
          FailState.bind_ok (FailState.modify_run _ cache), hprepared,
          FailState.bind_ok (FailState.lift_run _ _), FailState.bind_ok hroom,
          FailState.bind_ok (FailState.modify_run _ t)]
        exact FailState.bind_ok (expectModule_insert t.modules lookup.source module rfl)
      by_cases hfull : cache.modules.size = cache.capacity
      · obtain ⟨oldest, rest, hfront, holdest⟩ := h.front_of_full hfull
        rw [hstart _ (by
          rw [makeRoom, FailState.bind_ok (FailState.read_run _), if_pos hfull]
          exact evictOldest_eq hfront holdest)]
        exact .evicted hmem hprepared hfull hfront
      · have hroom : cache.modules.size < cache.capacity := by
          have := h.size_le
          omega
        rw [hstart _ (by
          rw [makeRoom, FailState.bind_ok (FailState.read_run _), if_neg hfull]
          exact FailState.pure_run () _)]
        exact .inserted hmem hprepared hroom

end Consistent

/-- The books of a cache after some lookups, given the insertions they made. -/
structure Accounts (capacity : ℕ) (inserted : List String) (lookups : ℕ)
    (cache : PreparedModuleCache) : Prop extends Consistent cache where
  capacity_eq : cache.capacity = capacity
  order_eq : cache.insertionOrder = recent capacity inserted
  evictions_add : cache.evictions + cache.modules.size = inserted.length
  hits_add : cache.hits + cache.misses = lookups

variable {capacity : ℕ}

theorem new_accounts {cache : PreparedModuleCache} (h : new capacity = .ok cache) :
    Accounts capacity [] 0 cache := by
  rw [new] at h
  split at h
  · exact absurd h nofun
  · rename_i hpos
    have hcache := Except.ok.inj h
    subst hcache
    exact ⟨⟨.refl _, Nat.zero_le _, Nat.pos_of_ne_zero hpos⟩, rfl, List.drop_nil.symm, rfl, rfl⟩

theorem size_insert {modules : Std.TreeMap String PreparedModule} {source : String}
    (module : PreparedModule) (habsent : source ∉ modules) :
    (modules.insert source module).size = modules.size + 1 := by
  rw [Std.TreeMap.size_insert,
    if_neg fun hmem => habsent (Std.TreeMap.mem_iff_contains.mpr hmem)]

theorem Consistent.erase_front {cache : PreparedModuleCache} (h : cache.Consistent)
    {oldest : String} {rest : List String} (hfront : cache.insertionOrder = oldest :: rest) :
    (cache.modules.erase oldest).keys.Perm rest ∧
      (cache.modules.erase oldest).size + 1 = cache.modules.size := by
  have hperm : (cache.modules.erase oldest).keys.Perm rest :=
    keys_erase_perm (hfront ▸ h.keys_perm)
  refine ⟨hperm, ?_⟩
  rw [← h.length_eq, hfront, List.length_cons, ← hperm.length_eq, Std.TreeMap.length_keys]

theorem Consistent.step {lookup : Lookup} {cache : PreparedModuleCache} (h : cache.Consistent)
    {after : Except Stop CacheLookup × PreparedModuleCache} (hstep : Outcome lookup cache after) :
    after.2.Consistent := by
  cases hstep with
  | hit found => exact ⟨h.keys_perm, h.size_le, h.capacity_pos⟩
  | failed absent failure => exact ⟨h.keys_perm, h.size_le, h.capacity_pos⟩
  | @inserted module absent prepared room =>
    refine ⟨keys_insert_perm module h.keys_perm absent, ?_, h.capacity_pos⟩
    change (cache.modules.insert lookup.source module).size ≤ cache.capacity
    rw [size_insert module absent]
    exact room
  | @evicted module oldest rest absent prepared full front =>
    obtain ⟨hperm, hsize⟩ := h.erase_front front
    have habsent : lookup.source ∉ cache.modules.erase oldest := fun hmem =>
      absent (Std.TreeMap.mem_erase.mp hmem).2
    refine ⟨keys_insert_perm module hperm habsent, ?_, h.capacity_pos⟩
    change ((cache.modules.erase oldest).insert lookup.source module).size ≤ cache.capacity
    rw [size_insert module habsent, hsize]
    exact h.size_le

theorem Accounts.step {inserted : List String} {lookups : ℕ} {cache : PreparedModuleCache}
    (h : Accounts capacity inserted lookups cache) {lookup : Lookup}
    {after : Except Stop CacheLookup × PreparedModuleCache} (hstep : Outcome lookup cache after) :
    Accounts capacity (inserted ++ insertions [lookup] [after.1]) (lookups + 1) after.2 := by
  have hconsistent := h.toConsistent.step hstep
  have hhits := h.hits_add
  have hevictions := h.evictions_add
  have hlength := h.length_eq
  cases hstep with
  | hit found =>
    refine ⟨hconsistent, h.capacity_eq, ?_, ?_, ?_⟩
    · exact h.order_eq.trans (congrArg _ (List.append_nil _).symm)
    · exact hevictions.trans (congrArg _ (List.append_nil _).symm)
    · change cache.hits + 1 + cache.misses = lookups + 1
      omega
  | failed absent failure =>
    refine ⟨hconsistent, h.capacity_eq, ?_, ?_, ?_⟩
    · exact h.order_eq.trans (congrArg _ (List.append_nil _).symm)
    · exact hevictions.trans (congrArg _ (List.append_nil _).symm)
    · change cache.hits + (cache.misses + 1) = lookups + 1
      omega
  | @inserted module absent prepared room =>
    refine ⟨hconsistent, h.capacity_eq, ?_, ?_, ?_⟩
    · rw [h.order_eq] at hlength
      change cache.insertionOrder ++ [lookup.source] = recent capacity (inserted ++ [lookup.source])
      rw [recent_append_of_lt _ (by rw [hlength, ← h.capacity_eq]; exact room), h.order_eq]
    · change cache.evictions + (cache.modules.insert lookup.source module).size =
        (inserted ++ [lookup.source]).length
      rw [size_insert module absent, List.length_append, List.length_singleton]
      omega
    · change cache.hits + (cache.misses + 1) = lookups + 1
      omega
  | @evicted module oldest rest absent prepared full front =>
    obtain ⟨_, hsize⟩ := h.erase_front front
    have habsent : lookup.source ∉ cache.modules.erase oldest := fun hmem =>
      absent (Std.TreeMap.mem_erase.mp hmem).2
    refine ⟨hconsistent, h.capacity_eq, ?_, ?_, ?_⟩
    · change rest ++ [lookup.source] = recent capacity (inserted ++ [lookup.source])
      refine (recent_append_of_full _ (h.order_eq.symm.trans front) ?_).symm
      rw [← front, hlength, full, h.capacity_eq]
    · change cache.evictions + 1 + ((cache.modules.erase oldest).insert lookup.source module).size =
        (inserted ++ [lookup.source]).length
      rw [size_insert module habsent, List.length_append, List.length_singleton]
      omega
    · change cache.hits + (cache.misses + 1) = lookups + 1
      omega

theorem fromSource_error {order : IterationOrder} {source : String} {stop : Stop}
    (h : PreparedModule.fromSource order source = .error stop) : ∃ error, stop = .error error := by
  unfold PreparedModule.fromSource at h
  cases hmodule : (compileSource order source).module with
  | none =>
    simp only [hmodule, Except.error.injEq] at h
    exact ⟨_, h.symm⟩
  | some m =>
    simp only [hmodule, PreparedModule.ofModule] at h
    split at h
    · exact absurd h nofun
    · exact ⟨_, (Except.error.inj h).symm⟩

theorem Outcome.ne_panic {lookup : Lookup} {cache : PreparedModuleCache}
    {after : Except Stop CacheLookup × PreparedModuleCache} (h : Outcome lookup cache after) :
    after.1 ≠ .error .panic := by
  cases h with
  | hit found => nofun
  | inserted absent prepared room => nofun
  | evicted absent prepared full front => nofun
  | failed absent failure =>
    obtain ⟨error, rfl⟩ := fromSource_error failure
    nofun

theorem Outcome.of_hit {lookup : Lookup} {cache : PreparedModuleCache} {module : PreparedModule}
    {after : Except Stop CacheLookup × PreparedModuleCache} (h : Outcome lookup cache after)
    (hresult : after.1 = .ok ⟨.hit, module⟩) : after.2 = { cache with hits := cache.hits + 1 } := by
  cases h with
  | hit found => rfl
  | failed absent failure => exact absurd hresult nofun
  | inserted absent prepared room => exact absurd hresult nofun
  | evicted absent prepared full front => exact absurd hresult nofun

theorem Outcome.of_error {lookup : Lookup} {cache : PreparedModuleCache} {stop : Stop}
    {after : Except Stop CacheLookup × PreparedModuleCache} (h : Outcome lookup cache after)
    (hresult : after.1 = .error stop) : after.2 = { cache with misses := cache.misses + 1 } := by
  cases h with
  | hit found => exact absurd hresult nofun
  | failed absent failure => rfl
  | inserted absent prepared room => exact absurd hresult nofun
  | evicted absent prepared full front => exact absurd hresult nofun

theorem run_length (lookups : List Lookup) (cache : PreparedModuleCache) :
    (run lookups cache).1.length = lookups.length := by
  induction lookups generalizing cache with
  | nil => rfl
  | cons lookup lookups ih => exact congrArg (· + 1) (ih _)

theorem insertions_cons (lookup : Lookup) (lookups : List Lookup)
    (result : Except Stop CacheLookup) (results : List (Except Stop CacheLookup)) :
    insertions (lookup :: lookups) (result :: results) =
      insertions [lookup] [result] ++ insertions lookups results := by
  unfold insertions
  rw [← List.map_append, ← List.filter_append]
  rfl

theorem Accounts.run {inserted : List String} {count : ℕ} {cache : PreparedModuleCache}
    (h : Accounts capacity inserted count cache) (lookups : List Lookup) :
    Accounts capacity (inserted ++ insertions lookups (run lookups cache).1)
        (count + lookups.length) (PreparedModuleCache.run lookups cache).2 ∧
      ∀ result ∈ (PreparedModuleCache.run lookups cache).1, result ≠ .error .panic := by
  induction lookups generalizing inserted count cache with
  | nil =>
    refine ⟨?_, nofun⟩
    rw [show insertions [] (PreparedModuleCache.run [] cache).1 = [] from rfl, List.append_nil]
    exact h
  | cons lookup lookups ih =>
    have houtcome := h.toConsistent.outcome lookup
    obtain ⟨hrest, hresults⟩ := ih (h.step houtcome)
    refine ⟨?_, fun result hmem => ?_⟩
    · have hinserted : insertions (lookup :: lookups)
            (PreparedModuleCache.run (lookup :: lookups) cache).1 =
          insertions [lookup] [(getOrPrepare lookup cache).1] ++
            insertions lookups (PreparedModuleCache.run lookups (getOrPrepare lookup cache).2).1 :=
        insertions_cons lookup lookups _ _
      rw [hinserted, ← List.append_assoc, List.length_cons, Nat.add_comm lookups.length,
        ← Nat.add_assoc]
      exact hrest
    · rcases List.mem_cons.mp hmem with rfl | hmem
      · exact houtcome.ne_panic
      · exact hresults result hmem

/-- A cache and the results of the lookups that led to it. -/
structure Accounting (capacity : ℕ) (lookups : List Lookup)
    (results : List (Except Stop CacheLookup)) (cache : PreparedModuleCache) : Prop where
  results_length : results.length = lookups.length
  same_sources : cache.modules.keys.Perm cache.insertionOrder
  distinct : cache.insertionOrder.Nodup
  entries_le : cache.stats.entries ≤ capacity
  /-- The most recent insertions, in their order. -/
  most_recent : cache.insertionOrder =
    let inserted := insertions lookups results
    inserted.drop (inserted.length - min capacity inserted.length)
  evictions_add : cache.stats.evictions + cache.stats.entries = (insertions lookups results).length
  hits_add : cache.stats.hits + cache.stats.misses = lookups.length
  no_panic : ∀ result ∈ results, result ≠ .error .panic
  hit_keeps : ∀ lookup module, (getOrPrepare lookup cache).1 = .ok ⟨.hit, module⟩ →
    (getOrPrepare lookup cache).2 = { cache with hits := cache.hits + 1 }
  failure_keeps : ∀ lookup stop, (getOrPrepare lookup cache).1 = .error stop →
    (getOrPrepare lookup cache).2 = { cache with misses := cache.misses + 1 }

theorem run_accounting (capacity : ℕ) (hcapacity : capacity ≠ 0) (lookups : List Lookup) :
    ∃ cache, new capacity = .ok cache ∧
      Accounting capacity lookups (run lookups cache).1 (run lookups cache).2 := by
  have hnew : new capacity = .ok ⟨capacity, ∅, [], 0, 0, 0⟩ := if_neg hcapacity
  refine ⟨_, hnew, ?_⟩
  obtain ⟨haccounts, hpanic⟩ := (new_accounts hnew).run lookups
  rw [List.nil_append, Nat.zero_add] at haccounts
  have houtcome := haccounts.toConsistent.outcome
  refine
    { results_length := run_length lookups _
      same_sources := haccounts.keys_perm
      distinct := haccounts.nodup
      entries_le := haccounts.size_le.trans_eq haccounts.capacity_eq
      evictions_add := haccounts.evictions_add
      hits_add := haccounts.hits_add
      no_panic := hpanic
      hit_keeps := fun lookup module hresult => (houtcome lookup).of_hit hresult
      failure_keeps := fun lookup stop hresult => (houtcome lookup).of_error hresult
      most_recent := ?_ }
  have horder := haccounts.order_eq
  rw [recent] at horder
  rw [horder]
  congr 1
  omega

/-- Two slots, and a source that comes back after two others. -/
theorem run_accounting_returning :
    let lookups : List Lookup := ["1;", "2;", "3;", "1;"].map fun source => ⟨.listed, source⟩
    ∃ cache, new 2 = .ok cache ∧
      Accounting 2 lookups (run lookups cache).1 (run lookups cache).2 :=
  run_accounting 2 (by decide) _

end PreparedModuleCache

end Tsvm.PreparationCache
