import Tsvm.HeapCollection
import Tsvm.RunInvariants
import Tsvm.VerifiedReferences

set_option autoImplicit false

/-!
# Handles of a running module

During a run nothing is reclaimed, so a handle keeps the kind of object it was
made for while the heap has a `u32` index for each of its slots. The collection
at the end keeps what can be reached from its roots.
-/
namespace Tsvm.HandleIntegrity
open Bytecode Heap Interop RuntimeValues Interpreter InterpreterSteps Pipeline RunInvariants
open RuntimeFailures

variable {ν : Type}

/-- The handle in a value finds a heap value of its kind. -/
def Resolves (heap : Store ν) : RuntimeValue ν → Prop
  | .object handle => ∃ fields, heap.get handle = some (.object fields)
  | .array handle => ∃ values, heap.get handle = some (.array values)
  | _ => True

/-- The handles in the console and inside heap values resolve. -/
structure Intact (s : Machine ν) : Prop where
  console : ∀ value ∈ s.console, Resolves s.heap value
  heap : ∀ index found, s.heap.valueAt index = some found →
    ∀ value ∈ contents found, Resolves s.heap value

def Addressable (heap : Store ν) : Prop := heap.capacity ≤ 2 ^ 32

inductive StaleHandle : Stop → Prop where
  | object : StaleHandle (.runtime .staleObjectHandle)
  | array : StaleHandle (.runtime .staleArrayHandle)

theorem resolves_plain (heap : Store ν) {value : RuntimeValue ν} (h : value.handles = []) :
    Resolves heap value := by
  cases value with
  | object handle => cases h
  | array handle => cases h
  | _ => trivial

/-- An operation that keeps what handles find, up to the fields of objects. -/
def KeepsKinds (heap heap' : Store ν) : Prop := ∀ value, Resolves heap value → Resolves heap' value

theorem keepsKinds_of_get {heap heap' : Store ν}
    (h : ∀ handle found, heap.get handle = some found → heap'.get handle = some found) :
    KeepsKinds heap heap' := by
  intro value hvalue
  cases value with
  | object handle =>
    obtain ⟨fields, hget⟩ := hvalue
    exact ⟨fields, h handle _ hget⟩
  | array handle =>
    obtain ⟨values, hget⟩ := hvalue
    exact ⟨values, h handle _ hget⟩
  | _ => trivial

theorem nextIndex_of_freeList {heap : Store ν} (h : heap.freeList = []) :
    heap.nextIndex = heap.slots.length := by
  rw [GcHeap.nextIndex, h]
  rfl

theorem allocate_capacity {heap : Store ν} (h : heap.freeList = []) (stored : HeapValue ν) :
    (heap.allocate stored).2.capacity = heap.capacity + 1 := by
  simp [GcHeap.allocate, GcHeap.capacity, h]

theorem allocate_get_of_lt {heap : Store ν} (h : heap.freeList = []) (stored : HeapValue ν)
    {handle : HeapHandle} (hlt : handle.index.toNat < heap.slots.length) :
    (heap.allocate stored).2.get handle = heap.get handle := by
  have hnext := nextIndex_of_freeList h
  have hvalue : (heap.allocate stored).2.valueAt handle.index.toNat =
      heap.valueAt handle.index.toNat := by
    rw [GcHeap.allocate_valueAt _ _ _ (Nat.le_of_eq hnext), if_neg (by omega)]
  rw [GcHeap.get_eq, GcHeap.allocate_generationAt, hvalue, ← GcHeap.get_eq]

theorem allocate_get {heap : Store ν} (h : heap.freeList = []) (stored : HeapValue ν)
    {handle : HeapHandle} {found : HeapValue ν} (hget : heap.get handle = some found) :
    (heap.allocate stored).2.get handle = some found := by
  rw [allocate_get_of_lt h stored (GcHeap.valueAt_lt (GcHeap.get_valueAt hget))]
  exact hget

theorem allocate_get_new {heap : Store ν} (h : heap.freeList = []) (stored : HeapValue ν)
    (haddressable : Addressable (heap.allocate stored).2) :
    (heap.allocate stored).2.get (heap.allocate stored).1 = some stored := by
  have hnext := nextIndex_of_freeList h
  have hlt : heap.slots.length < 2 ^ 32 := by
    rw [Addressable, allocate_capacity h] at haddressable
    exact haddressable
  have hindex : (heap.allocate stored).1.index.toNat = heap.nextIndex := by
    rw [hnext, GcHeap.allocate_handle, hnext]
    exact UInt32.toNat_ofNat_of_lt' hlt
  have hgeneration : (heap.allocate stored).2.generationAt heap.nextIndex =
      (heap.allocate stored).1.generation := rfl
  rw [GcHeap.get_eq, hindex, if_pos hgeneration,
    GcHeap.allocate_valueAt _ _ _ (Nat.le_of_eq hnext), if_pos rfl]

theorem set_get {heap : Store ν} {handle other : HeapHandle} {found : HeapValue ν}
    (stored : HeapValue ν) (hget : heap.get other = some found) :
    (heap.set handle stored).get other =
      if handle.index.toNat = other.index.toNat then some stored else some found := by
  have hvalue := GcHeap.get_valueAt hget
  have hgeneration : heap.generationAt other.index.toNat = other.generation := by
    rw [GcHeap.get_eq] at hget
    split at hget
    · assumption
    · cases hget
  rw [GcHeap.get_eq, GcHeap.set_generationAt, if_pos hgeneration, GcHeap.set_valueAt, hvalue]
  simp only [GcHeap.valueAt_lt hvalue, and_true]

theorem set_keepsKinds {heap : Store ν} {handle : HeapHandle}
    {fields : Std.TreeMap String (RuntimeValue ν)} (hget : heap.get handle = some (.object fields))
    (fields' : Std.TreeMap String (RuntimeValue ν)) :
    KeepsKinds heap (heap.set handle (.object fields')) := by
  have hvalue := GcHeap.get_valueAt hget
  intro value hresolves
  cases value with
  | object other =>
    obtain ⟨found, hother⟩ := hresolves
    rw [Resolves, set_get (.object fields') hother]
    split
    · exact ⟨fields', rfl⟩
    · exact ⟨found, rfl⟩
  | array other =>
    obtain ⟨values, hother⟩ := hresolves
    rw [Resolves, set_get (.object fields') hother]
    split
    · rename_i hsame
      rw [hsame, GcHeap.get_valueAt hother] at hvalue
      cases hvalue
    · exact ⟨values, rfl⟩
  | _ => trivial

/-- Values from which every step through the heap stays inside `P` and resolves. -/
structure Closed (heap : Store ν) (P : RuntimeValue ν → Prop) : Prop where
  resolves : ∀ value, P value → Resolves heap value
  inside : ∀ value handle found, P value → handle ∈ value.handles →
    heap.get handle = some found → ∀ inner ∈ contents found, P inner

theorem Closed.materializeWithin {heap : Store ν} {P : RuntimeValue ν → Prop}
    (hclosed : Closed heap P) {depth : ℕ} {value : RuntimeValue ν} (hvalue : P value) :
    Yields StaleHandle (RuntimeValues.materializeWithin heap depth value) fun _ => True := by
  induction depth generalizing value with
  | zero => cases value <;> first | exact .ok trivial | exact .error nofun
  | succ depth ih =>
    cases value with
    | object handle =>
      obtain ⟨fields, hget⟩ := hclosed.resolves _ hvalue
      have hinner := hclosed.inside _ handle _ hvalue (List.mem_singleton_self handle) hget
      rw [RuntimeValues.materializeWithin, hget]
      have hfields : Yields StaleHandle (fields.toList.mapM fun field => do
          let value ← RuntimeValues.materializeWithin heap depth field.2
          pure (field.1, value)) fun values => ∀ value ∈ values, True :=
        .mapM fun field hfield =>
          (ih (hinner _ (List.mem_map_of_mem hfield))).bind fun _ _ => .ok trivial
      exact hfields.bind fun _ _ => .ok trivial
    | array handle =>
      obtain ⟨values, hget⟩ := hclosed.resolves _ hvalue
      have hinner := hclosed.inside _ handle _ hvalue (List.mem_singleton_self handle) hget
      rw [RuntimeValues.materializeWithin, hget]
      have hvalues : Yields StaleHandle (values.mapM (RuntimeValues.materializeWithin heap depth))
          fun values => ∀ value ∈ values, True :=
        .mapM fun value hmem => ih (hinner value hmem)
      exact hvalues.bind fun _ _ => .ok trivial
    | _ => exact .ok trivial

theorem Closed.materialize {heap : Store ν} {P : RuntimeValue ν → Prop} (hclosed : Closed heap P)
    {value : RuntimeValue ν} (hvalue : P value) :
    Yields StaleHandle (RuntimeValues.materialize heap value) fun _ => True :=
  hclosed.materializeWithin hvalue

theorem Closed.displayWithin [F64 ν] {heap : Store ν} {P : RuntimeValue ν → Prop}
    (hclosed : Closed heap P) {depth : ℕ} {value : RuntimeValue ν} (hvalue : P value) :
    Yields StaleHandle (RuntimeValues.displayWithin heap depth value) fun _ => True := by
  induction depth generalizing value with
  | zero => cases value <;> first | exact .ok trivial | exact .error nofun
  | succ depth ih =>
    cases value with
    | array handle =>
      obtain ⟨values, hget⟩ := hclosed.resolves _ hvalue
      have hinner := hclosed.inside _ handle _ hvalue (List.mem_singleton_self handle) hget
      rw [RuntimeValues.displayWithin, hget]
      have hparts : Yields StaleHandle (values.mapM (RuntimeValues.displayWithin heap depth))
          fun parts => ∀ part ∈ parts, True :=
        .mapM fun value hmem => ih (hinner value hmem)
      exact hparts.bind fun _ _ => .ok trivial
    | _ => exact .ok trivial

/-- While every slot has an index, all handles inside heap values resolve. -/
structure Sound (heap : Store ν) : Prop where
  freeList : heap.freeList = []
  inside : Addressable heap → ∀ index found, heap.valueAt index = some found →
    ∀ value ∈ contents found, Resolves heap value

theorem Sound.closed {heap : Store ν} (h : Sound heap) (haddressable : Addressable heap) :
    Closed heap (Resolves heap) := by
  refine ⟨fun value hvalue => hvalue, fun value handle found _ _ hget => ?_⟩
  exact h.inside haddressable _ found (GcHeap.get_valueAt hget)

theorem Sound.allocate {heap : Store ν} {stored : HeapValue ν} (h : Sound heap)
    (hstored : ∀ value ∈ contents stored, Addressable heap → Resolves heap value) :
    Sound (heap.allocate stored).2 := by
  have hkeeps : KeepsKinds heap (heap.allocate stored).2 :=
    keepsKinds_of_get fun _ _ => allocate_get h.freeList stored
  refine ⟨?_, fun haddressable index found hfound value hvalue => ?_⟩
  · rw [GcHeap.allocate, h.freeList]
    rfl
  · have hbefore : Addressable heap := by
      rw [Addressable, allocate_capacity h.freeList] at haddressable
      exact Nat.le_of_succ_le haddressable
    rw [GcHeap.allocate_valueAt _ _ _ (Nat.le_of_eq (nextIndex_of_freeList h.freeList))] at hfound
    split at hfound
    · cases hfound
      exact hkeeps value (hstored value hvalue hbefore)
    · exact hkeeps value (h.inside hbefore index found hfound value hvalue)

theorem Sound.reference {heap : Store ν} (h : Sound heap) (stored : HeapValue ν)
    (haddressable : Addressable (heap.allocate stored).2) :
    Resolves (heap.allocate stored).2 (reference (heap.allocate stored).1 stored) := by
  have hget := allocate_get_new h.freeList stored haddressable
  cases stored with
  | object fields => exact ⟨fields, hget⟩
  | array values => exact ⟨values, hget⟩

theorem Sound.store {heap : Store ν} {handle : HeapHandle}
    {fields : Std.TreeMap String (RuntimeValue ν)} {value : RuntimeValue ν} (property : String)
    (h : Sound heap) (hget : heap.get handle = some (.object fields))
    (hvalue : Addressable heap → Resolves heap value) :
    Sound (heap.set handle (.object (fields.insert property value))) := by
  have hkeeps := set_keepsKinds hget (fields.insert property value)
  refine ⟨h.freeList, fun haddressable index found hfound inner hinner => hkeeps inner ?_⟩
  have hbefore : Addressable heap := by
    rw [Addressable, GcHeap.capacity, GcHeap.set, List.length_modify] at haddressable
    exact haddressable
  rw [GcHeap.set_valueAt] at hfound
  split at hfound
  · cases hfound
    rcases mem_contents_insert hinner with rfl | hinner
    · exact hvalue hbefore
    · exact h.inside hbefore _ _ (GcHeap.get_valueAt hget) inner hinner
  · exact h.inside hbefore index found hfound inner hinner

def resolving (ν : Type) [F64 ν] : HeapInvariant ν where
  Holds := Sound
  Valid heap value := Addressable heap → Resolves heap value
  Grows heap heap' := heap.capacity ≤ heap'.capacity ∧ KeepsKinds heap heap'
  Allowed _ _ _ := True
  Excluded heap e := Addressable heap ∧ StaleHandle e
  new := ⟨rfl, nofun⟩
  grows_refl _ := ⟨Nat.le_refl _, fun _ h => h⟩
  grows_trans h h' := ⟨Nat.le_trans h.1 h'.1, fun value hvalue => h'.2 value (h.2 value hvalue)⟩
  valid_mono h hvalue haddressable := h.2 _ (hvalue (Nat.le_trans h.1 haddressable))
  valid_plain heap _ h _ := resolves_plain heap h
  valid_contents h hget hvalue haddressable :=
    h.inside haddressable _ _ (GcHeap.get_valueAt hget) _ hvalue
  allocate := by
    intro heap stored h hstored
    refine ⟨h.allocate hstored, ⟨?_, ?_⟩, h.reference stored⟩
    · rw [allocate_capacity h.freeList]
      exact Nat.le_succ _
    · exact keepsKinds_of_get fun _ _ => allocate_get h.freeList stored
  store := by
    intro heap handle fields value property h hget hvalue _
    refine ⟨h.store property hget hvalue, ?_, set_keepsKinds hget _⟩
    rw [GcHeap.capacity, GcHeap.capacity, GcHeap.set, List.length_modify]
  excluded_mono h hexcluded := ⟨Nat.le_trans h.1 hexcluded.1, hexcluded.2⟩
  excluded_failure h := by
    cases h.2 with
    | object => exact .staleObject
    | array => exact .staleArray
  materialize h hvalue herror hexcluded :=
    ((h.closed hexcluded.1).materialize (hvalue hexcluded.1)).2 _ herror hexcluded.2
  display h hvalue herror hexcluded :=
    ((h.closed hexcluded.1).displayWithin (hvalue hexcluded.1)).2 _ herror hexcluded.2
  object h hvalue hget hexcluded := by
    obtain ⟨fields, hfields⟩ := hvalue hexcluded.1
    exact hget fields hfields

/-- The values found on the way from the `kept` ones through the heap. -/
inductive ReachableFrom (heap : Store ν) (kept : List (RuntimeValue ν)) : RuntimeValue ν → Prop
  | kept {value : RuntimeValue ν} (h : value ∈ kept) : ReachableFrom heap kept value
  | inside {value inner : RuntimeValue ν} {handle : HeapHandle} {found : HeapValue ν}
      (h : ReachableFrom heap kept value) (hhandle : handle ∈ value.handles)
      (hget : heap.get handle = some found) (hinner : inner ∈ contents found) :
      ReachableFrom heap kept inner

theorem Resolves.get {heap : Store ν} {value : RuntimeValue ν} (h : Resolves heap value)
    {handle : HeapHandle} (hhandle : handle ∈ value.handles) :
    (heap.get handle).isSome = true := by
  cases value with
  | object other =>
    obtain ⟨fields, hget⟩ := h
    rw [List.mem_singleton.mp hhandle, hget]
    rfl
  | array other =>
    obtain ⟨values, hget⟩ := h
    rw [List.mem_singleton.mp hhandle, hget]
    rfl
  | _ => cases hhandle

theorem Resolves.collect {heap : Store ν} {roots : List HeapHandle} {value : RuntimeValue ν}
    (h : Resolves heap value)
    (hlive : ∀ handle ∈ value.handles, heap.Live roots handle.index.toNat) :
    Resolves (heap.collect roots).2 value := by
  cases value with
  | object handle =>
    obtain ⟨fields, hget⟩ := h
    refine ⟨fields, ?_⟩
    rw [GcHeap.collect_get_of_live (hlive handle (List.mem_singleton_self handle)), hget]
  | array handle =>
    obtain ⟨values, hget⟩ := h
    refine ⟨values, ?_⟩
    rw [GcHeap.collect_get_of_live (hlive handle (List.mem_singleton_self handle)), hget]
  | _ => trivial

theorem Sound.reachableFrom {heap : Store ν} (h : Sound heap) (haddressable : Addressable heap)
    {kept : List (RuntimeValue ν)} (hkept : ∀ value ∈ kept, Resolves heap value)
    {value : RuntimeValue ν}
    (hvalue : ReachableFrom (heap.collect (roots kept)).2 kept value) :
    Resolves heap value ∧
      ∀ handle ∈ value.handles, heap.Live (roots kept) handle.index.toNat := by
  induction hvalue with
  | @kept value hmem =>
    have hresolves := hkept value hmem
    refine ⟨hresolves, fun handle hhandle => ?_⟩
    exact .root (List.mem_flatMap.mpr ⟨value, hmem, hhandle⟩) (hresolves.get hhandle)
  | @inside value inner handle found _ hhandle hget hinner ih =>
    have hbefore := GcHeap.get_valueAt (GcHeap.collect_get_some hget)
    have hresolves := h.inside haddressable _ found hbefore inner hinner
    refine ⟨hresolves, fun other hother => (ih.2 handle hhandle).tail ?_⟩
    have htrace : other ∈ Trace.trace found := by
      rw [trace_eq]
      exact List.mem_flatMap.mpr ⟨inner, hinner, hother⟩
    exact ⟨found, other, hbefore, htrace, hresolves.get hother, rfl⟩

theorem Sound.collected {heap : Store ν} (h : Sound heap) (haddressable : Addressable heap)
    {kept : List (RuntimeValue ν)} (hkept : ∀ value ∈ kept, Resolves heap value) :
    Closed (heap.collect (roots kept)).2 (ReachableFrom (heap.collect (roots kept)).2 kept) := by
  refine ⟨fun value hvalue => ?_, fun value handle found hvalue hhandle hget inner hinner =>
    .inside hvalue hhandle hget hinner⟩
  obtain ⟨hresolves, hlive⟩ := h.reachableFrom haddressable hkept hvalue
  exact hresolves.collect hlive

section Runs

variable [F64 ν]

theorem callStoresAllowed (m : BytecodeModule) (host : HostEnvironment ν) (name : String)
    (args : List (RuntimeValue ν)) (s : Machine ν) :
    CallStoresAllowed (resolving ν) m host name args s :=
  fun _ _ _ _ _ _ _ _ => trivial

/-- The handles of a run: those in the frames, in the console and inside heap values
    at every point, and all that can be reached when the final collection is done. -/
structure KeepsHandles (m : BytecodeModule) (host : HostEnvironment ν) (name : String)
    (args : List (RuntimeValue ν)) (s : Machine ν)
    (kept : Machine ν → RuntimeValue ν → List (RuntimeValue ν)) : Prop where
  /-- `p` stands for any activation on the call stack of `q`. -/
  points : ∀ p q, Passes m host name args s p → Reaches m host p q → Addressable q.machine.heap →
    Intact q.machine ∧ ∀ value ∈ p.frame.locals ++ p.frame.values, Resolves q.machine.heap value
  collected : ∀ fuel result t, callFunction m host fuel name args s = (.ok result, t) →
    Addressable t.heap →
    ∀ value, ReachableFrom (t.heap.collect (roots (kept t result))).2 (kept t result) value →
      Resolves (t.heap.collect (roots (kept t result))).2 value

theorem begins_keepsHandles {name : String} {args : List (RuntimeValue ν)} {s : Machine ν}
    {kept : Machine ν → RuntimeValue ν → List (RuntimeValue ν)} (h : Begins name args s kept)
    (m : BytecodeModule) (host : HostEnvironment ν) : KeepsHandles m host name args s kept := by
  obtain ⟨hs, hargs⟩ := h.good (resolving ν)
  have hstores := callStoresAllowed m host name args s
  constructor
  · intro p q hp hreach haddressable
    have hvalid := PointValid.passes hp hs hargs hstores
    obtain ⟨hq, hgrows⟩ := hvalid.reaches (fun _ _ _ _ _ _ _ _ => trivial) hreach
    refine ⟨⟨fun value hvalue => hq.machine.console value hvalue haddressable,
      hq.machine.heap.inside haddressable⟩, fun value hvalue => ?_⟩
    have hframe := hvalid.frame.mono hgrows
    rcases List.mem_append.mp hvalue with hvalue | hvalue
    · exact hframe.locals value hvalue haddressable
    · exact hframe.values value hvalue haddressable
  · intro fuel result t hcall haddressable
    obtain ⟨ht, _, hresult⟩ :=
      FailState.wp_ok (callFunction_keeps m host fuel name args s hs hargs hstores) hcall
    have hkept := h.kept_valid (resolving ν) ht hresult
    exact (ht.heap.collected haddressable fun value hvalue => hkept value hvalue haddressable).resolves

theorem materialize_kept {name : String} {args : List (RuntimeValue ν)} {s t : Machine ν}
    {kept : Machine ν → RuntimeValue ν → List (RuntimeValue ν)} (h : Begins name args s kept)
    {m : BytecodeModule} {host : HostEnvironment ν} {fuel : ℕ} {result value : RuntimeValue ν}
    (hcall : callFunction m host fuel name args s = (.ok result, t))
    (haddressable : Addressable t.heap) (hvalue : value ∈ kept t result) :
    Yields StaleHandle
      (materialize (t.heap.collect (roots (kept t result))).2 value) fun _ => True := by
  obtain ⟨hs, hargs⟩ := h.good (resolving ν)
  have hstores := callStoresAllowed m host name args s
  obtain ⟨ht, _, hresult⟩ :=
    FailState.wp_ok (callFunction_keeps m host fuel name args s hs hargs hstores) hcall
  have hkept := h.kept_valid (resolving ν) ht hresult
  exact (ht.heap.collected haddressable
    fun value hvalue => hkept value hvalue haddressable).materialize (.kept hvalue)

theorem callFunction_handles {name : String} {args : List (RuntimeValue ν)} {s : Machine ν}
    {kept : Machine ν → RuntimeValue ν → List (RuntimeValue ν)} (h : Begins name args s kept)
    (m : BytecodeModule) (host : HostEnvironment ν) (fuel : ℕ) :
    FailState.wp (callFunction m host fuel name args) s
      (fun result t => callFunction m host fuel name args s = (.ok result, t))
      fun e t => Addressable t.heap → ¬ StaleHandle e := by
  obtain ⟨hs, hargs⟩ := h.good (resolving ν)
  have hkeeps := callFunction_keeps m host fuel name args s hs hargs
    (callStoresAllowed m host name args s)
  unfold Keeps FailState.wp at hkeeps
  unfold FailState.wp
  cases hr : callFunction m host fuel name args s with
  | mk result t =>
    rw [hr] at hkeeps
    cases result with
    | ok result => rfl
    | error e => exact fun haddressable hstale => hkeeps.2.2 ⟨haddressable, hstale⟩

theorem execute_handles (m : BytecodeModule) (host : HostEnvironment ν) (fuel : ℕ) :
    FailState.wp (execute m host fuel) .new (fun _ _ => True)
      fun e t => Addressable t.heap → ¬ StaleHandle e := by
  rw [execute, FailState.wp_bind]
  refine FailState.wp_mono (callFunction_handles .execute m host fuel) ?_ fun e t h => h
  intro result s hcall
  have hroots : roots s.console ++ roots [result] = roots (s.console ++ [result]) :=
    List.flatMap_append.symm
  have hkept (haddressable : Addressable s.heap) {value : RuntimeValue ν}
      (hvalue : value ∈ s.console ++ [result]) :=
    materialize_kept .execute hcall haddressable hvalue
  simp only [FailState.wp_bind, FailState.wp_read, setHeap, FailState.wp_modify, hroots,
    FailState.wp_lift, FailState.wp_pure, Addressable, GcHeap.collect_capacity]
  refine ⟨fun console _ => ⟨fun _ _ => trivial, fun e he haddressable => ?_⟩,
    fun e he haddressable => ?_⟩
  · exact (hkept haddressable (List.mem_append_right _ (List.mem_singleton_self result))).2 e he
  · obtain ⟨value, hvalue, herror⟩ := Except.mapM_eq_error he
    exact (hkept haddressable (List.mem_append_left _ hvalue)).2 e herror

theorem call_handles (m : BytecodeModule) (host : HostEnvironment ν) (fuel : ℕ) (name : String)
    (args : List (InteropValue ν)) :
    FailState.wp (callFunction m host fuel name (runtimeArguments args).1 >>= returnToHost)
      (runtimeArguments args).2 (fun _ _ => True)
      fun e t => Addressable t.heap → ¬ StaleHandle e := by
  rw [FailState.wp_bind]
  refine FailState.wp_mono (callFunction_handles (.call name args) m host fuel) ?_ fun e t h => h
  intro result s hcall
  have hkept (haddressable : Addressable s.heap) :=
    materialize_kept (.call name args) hcall haddressable (List.mem_singleton_self result)
  simp only [returnToHost, FailState.wp_bind, FailState.wp_read, setHeap, FailState.wp_modify,
    FailState.wp_lift, FailState.wp_pure, Addressable, GcHeap.collect_capacity]
  exact ⟨fun _ _ => trivial, fun e he haddressable => (hkept haddressable).2 e he⟩

/-- In every run of a prepared module, with any host, the handles resolve as long as
    every slot has a `u32` index, and the run does not fail on a stale handle. -/
theorem prepared_keepsHandles (prepared : PreparedModule) (host : HostEnvironment ν) :
    (∀ name args s kept, Begins name args s kept →
      KeepsHandles prepared.module host name args s kept) ∧
    (∀ fuel e t, execute prepared.module host fuel .new = (.error e, t) →
      Addressable t.heap → ¬ StaleHandle e) ∧
    ∀ fuel name args e t,
      (callFunction prepared.module host fuel name (runtimeArguments args).1 >>= returnToHost)
        (runtimeArguments args).2 = (.error e, t) →
      Addressable t.heap → ¬ StaleHandle e := by
  refine ⟨fun name args s kept h => begins_keepsHandles h prepared.module host, ?_, ?_⟩
  · intro fuel e t h
    exact FailState.wp_error (execute_handles prepared.module host fuel) h
  · intro fuel name args e t h
    exact FailState.wp_error (call_handles prepared.module host fuel name args) h

end Runs

section Exceptions

open VerifiedReferences

def loggingModule : PreparedModule where
  module := entryModule [.symbol "console.log"]
    [⟨0, [⟨.buildObject, [0], .object, 0⟩, ⟨.call, [0, 1, 0], .undefined, 0⟩, returnVoid]⟩]
  accepted := rfl

def crowdModule : PreparedModule where
  module := entryModule [.symbol "crowd"]
    [⟨0, [⟨.call, [0, 0], .unknown, 0⟩, ⟨.return, [0], .undefined, 0⟩]⟩]
  accepted := rfl

def crowd (n : ℕ) : InteropValue Int := .array (List.replicate n (.object []))

def crowdHost (n : ℕ) : HostEnvironment Int :=
  HostEnvironment.new.insertFunction "crowd" fun _ _ => .ok (crowd n)

theorem crowdModule_call (n : ℕ) :
    callFunction crowdModule.module (crowdHost n) 2 "__entry" [] .new =
      (.ok (runtimeFromInterop (crowd n) .new).1,
        ⟨(runtimeFromInterop (crowd n) .new).2, [], [⟨"crowd", []⟩]⟩) := rfl

theorem crowd_slots (n : ℕ) {heap : Store Int} (h : heap.freeList = []) :
    (runtimeFromValues (List.replicate n (.object [])) heap).2.slots =
        heap.slots ++ List.replicate n ⟨0, some (.object ∅)⟩ ∧
      (runtimeFromValues (List.replicate n (.object [])) heap).2.freeList = [] := by
  induction n generalizing heap with
  | zero => exact ⟨(List.append_nil _).symm, h⟩
  | succ n ih =>
    have hfirst : (heap.allocate (.object ∅)).2.freeList = [] ∧
        (heap.allocate (.object ∅)).2.slots = heap.slots ++ [⟨0, some (.object ∅)⟩] := by
      simp [GcHeap.allocate, h]
    obtain ⟨hslots, hfree⟩ := ih hfirst.1
    rw [hfirst.2] at hslots
    rw [List.replicate_succ]
    refine ⟨hslots.trans ?_, hfree⟩
    rw [List.append_assoc, List.replicate_succ]
    rfl

theorem crowd_handle {n : ℕ} (hn : 0 < n) (hwraps : UInt32.ofNat n = 0) :
    (runtimeFromInterop (crowd n) .new).1 = .array ⟨0, 0⟩ ∧
      (runtimeFromInterop (crowd n) .new).2.get ⟨0, 0⟩ = some (.object ∅) := by
  obtain ⟨hslots, hfree⟩ := @crowd_slots n .new rfl
  generalize hvalues : runtimeFromValues (List.replicate n (.object [])) (.new : Store Int) =
    converted at hslots hfree
  have hlength : converted.2.slots.length = n := by
    rw [hslots, List.length_append, List.length_replicate]
    exact Nat.zero_add n
  have hfirst : converted.2.get ⟨0, 0⟩ = some (.object ∅) := by
    obtain ⟨k, rfl⟩ : ∃ k, n = k + 1 := ⟨n - 1, by omega⟩
    rw [GcHeap.get, hslots]
    rfl
  have hvalue : (runtimeFromInterop (crowd n) .new).1 =
      .array (converted.2.allocate (.array converted.1)).1 := by
    rw [← hvalues]
    rfl
  have hheap : (runtimeFromInterop (crowd n) .new).2 =
      (converted.2.allocate (.array converted.1)).2 := by
    rw [← hvalues]
    rfl
  refine ⟨?_, ?_⟩
  · rw [hvalue, GcHeap.allocate_handle, nextIndex_of_freeList hfree, hlength, hwraps,
      GcHeap.allocate_generationAt, ← hlength, GcHeap.generationAt, List.getElem?_eq_none (Nat.le_refl _)]
    rfl
  · rw [hheap]
    exact allocate_get hfree _ hfirst

theorem crowdModule_execute {n : ℕ} (hn : 0 < n) (hwraps : UInt32.ofNat n = 0) :
    (execute crowdModule.module (crowdHost n) 2 .new).1 = .error (.runtime .staleArrayHandle) := by
  obtain ⟨hvalue, hget⟩ := crowd_handle hn hwraps
  have hcall := crowdModule_call n
  rw [hvalue] at hcall
  generalize (runtimeFromInterop (crowd n) .new).2 = heap at hget hcall
  have hlive : heap.Live (roots [(.array ⟨0, 0⟩ : RuntimeValue Int)]) 0 :=
    GcHeap.Live.root (List.mem_singleton_self ⟨0, 0⟩) (by rw [hget]; rfl)
  have hkept : (heap.collect (roots [(.array ⟨0, 0⟩ : RuntimeValue Int)])).2.get ⟨0, 0⟩ =
      some (.object ∅) := by
    rw [GcHeap.collect_get_of_live hlive, hget]
  have hmaterialize : materialize (heap.collect (roots [(.array ⟨0, 0⟩ : RuntimeValue Int)])).2
      (.array ⟨0, 0⟩) = .error (.runtime .staleArrayHandle) := by
    rw [materialize, heapDepth, materializeWithin, hkept]
  rw [execute, FailState.bind_ok hcall]
  change (FailState.bind (FailState.lift (materialize
    (heap.collect (roots [(.array ⟨0, 0⟩ : RuntimeValue Int)])).2 (.array ⟨0, 0⟩))) _ _).1 = _
  rw [hmaterialize]
  rfl

/-- The objects in the console of a call are not among the roots of its collection,
    and the index of a handle wraps when there are more slots than indices. -/
theorem prepared_staleHandles :
    (∃ (result : RuntimeValue Int) (t : Machine Int),
      callFunction loggingModule.module .new 2 "__entry" (runtimeArguments []).1
        (runtimeArguments []).2 = (.ok result, t) ∧
      ∃ value ∈ t.console, ¬ Resolves (t.heap.collect (roots [result])).2 value) ∧
    (execute crowdModule.module (crowdHost (2 ^ 32)) 2 .new).1 =
      .error (.runtime .staleArrayHandle) := by
  refine ⟨⟨.undefined, ⟨⟨[⟨0, some (.object ∅)⟩], [], 1⟩, [.object ⟨0, 0⟩], []⟩, rfl, ?_⟩, ?_⟩
  · refine ⟨.object ⟨0, 0⟩, List.mem_singleton_self _, ?_⟩
    rintro ⟨fields, hget⟩
    cases hget
  · exact crowdModule_execute (by decide) (by decide)

end Exceptions

end Tsvm.HandleIntegrity
