import Tsvm.ExactCollection

set_option autoImplicit false

/-!
# The books of the heap

The slots, the free list and the counter of live slots are three records of the
same thing. Every operation keeps them in agreement, so an allocation never
takes a slot that is in use and a collection never subtracts too much.
-/
namespace Tsvm.Heap

variable {τ : Type}

structure GcHeap.Consistent (heap : GcHeap τ) : Prop extends heap.Counted where
  listed : ∀ i < heap.slots.length, heap.valueAt i = none → i ∈ heap.freeList

namespace GcHeap

variable {heap : GcHeap τ}

theorem Consistent.mem_freeList (h : heap.Consistent) {i : ℕ} :
    i ∈ heap.freeList ↔ i < heap.slots.length ∧ heap.valueAt i = none :=
  ⟨h.free i, fun hvacant => h.listed i hvacant.1 hvacant.2⟩

theorem Consistent.new : (GcHeap.new : GcHeap τ).Consistent :=
  ⟨.new, fun _ hlt => absurd hlt (Nat.not_lt_zero _)⟩

theorem Counted.nextIndex_le (h : heap.Counted) : heap.nextIndex ≤ heap.slots.length := by
  cases hlist : heap.freeList with
  | nil => simp [nextIndex, hlist]
  | cons index rest =>
    have hlt := (h.free index (by simp [hlist])).1
    simp only [nextIndex, hlist, List.headD_cons]
    omega

theorem Counted.nextIndex_vacant (h : heap.Counted) : heap.valueAt heap.nextIndex = none := by
  cases hlist : heap.freeList with
  | nil => simp [nextIndex, valueAt, hlist]
  | cons index rest =>
    have hnone := (h.free index (by simp [hlist])).2
    simpa [nextIndex, hlist] using hnone

theorem allocate_length_le (heap : GcHeap τ) (value : τ) :
    (heap.allocate value).2.slots.length ≤ heap.slots.length + 1 := by
  simp only [allocate]
  split <;> simp

theorem Consistent.allocate (h : heap.Consistent) (value : τ) :
    (heap.allocate value).2.Consistent := by
  refine ⟨h.toCounted.allocate value, fun i hlt hnone => ?_⟩
  have hnext := h.nextIndex_le
  rw [allocate_valueAt heap value i hnext] at hnone
  by_cases hsame : heap.nextIndex = i
  · rw [if_pos hsame] at hnone
    cases hnone
  · rw [if_neg hsame] at hnone
    have hfree : (heap.allocate value).2.freeList = heap.freeList.tail := rfl
    cases hlist : heap.freeList with
    | nil =>
      -- a new slot was made, so `i` is one of the old slots
      have hlength := allocate_length_le heap value
      have hlast : heap.nextIndex = heap.slots.length := by simp [nextIndex, hlist]
      have hmem := h.listed i (by omega) hnone
      simp [hlist] at hmem
    | cons index rest =>
      have hhead : heap.nextIndex = index := by simp [nextIndex, hlist]
      have hslots : (heap.allocate value).2.slots.length = heap.slots.length := by
        have hindex := (h.free index (by simp [hlist])).1
        have hne : ¬ index = heap.slots.length := by omega
        simp [GcHeap.allocate, hlist, hne]
      have hmem := h.listed i (by omega) hnone
      rw [hlist] at hmem
      rw [hfree, hlist]
      rcases List.mem_cons.mp hmem with heq | hrest
      · exact absurd (hhead.trans heq.symm) hsame
      · exact hrest

theorem Consistent.set (h : heap.Consistent) {handle : HeapHandle} {found : τ}
    (hget : heap.get handle = some found) (value : τ) : (heap.set handle value).Consistent := by
  refine ⟨h.toCounted.set hget value, fun i hlt hnone => ?_⟩
  have hbefore : i < heap.slots.length := by simpa [GcHeap.set] using hlt
  rw [set_valueAt] at hnone
  by_cases hhere : handle.index.toNat = i ∧ i < heap.slots.length
  · rw [if_pos hhere] at hnone
    cases hnone
  · rw [if_neg hhere] at hnone
    exact h.listed i hbefore hnone

variable [Trace τ]

theorem mem_sweptIndices {roots : List HeapHandle} {i : ℕ} :
    i ∈ sweptIndices heap.slots (heap.marks roots) ↔
      (heap.valueAt i).isSome = true ∧ ¬ heap.Marked roots i := by
  have hmark := heap.marked_at roots i
  simp only [Option.map_id, id_eq] at hmark
  rw [sweptIndices, List.mem_filter, List.mem_range, Bool.and_eq_true, Bool.not_eq_true',
    ← Bool.not_eq_true, hmark]
  constructor
  · exact fun h => h.2
  · intro h
    obtain ⟨value, hvalue⟩ := Option.isSome_iff_exists.mp h.1
    exact ⟨valueAt_lt hvalue, h⟩

theorem Consistent.collect (h : heap.Consistent) (roots : List HeapHandle) :
    (heap.collect roots).2.Consistent := by
  refine ⟨h.toCounted.collect roots, fun i hlt hnone => ?_⟩
  have hcapacity : (heap.collect roots).2.slots.length = heap.slots.length := collect_capacity
  have hbefore : i < heap.slots.length := by omega
  rw [collect_valueAt] at hnone
  refine List.mem_append.mpr ?_
  by_cases hold : heap.valueAt i = none
  · exact .inr (h.listed i hbefore hold)
  · have hsome : (heap.valueAt i).isSome = true := Option.isSome_iff_ne_none.mpr hold
    have hunmarked : ¬ heap.Marked roots i := by
      intro hmarked
      rw [if_pos hmarked] at hnone
      exact hold hnone
    exact .inl (List.mem_reverse.mpr (mem_sweptIndices.mpr ⟨hsome, hunmarked⟩))

theorem Counted.collected_le (h : heap.Counted) (roots : List HeapHandle) :
    (heap.collect roots).1.collected ≤ heap.liveLen := by
  have hsplit := heap.occupied_split roots
  have hcollected : (heap.collect roots).1.collected =
      (sweptIndices heap.slots (heap.marks roots)).length := rfl
  have hlive := h.live
  omega

end GcHeap

end Tsvm.Heap

namespace Tsvm.HeapBookkeeping
open Heap StaleHandles

variable {τ : Type}

/-- An allocation of `value` takes a slot nobody uses and gives out the only handle to it. -/
structure SafeAllocation (heap : GcHeap τ) (value : τ) : Prop where
  slot : heap.nextIndex ∈ heap.freeList ∨ heap.nextIndex = heap.slots.length
  vacant : heap.valueAt heap.nextIndex = none
  index : (heap.allocate value).1.index.toNat = heap.nextIndex
  resolves : (heap.allocate value).2.get (heap.allocate value).1 = some value
  others : ∀ handle found, heap.get handle = some found →
    handle ≠ (heap.allocate value).1 ∧ (heap.allocate value).2.get handle = some found

/-- The free list names exactly the vacant slots, each once, the counter is the number
    of the slots in use, and the next operation finds it so. -/
structure Books [Trace τ] (heap : GcHeap τ) : Prop where
  vacant : ∀ i, i ∈ heap.freeList ↔ i < heap.slots.length ∧ heap.valueAt i = none
  nodup : heap.freeList.Nodup
  live : heap.liveLen = heap.slots.countP Slot.occupied
  allocation : ∀ value, SafeAllocation heap value
  collection : ∀ roots, (heap.collect roots).1.collected ≤ heap.liveLen

theorem nextIndex_mem (heap : GcHeap τ) :
    heap.nextIndex ∈ heap.freeList ∨ heap.nextIndex = heap.slots.length := by
  cases hlist : heap.freeList with
  | nil => simp [GcHeap.nextIndex, hlist]
  | cons index rest => simp [GcHeap.nextIndex, hlist]

theorem safeAllocation {heap : GcHeap τ} (h : heap.Counted) (hcapacity : heap.capacity < 2 ^ 32)
    (value : τ) : SafeAllocation heap value := by
  have hnext := h.nextIndex_le
  have hindex : (heap.allocate value).1.index.toNat = heap.nextIndex :=
    UInt32.toNat_ofNat_of_lt' (Nat.lt_of_le_of_lt hnext hcapacity)
  refine ⟨nextIndex_mem heap, h.nextIndex_vacant, hindex, ?_, fun handle found hget => ?_⟩
  · have hgeneration : (heap.allocate value).2.generationAt heap.nextIndex =
        (heap.allocate value).1.generation := rfl
    rw [GcHeap.get_eq, hindex, if_pos hgeneration, GcHeap.allocate_valueAt heap value _ hnext,
      if_pos rfl]
  · have hvalue := GcHeap.get_valueAt hget
    have hother : heap.nextIndex ≠ handle.index.toNat := by
      intro hsame
      rw [← hsame, h.nextIndex_vacant] at hvalue
      cases hvalue
    constructor
    · intro hsame
      rw [hsame, hindex] at hother
      exact hother rfl
    · rw [GcHeap.get_eq, GcHeap.allocate_generationAt, GcHeap.allocate_valueAt heap value _ hnext,
        if_neg hother, ← GcHeap.get_eq]
      exact hget

variable [Trace τ]

theorem run_consistent (ops : List (Operation τ)) {heap : GcHeap τ} (h : heap.Consistent) :
    (run ops heap).Consistent :=
  run_keeps (fun h value => h.allocate value) (fun h _ _ hget value => h.set hget value)
    (fun h roots => h.collect roots) ops h

/-- In every heap that operations can lead to the books are in order. -/
theorem run_books (ops : List (Operation τ))
    (hcapacity : (run ops .new : GcHeap τ).capacity < 2 ^ 32) : Books (run ops .new : GcHeap τ) := by
  have h : (run ops .new : GcHeap τ).Consistent := run_consistent ops .new
  exact ⟨fun _ => h.mem_freeList, h.nodup, h.live, safeAllocation h.toCounted hcapacity,
    h.collected_le⟩

/-- Two objects, of which the collection takes the first, and a third in its slot. -/
theorem run_books_reused :
    Books (run [.allocate (), .allocate (), .collect [⟨1, 0⟩], .allocate ()] .new : GcHeap Unit) :=
  run_books _ (by decide)

end Tsvm.HeapBookkeeping
