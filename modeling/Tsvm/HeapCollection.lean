import Mathlib.Logic.Relation
import Tsvm.HeapOperations

set_option autoImplicit false

/-!
# What a collection keeps

The object graph of a heap has an edge for each handle in a value that resolves.
The marking loop reaches every slot that can be reached from a root, so what such
a slot holds is there after the collection under the same handle.
-/
namespace Tsvm.Heap
open Relation

variable {τ : Type}

def Tracer.Marks (tracer : Tracer) (index : ℕ) : Prop := tracer.marks[index]? = some true

/-- The slot is marked and its turn in the queue is over. -/
def Tracer.Settled (tracer : Tracer) (index : ℕ) : Prop :=
  tracer.Marks index ∧ index ∉ tracer.pending

def GcHeap.Resolves (heap : GcHeap τ) (handle : HeapHandle) (index : ℕ) : Prop :=
  (heap.get handle).isSome = true ∧ handle.index.toNat = index

theorem GcHeap.get_valueAt {heap : GcHeap τ} {handle : HeapHandle} {value : τ}
    (h : heap.get handle = some value) : heap.valueAt handle.index.toNat = some value := by
  rw [get_eq] at h
  split at h
  · exact h
  · cases h

theorem GcHeap.Resolves.lt {heap : GcHeap τ} {handle : HeapHandle} {index : ℕ}
    (h : heap.Resolves handle index) : index < heap.slots.length := by
  obtain ⟨hsome, rfl⟩ := h
  obtain ⟨value, hvalue⟩ := Option.isSome_iff_exists.mp hsome
  exact valueAt_lt (get_valueAt hvalue)

theorem GcHeap.Resolves.unique {heap : GcHeap τ} {handle handle' : HeapHandle} {index : ℕ}
    (h : heap.Resolves handle index) (h' : heap.Resolves handle' index) : handle = handle' := by
  have hgeneration {found : HeapHandle} (hfound : heap.Resolves found index) :
      found.generation = heap.generationAt index := by
    obtain ⟨hsome, rfl⟩ := hfound
    rw [get_eq] at hsome
    by_contra hne
    rw [if_neg (Ne.symm hne)] at hsome
    cases hsome
  have hindex : handle.index = handle'.index := UInt32.toNat_inj.mp (h.2.trans h'.2.symm)
  have hsame := (hgeneration h).trans (hgeneration h').symm
  cases handle
  cases handle'
  cases hindex
  cases hsame
  rfl

section Marking

variable (heap : GcHeap τ) {tracer : Tracer}

theorem mark_marks (hlength : tracer.marks.length = heap.slots.length) (handle : HeapHandle)
    (index : ℕ) :
    (mark heap.slots tracer handle).Marks index ↔
      tracer.Marks index ∨ heap.Resolves handle index := by
  rw [mark_eq]
  by_cases hresolves : (heap.get handle).isSome = true
  · have hlt : handle.index.toNat < tracer.marks.length := by
      rw [hlength]
      exact GcHeap.Resolves.lt ⟨hresolves, rfl⟩
    by_cases hmarked : tracer.marks[handle.index.toNat]? = some true
    · rw [if_neg fun h => h.2 hmarked]
      refine ⟨.inl, ?_⟩
      rintro (h | ⟨_, rfl⟩)
      · exact h
      · exact hmarked
    · rw [if_pos ⟨hresolves, hmarked⟩]
      unfold Tracer.Marks GcHeap.Resolves
      rw [List.getElem?_set]
      by_cases hindex : handle.index.toNat = index
      · simp [hindex, hindex ▸ hlt, hresolves]
      · simp [hindex]
  · rw [if_neg fun h => hresolves h.1]
    exact ⟨.inl, fun h => h.elim id fun hhandle => absurd hhandle.1 hresolves⟩

theorem mark_settled {handle : HeapHandle} {index : ℕ}
    (h : (mark heap.slots tracer handle).Settled index) : tracer.Settled index := by
  rw [mark_eq] at h
  split at h
  · obtain ⟨hmarks, hpending⟩ := h
    rw [List.mem_append, List.mem_singleton, not_or] at hpending
    rw [Tracer.Marks, List.getElem?_set_ne (Ne.symm hpending.2)] at hmarks
    exact ⟨hmarks, hpending.1⟩
  · exact h

theorem mark_pending {handle : HeapHandle} {index : ℕ}
    (h : index ∈ (mark heap.slots tracer handle).pending) :
    index ∈ tracer.pending ∨ heap.Resolves handle index := by
  rw [mark_eq] at h
  split at h
  · rename_i hfresh
    refine (List.mem_append.mp h).imp_right fun hmem => ?_
    exact ⟨hfresh.1, (List.mem_singleton.mp hmem).symm⟩
  · exact .inl h

theorem mark_count (hlength : tracer.marks.length = heap.slots.length) (handle : HeapHandle) :
    (mark heap.slots tracer handle).marks.countP id + tracer.pending.length =
      tracer.marks.countP id + (mark heap.slots tracer handle).pending.length := by
  rw [mark_eq]
  split
  · rename_i hfresh
    obtain ⟨hresolves, hunmarked⟩ := hfresh
    have hlt : handle.index.toNat < tracer.marks.length := by
      rw [hlength]
      exact GcHeap.Resolves.lt ⟨hresolves, rfl⟩
    have hfalse : tracer.marks[handle.index.toNat] = false := by
      rw [List.getElem?_eq_getElem hlt] at hunmarked
      simpa using hunmarked
    have hset := List.countP_set (p := id) (a := true) hlt
    rw [hfalse] at hset
    simp only [id_eq, reduceIte, Bool.false_eq_true, Nat.sub_zero] at hset
    simp only [List.length_append, List.length_singleton]
    omega
  · rfl

theorem foldl_mark_marks (hlength : tracer.marks.length = heap.slots.length)
    (handles : List HeapHandle) (index : ℕ) :
    (handles.foldl (mark heap.slots) tracer).Marks index ↔
      tracer.Marks index ∨ ∃ handle ∈ handles, heap.Resolves handle index := by
  induction handles generalizing tracer with
  | nil => simp
  | cons handle handles ih =>
    rw [List.foldl_cons, ih ((mark_marks_length heap tracer handle).trans hlength),
      mark_marks heap hlength, or_assoc]
    simp only [List.exists_mem_cons_iff]

theorem foldl_mark_settled {handles : List HeapHandle} {index : ℕ}
    (h : (handles.foldl (mark heap.slots) tracer).Settled index) : tracer.Settled index := by
  induction handles generalizing tracer with
  | nil => exact h
  | cons handle handles ih => exact mark_settled heap (ih h)

theorem foldl_mark_pending {handles : List HeapHandle} {index : ℕ}
    (h : index ∈ (handles.foldl (mark heap.slots) tracer).pending) :
    index ∈ tracer.pending ∨ ∃ handle ∈ handles, heap.Resolves handle index := by
  induction handles generalizing tracer with
  | nil => exact .inl h
  | cons handle handles ih =>
    rcases ih h with hmem | ⟨other, hother, hresolves⟩
    · refine (mark_pending heap hmem).imp_right fun hresolves => ?_
      exact ⟨handle, List.mem_cons_self, hresolves⟩
    · exact .inr ⟨other, List.mem_cons_of_mem _ hother, hresolves⟩

theorem foldl_mark_count (hlength : tracer.marks.length = heap.slots.length)
    (handles : List HeapHandle) :
    (handles.foldl (mark heap.slots) tracer).marks.countP id + tracer.pending.length =
      tracer.marks.countP id + (handles.foldl (mark heap.slots) tracer).pending.length := by
  induction handles generalizing tracer with
  | nil => rfl
  | cons handle handles ih =>
    have hfirst := mark_count heap hlength handle
    have hrest := ih ((mark_marks_length heap tracer handle).trans hlength)
    rw [List.foldl_cons]
    omega

end Marking

section Collection

variable [Trace τ] (heap : GcHeap τ)

def GcHeap.Edge (i j : ℕ) : Prop :=
  ∃ value handle, heap.valueAt i = some value ∧ handle ∈ Trace.trace value ∧
    heap.Resolves handle j

/-- The slot can be reached from one of the roots. -/
def GcHeap.Live (roots : List HeapHandle) (index : ℕ) : Prop :=
  ∃ root ∈ roots, ∃ start, heap.Resolves root start ∧ ReflTransGen heap.Edge start index

/-- A state of the marking loop. -/
structure Marking (roots : List HeapHandle) (tracer : Tracer) : Prop where
  length : tracer.marks.length = heap.slots.length
  roots : ∀ root ∈ roots, ∀ index, heap.Resolves root index → tracer.Marks index
  closed : ∀ i j, tracer.Settled i → heap.Edge i j → tracer.Marks j

variable {heap} {roots : List HeapHandle} {tracer : Tracer}

theorem Marking.start :
    Marking heap roots
      (roots.foldl (mark heap.slots) ⟨heap.slots.map fun _ => false, []⟩) := by
  have hlength : (heap.slots.map fun _ => false).length = heap.slots.length := List.length_map _
  have hnone (index : ℕ) : ¬ Tracer.Marks ⟨heap.slots.map fun _ => false, []⟩ index := by
    rw [Tracer.Marks, List.getElem?_map]
    cases heap.slots[index]? <;> simp
  refine ⟨(foldl_mark_marks_length heap roots _).trans hlength, ?_, ?_⟩
  · intro root hroot index hresolves
    exact (foldl_mark_marks heap hlength roots index).mpr (.inr ⟨root, hroot, hresolves⟩)
  · intro i j hsettled _
    exact absurd (foldl_mark_settled heap hsettled).1 (hnone i)

theorem Marking.turn {index : ℕ} {pending : List ℕ} (h : Marking heap roots tracer)
    (hpending : tracer.pending = index :: pending) :
    Marking heap roots (visit heap.slots { tracer with pending } index) := by
  rw [visit_eq]
  have hlength : ({ tracer with pending } : Tracer).marks.length = heap.slots.length := h.length
  refine ⟨(foldl_mark_marks_length heap _ _).trans hlength, ?_, ?_⟩
  · intro root hroot i hresolves
    exact (foldl_mark_marks heap hlength _ i).mpr (.inl (h.roots root hroot i hresolves))
  · intro i j hsettled hedge
    obtain ⟨hmarks, hqueued⟩ := foldl_mark_settled heap hsettled
    rw [foldl_mark_marks heap hlength]
    by_cases hi : i = index
    · obtain ⟨value, handle, hvalue, hmem, hresolves⟩ := hedge
      refine .inr ⟨handle, ?_, hresolves⟩
      rw [← hi, hvalue]
      exact hmem
    · have hbefore : tracer.Settled i := by
        refine ⟨hmarks, ?_⟩
        rw [hpending, List.mem_cons, not_or]
        exact ⟨hi, hqueued⟩
      exact .inl (h.closed i j hbefore hedge)

theorem Marking.drain {turns : ℕ} (h : Marking heap roots tracer)
    (hturns : heap.slots.length + tracer.pending.length ≤ turns + tracer.marks.countP id) :
    Marking heap roots (drain heap.slots turns tracer) ∧
      (drain heap.slots turns tracer).pending = [] := by
  induction turns generalizing tracer with
  | zero =>
    have hcount : tracer.marks.countP id ≤ heap.slots.length := h.length ▸ List.countP_le_length
    refine ⟨h, List.eq_nil_of_length_eq_zero ?_⟩
    change tracer.pending.length = 0
    omega
  | succ turns ih =>
    rw [Heap.drain]
    split
    · rename_i hpending
      exact ⟨h, hpending⟩
    · rename_i index pending hpending
      refine ih (h.turn hpending) ?_
      have hcount := @foldl_mark_count τ heap { tracer with pending } h.length
        ((heap.valueAt index).elim [] Trace.trace)
      rw [visit_eq]
      rw [hpending, List.length_cons] at hturns
      simp only at hcount
      omega

variable (heap roots) in
def GcHeap.drained : Tracer :=
  drain heap.slots heap.slots.length
    (roots.foldl (mark heap.slots) ⟨heap.slots.map fun _ => false, []⟩)

variable (heap roots) in
theorem GcHeap.drained_marking :
    Marking heap roots (heap.drained roots) ∧ (heap.drained roots).pending = [] := by
  have hturns := @foldl_mark_count τ heap ⟨heap.slots.map fun _ => false, []⟩
    (List.length_map _) roots
  have hzero : (heap.slots.map fun _ => false).countP id = 0 := by simp
  rw [hzero, List.length_nil] at hturns
  have hstart : Marking heap roots
      (roots.foldl (mark heap.slots) ⟨heap.slots.map fun _ => false, []⟩) := .start
  exact @Marking.drain τ _ heap roots _ heap.slots.length hstart (by omega)

theorem GcHeap.Live.marked {index : ℕ} (h : heap.Live roots index) : heap.Marked roots index := by
  obtain ⟨hmarking, hempty⟩ := GcHeap.drained_marking heap roots
  obtain ⟨root, hroot, start, hresolves, hpath⟩ := h
  induction hpath with
  | refl => exact hmarking.roots root hroot start hresolves
  | tail _ hedge ih =>
    refine hmarking.closed _ _ ⟨ih, ?_⟩ hedge
    rw [hempty]
    exact List.not_mem_nil

theorem GcHeap.collect_get_of_marked {handle : HeapHandle}
    (h : heap.Marked roots handle.index.toNat) :
    (heap.collect roots).2.get handle = heap.get handle := by
  have hgeneration : (heap.collect roots).2.generationAt handle.index.toNat =
      heap.generationAt handle.index.toNat := by
    rw [collect_generationAt, if_neg fun hboth => hboth.2 h]
  rw [get_eq, get_eq, hgeneration, collect_valueAt, if_pos h]

/-- What can be reached from the roots is found under its old handle. -/
theorem GcHeap.collect_get_of_live {handle : HeapHandle}
    (h : heap.Live roots handle.index.toNat) :
    (heap.collect roots).2.get handle = heap.get handle :=
  collect_get_of_marked h.marked

theorem GcHeap.collect_get_some {handle : HeapHandle} {value : τ}
    (h : (heap.collect roots).2.get handle = some value) : heap.get handle = some value := by
  by_cases hmarked : heap.Marked roots handle.index.toNat
  · rw [← collect_get_of_marked hmarked]
    exact h
  · rw [get_eq, collect_valueAt, if_neg hmarked, ite_self] at h
    cases h

theorem GcHeap.collect_capacity : (heap.collect roots).2.capacity = heap.capacity := by
  rw [capacity, collect_slots, List.length_zipWith, marks_length, Nat.min_self]
  rfl

theorem GcHeap.Live.root {root : HeapHandle} (hroot : root ∈ roots)
    (hresolves : (heap.get root).isSome = true) : heap.Live roots root.index.toNat :=
  ⟨root, hroot, _, ⟨hresolves, rfl⟩, .refl⟩

theorem GcHeap.Live.tail {i j : ℕ} (h : heap.Live roots i) (hedge : heap.Edge i j) :
    heap.Live roots j := by
  obtain ⟨root, hroot, start, hresolves, hpath⟩ := h
  exact ⟨root, hroot, start, hresolves, hpath.tail hedge⟩

end Collection

end Tsvm.Heap
