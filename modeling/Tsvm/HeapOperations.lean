import Tsvm.Heap

set_option autoImplicit false

/-!
# What the heap operations do to a slot

A heap is seen through two functions of an index, the value and the generation
there. Each operation has one lemma for each of them.
-/
namespace Tsvm.Heap

variable {τ : Type}

namespace GcHeap

def valueAt (heap : GcHeap τ) (index : ℕ) : Option τ := heap.slots[index]?.bind Slot.value

def generationAt (heap : GcHeap τ) (index : ℕ) : UInt32 :=
  (heap.slots[index]?.map Slot.generation).getD 0

/-- The index the next allocation takes. -/
def nextIndex (heap : GcHeap τ) : ℕ := heap.freeList.headD heap.slots.length

theorem get_eq (heap : GcHeap τ) (handle : HeapHandle) :
    heap.get handle =
      if heap.generationAt handle.index.toNat = handle.generation then
        heap.valueAt handle.index.toNat
      else none := by
  unfold get valueAt generationAt
  cases heap.slots[handle.index.toNat]? with
  | none => simp
  | some slot => rfl

theorem valueAt_lt {heap : GcHeap τ} {index : ℕ} {value : τ} (h : heap.valueAt index = some value) :
    index < heap.slots.length := by
  by_contra hge
  rw [valueAt, List.getElem?_eq_none (Nat.le_of_not_lt hge)] at h
  cases h

theorem allocate_handle (heap : GcHeap τ) (value : τ) :
    (heap.allocate value).1 =
      ⟨.ofNat heap.nextIndex, (heap.allocate value).2.generationAt heap.nextIndex⟩ := rfl

theorem modify_generation {slots : List (Slot τ)} (index i : ℕ) (value : τ) :
    ((slots.modify index fun slot => { slot with value := some value })[i]?).map Slot.generation =
      slots[i]?.map Slot.generation := by
  rw [List.getElem?_modify]
  cases slots[i]? with
  | none => rfl
  | some slot =>
    by_cases h : index = i <;> simp [h]

theorem modify_value {slots : List (Slot τ)} (index i : ℕ) (value : τ) :
    ((slots.modify index fun slot => { slot with value := some value })[i]?).bind Slot.value =
      if index = i ∧ i < slots.length then some value else slots[i]?.bind Slot.value := by
  rw [List.getElem?_modify]
  by_cases hi : i < slots.length
  · rw [List.getElem?_eq_getElem hi]
    by_cases h : index = i
    · rw [if_pos ⟨h, hi⟩]
      exact congrArg Slot.value (if_pos h)
    · rw [if_neg fun hboth => h hboth.1]
      exact congrArg Slot.value (if_neg h)
  · rw [List.getElem?_eq_none (Nat.le_of_not_lt hi), if_neg fun hboth => hi hboth.2]
    rfl

theorem allocate_generationAt (heap : GcHeap τ) (value : τ) (i : ℕ) :
    (heap.allocate value).2.generationAt i = heap.generationAt i := by
  unfold generationAt allocate
  by_cases hnew : heap.freeList.headD heap.slots.length = heap.slots.length
  · simp only [if_pos hnew]
    by_cases hi : i < heap.slots.length
    · rw [List.getElem?_append_left hi]
    · rw [List.getElem?_append_right (Nat.le_of_not_lt hi),
        List.getElem?_eq_none (Nat.le_of_not_lt hi)]
      by_cases hlast : i - heap.slots.length = 0
      · rw [hlast]
        rfl
      · rw [List.getElem?_eq_none (by rw [List.length_singleton]; omega)]
  · simp only [if_neg hnew]
    rw [modify_generation]

theorem allocate_valueAt (heap : GcHeap τ) (value : τ) (i : ℕ)
    (hnext : heap.nextIndex ≤ heap.slots.length) :
    (heap.allocate value).2.valueAt i =
      if heap.nextIndex = i then some value else heap.valueAt i := by
  unfold valueAt allocate
  change heap.freeList.headD heap.slots.length ≤ heap.slots.length at hnext
  change _ = if heap.freeList.headD heap.slots.length = i then some value else _
  by_cases hnew : heap.freeList.headD heap.slots.length = heap.slots.length
  · simp only [if_pos hnew]
    rw [hnew]
    by_cases hi : i < heap.slots.length
    · rw [List.getElem?_append_left hi, if_neg (by omega)]
    · rw [List.getElem?_append_right (Nat.le_of_not_lt hi),
        List.getElem?_eq_none (Nat.le_of_not_lt hi)]
      by_cases hlast : heap.slots.length = i
      · rw [if_pos hlast, hlast, Nat.sub_self]
        rfl
      · rw [if_neg hlast, List.getElem?_eq_none (by rw [List.length_singleton]; omega)]
  · simp only [if_neg hnew]
    rw [modify_value]
    by_cases hi : heap.freeList.headD heap.slots.length = i
    · rw [if_pos ⟨hi, by omega⟩, if_pos hi]
    · rw [if_neg fun hboth => hi hboth.1, if_neg hi]

theorem allocate_valueAt_isSome (heap : GcHeap τ) (value : τ) {i : ℕ}
    (h : (heap.valueAt i).isSome = true) : ((heap.allocate value).2.valueAt i).isSome = true := by
  obtain ⟨old, hold⟩ := Option.isSome_iff_exists.mp h
  have hi := valueAt_lt hold
  unfold valueAt allocate
  by_cases hnew : heap.freeList.headD heap.slots.length = heap.slots.length
  · simp only [if_pos hnew]
    rw [List.getElem?_append_left hi]
    exact h
  · simp only [if_neg hnew]
    rw [modify_value]
    by_cases hhere : heap.freeList.headD heap.slots.length = i
    · rw [if_pos ⟨hhere, hi⟩]
      rfl
    · rw [if_neg fun hboth => hhere hboth.1]
      exact h

theorem set_generationAt (heap : GcHeap τ) (handle : HeapHandle) (value : τ) (i : ℕ) :
    (heap.set handle value).generationAt i = heap.generationAt i := by
  exact congrArg (Option.getD · 0) (modify_generation handle.index.toNat i value)

theorem set_valueAt (heap : GcHeap τ) (handle : HeapHandle) (value : τ) (i : ℕ) :
    (heap.set handle value).valueAt i =
      if handle.index.toNat = i ∧ i < heap.slots.length then some value else heap.valueAt i :=
  modify_value _ _ _

end GcHeap

/-- A handle that resolves is marked and queued, unless its slot is marked. -/
theorem mark_eq (heap : GcHeap τ) (tracer : Tracer) (handle : HeapHandle) :
    mark heap.slots tracer handle =
      if (heap.get handle).isSome = true ∧ tracer.marks[handle.index.toNat]? ≠ some true then
        ⟨tracer.marks.set handle.index.toNat true, tracer.pending ++ [handle.index.toNat]⟩
      else tracer := by
  cases hslot : heap.slots[handle.index.toNat]? with
  | none => simp [mark, GcHeap.get, hslot]
  | some slot =>
    obtain ⟨generation, value⟩ := slot
    by_cases hgeneration : generation = handle.generation <;> cases value <;>
      simp [mark, GcHeap.get, hslot, hgeneration]

theorem mark_marks_length (heap : GcHeap τ) (tracer : Tracer) (handle : HeapHandle) :
    (mark heap.slots tracer handle).marks.length = tracer.marks.length := by
  rw [mark_eq]
  split
  · exact List.length_set
  · rfl

theorem foldl_mark_marks_length (heap : GcHeap τ) (handles : List HeapHandle) (tracer : Tracer) :
    (handles.foldl (mark heap.slots) tracer).marks.length = tracer.marks.length := by
  induction handles generalizing tracer with
  | nil => rfl
  | cons handle handles ih => exact (ih _).trans (mark_marks_length heap tracer handle)

section Collection

variable [Trace τ]

theorem visit_eq (heap : GcHeap τ) (tracer : Tracer) (index : ℕ) :
    visit heap.slots tracer index =
      ((heap.valueAt index).elim [] Trace.trace).foldl (mark heap.slots) tracer := by
  unfold visit GcHeap.valueAt
  cases heap.slots[index]?.bind Slot.value <;> rfl

theorem drain_marks_length (heap : GcHeap τ) (turns : ℕ) (tracer : Tracer) :
    (drain heap.slots turns tracer).marks.length = tracer.marks.length := by
  induction turns generalizing tracer with
  | zero => rfl
  | succ turns ih =>
    rw [drain]
    split
    · rfl
    · rw [ih, visit_eq, foldl_mark_marks_length]

/-- The marks when the queue has been emptied. -/
def GcHeap.marks (heap : GcHeap τ) (roots : List HeapHandle) : List Bool :=
  (drain heap.slots heap.slots.length
    (roots.foldl (mark heap.slots) ⟨heap.slots.map fun _ => false, []⟩)).marks

theorem GcHeap.marks_length (heap : GcHeap τ) (roots : List HeapHandle) :
    (heap.marks roots).length = heap.slots.length := by
  rw [marks, drain_marks_length, foldl_mark_marks_length, List.length_map]

def GcHeap.Marked (heap : GcHeap τ) (roots : List HeapHandle) (index : ℕ) : Prop :=
  (heap.marks roots)[index]? = some true

instance (heap : GcHeap τ) (roots : List HeapHandle) (index : ℕ) :
    Decidable (heap.Marked roots index) := inferInstanceAs (Decidable (_ = some true))

theorem GcHeap.collect_slots (heap : GcHeap τ) (roots : List HeapHandle) :
    (heap.collect roots).2.slots = heap.slots.zipWith sweepSlot (heap.marks roots) := rfl

theorem GcHeap.collect_getElem? (heap : GcHeap τ) (roots : List HeapHandle) (i : ℕ) :
    (heap.collect roots).2.slots[i]? =
      heap.slots[i]?.map fun slot => sweepSlot slot (decide (heap.Marked roots i)) := by
  rw [GcHeap.collect_slots, List.getElem?_zipWith]
  by_cases hi : i < heap.slots.length
  · have hmark : i < (heap.marks roots).length := by rw [marks_length]; exact hi
    rw [List.getElem?_eq_getElem hi, List.getElem?_eq_getElem hmark]
    simp [Marked, hmark]
  · rw [List.getElem?_eq_none (Nat.le_of_not_lt hi)]
    rfl

theorem GcHeap.collect_valueAt (heap : GcHeap τ) (roots : List HeapHandle) (i : ℕ) :
    (heap.collect roots).2.valueAt i = if heap.Marked roots i then heap.valueAt i else none := by
  unfold valueAt
  rw [collect_getElem?]
  cases heap.slots[i]? with
  | none => simp
  | some slot =>
    obtain ⟨generation, value⟩ := slot
    by_cases hmarked : heap.Marked roots i <;> cases value <;> simp [sweepSlot, hmarked]

/-- A slot whose value is reclaimed gets the next generation. -/
theorem GcHeap.collect_generationAt (heap : GcHeap τ) (roots : List HeapHandle) (i : ℕ) :
    (heap.collect roots).2.generationAt i =
      if (heap.valueAt i).isSome = true ∧ ¬ heap.Marked roots i then heap.generationAt i + 1
      else heap.generationAt i := by
  unfold valueAt generationAt
  rw [collect_getElem?]
  cases heap.slots[i]? with
  | none => simp
  | some slot =>
    obtain ⟨generation, value⟩ := slot
    by_cases hmarked : heap.Marked roots i <;> cases value <;> simp [sweepSlot, hmarked]

end Collection

end Tsvm.Heap
