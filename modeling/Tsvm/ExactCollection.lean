import Tsvm.HeapCollection
import Tsvm.StaleHandles

set_option autoImplicit false

/-!
# Exact collections

A collection marks nothing but what can be reached from its roots, so it frees all the
rest, and the three numbers of its report agree with the counter of live values.
-/
namespace Tsvm.Heap
open Relation

variable {τ : Type} {heap : GcHeap τ} {roots : List HeapHandle}

theorem countP_eq_range {α : Type} (p : α → Bool) (xs : List α) :
    xs.countP p = (List.range xs.length).countP fun i => (xs[i]?.map p).getD false := by
  have hsome : (List.range xs.length).map (fun i => xs[i]?) = xs.map some := by
    refine List.ext_getElem? fun i => ?_
    by_cases hi : i < xs.length
    · simp [hi]
    · simp [Nat.le_of_not_lt hi]
  have hmap : (xs.map some).countP (fun x => (x.map p).getD false) = xs.countP p := by
    rw [List.countP_map]
    rfl
  rw [← hmap, ← hsome, List.countP_map]
  rfl

theorem countP_add {α : Type} {p q r : α → Bool} {xs : List α}
    (h : ∀ x ∈ xs, (p x).toNat = (q x).toNat + (r x).toNat) :
    xs.countP p = xs.countP q + xs.countP r := by
  induction xs with
  | nil => rfl
  | cons x xs ih =>
    obtain ⟨hx, hxs⟩ := List.forall_mem_cons.mp h
    have hrest := ih hxs
    simp only [List.countP_cons]
    cases hp : p x <;> cases hq : q x <;> cases hr : r x <;> simp [hp, hq, hr] at hx ⊢ <;> omega

def Slot.occupied (slot : Slot τ) : Bool := slot.value.isSome

/-- The counter is right, and the free list names empty slots, each once. -/
structure GcHeap.Counted (heap : GcHeap τ) : Prop where
  live : heap.liveLen = heap.slots.countP Slot.occupied
  free : ∀ i ∈ heap.freeList, i < heap.slots.length ∧ heap.valueAt i = none
  nodup : heap.freeList.Nodup

theorem countP_modify {α : Type} (p : α → Bool) (f : α → α) {xs : List α} {i : ℕ} {x : α}
    (hx : xs[i]? = some x) :
    (xs.modify i f).countP p + (p x).toNat = xs.countP p + (p (f x)).toNat := by
  induction xs generalizing i with
  | nil => cases hx
  | cons head xs ih =>
    cases i with
    | zero =>
      cases hx
      rw [List.modify_zero_cons, List.countP_cons, List.countP_cons]
      cases p x <;> cases p (f x) <;> simp
    | succ i =>
      have hrest := ih hx
      rw [List.modify_succ_cons, List.countP_cons, List.countP_cons]
      omega

theorem GcHeap.valueAt_eq_none {i : ℕ} (hi : i < heap.slots.length) :
    heap.valueAt i = none ↔ (heap.slots[i]).occupied = false := by
  rw [valueAt, List.getElem?_eq_getElem hi, Slot.occupied, Option.isSome_eq_false_iff]
  exact Option.isNone_iff_eq_none.symm

theorem GcHeap.Counted.new : (GcHeap.new : GcHeap τ).Counted :=
  ⟨rfl, fun _ hmem => absurd hmem List.not_mem_nil, List.nodup_nil⟩

theorem GcHeap.Counted.allocate (h : heap.Counted) (value : τ) : (heap.allocate value).2.Counted := by
  have hslots : (heap.allocate value).2.slots =
      if heap.nextIndex = heap.slots.length then heap.slots ++ [⟨0, some value⟩]
      else heap.slots.modify heap.nextIndex fun slot => { slot with value := some value } := rfl
  have hlive : (heap.allocate value).2.liveLen = heap.liveLen + 1 := rfl
  have hfree : (heap.allocate value).2.freeList = heap.freeList.tail := rfl
  cases hlist : heap.freeList with
  | nil =>
    have hnext : heap.nextIndex = heap.slots.length := by rw [nextIndex, hlist]; rfl
    refine ⟨?_, ?_, ?_⟩
    · rw [hslots, if_pos hnext, hlive, h.live, List.countP_append]
      rfl
    · rw [hfree, hlist]
      exact fun _ hmem => absurd hmem List.not_mem_nil
    · rw [hfree, hlist]
      exact List.nodup_nil
  | cons index rest =>
    have hnext : heap.nextIndex = index := by rw [nextIndex, hlist]; rfl
    obtain ⟨hlt, hnone⟩ := h.free index (by rw [hlist]; exact List.mem_cons_self)
    have hne : index ≠ heap.slots.length := Nat.ne_of_lt hlt
    have hnodup := h.nodup
    rw [hlist, List.nodup_cons] at hnodup
    refine ⟨?_, ?_, ?_⟩
    · have hcount := countP_modify Slot.occupied (fun slot : Slot τ => { slot with value := some value })
        (List.getElem?_eq_getElem hlt)
      rw [(valueAt_eq_none hlt).mp hnone] at hcount
      rw [hslots, hnext, if_neg hne, hlive, h.live]
      exact hcount.symm
    · rw [hfree, hlist]
      intro i hmem
      obtain ⟨hi, hvalue⟩ := h.free i (by rw [hlist]; exact List.mem_cons_of_mem _ hmem)
      have hother : i ≠ index := fun heq => hnodup.1 (heq ▸ hmem)
      rw [allocate_valueAt heap value i (by rw [hnext]; omega), hnext, if_neg (Ne.symm hother)]
      refine ⟨?_, hvalue⟩
      rw [hslots, hnext, if_neg hne, List.length_modify]
      exact hi
    · rw [hfree, hlist]
      exact hnodup.2

theorem GcHeap.Counted.set (h : heap.Counted) {handle : HeapHandle} {found : τ}
    (hget : heap.get handle = some found) (value : τ) : (heap.set handle value).Counted := by
  have hvalue := get_valueAt hget
  have hlt := valueAt_lt hvalue
  have hoccupied : (heap.slots[handle.index.toNat]).occupied = true := by
    rw [← Bool.not_eq_false, ← valueAt_eq_none hlt, hvalue]
    exact Option.some_ne_none found
  have hcount := countP_modify Slot.occupied (fun slot : Slot τ => { slot with value := some value })
    (List.getElem?_eq_getElem hlt)
  rw [hoccupied] at hcount
  refine ⟨?_, fun i hmem => ?_, h.nodup⟩
  · refine h.live.trans ?_
    exact (Nat.add_right_cancel hcount).symm
  · obtain ⟨hi, hnone⟩ := h.free i hmem
    refine ⟨(List.length_modify ..).symm ▸ hi, ?_⟩
    rw [set_valueAt, if_neg fun hboth => ?_]
    · exact hnone
    · rw [← hboth.1, hvalue] at hnone
      cases hnone

variable [Trace τ]

/-- The marks of the loop are of slots that can be reached. -/
structure Justified (heap : GcHeap τ) (roots : List HeapHandle) (tracer : Tracer) : Prop where
  length : tracer.marks.length = heap.slots.length
  marks : ∀ i, tracer.Marks i → heap.Live roots i
  pending : ∀ i ∈ tracer.pending, heap.Live roots i

theorem Justified.start :
    Justified heap roots (roots.foldl (mark heap.slots) ⟨heap.slots.map fun _ => false, []⟩) := by
  have hlength : (heap.slots.map fun _ => false).length = heap.slots.length := List.length_map _
  have hroot (i : ℕ) (h : ∃ root ∈ roots, heap.Resolves root i) : heap.Live roots i := by
    obtain ⟨root, hmem, hresolves⟩ := h
    exact ⟨root, hmem, i, hresolves, .refl⟩
  refine ⟨(foldl_mark_marks_length heap roots _).trans hlength, fun i hmarks => ?_, fun i hmem => ?_⟩
  · rcases (foldl_mark_marks heap hlength roots i).mp hmarks with hnone | hroots
    · rw [Tracer.Marks, List.getElem?_map] at hnone
      cases hslot : heap.slots[i]? <;> simp [hslot] at hnone
    · exact hroot i hroots
  · rcases foldl_mark_pending heap hmem with hnone | hroots
    · exact absurd hnone List.not_mem_nil
    · exact hroot i hroots

theorem Justified.turn {tracer : Tracer} {index : ℕ} {pending : List ℕ}
    (h : Justified heap roots tracer) (hpending : tracer.pending = index :: pending) :
    Justified heap roots (visit heap.slots { tracer with pending } index) := by
  have hlive : heap.Live roots index := h.pending index (by rw [hpending]; exact List.mem_cons_self)
  have hedge (i : ℕ) (hfound : ∃ handle ∈ (heap.valueAt index).elim [] Trace.trace,
      heap.Resolves handle i) : heap.Live roots i := by
    obtain ⟨handle, hmem, hresolves⟩ := hfound
    cases hvalue : heap.valueAt index with
    | none =>
      rw [hvalue] at hmem
      exact absurd hmem List.not_mem_nil
    | some value =>
      rw [hvalue] at hmem
      exact hlive.tail ⟨value, handle, hvalue, hmem, hresolves⟩
  rw [visit_eq]
  have hlength : ({ tracer with pending } : Tracer).marks.length = heap.slots.length := h.length
  refine ⟨(foldl_mark_marks_length heap _ _).trans hlength, fun i hmarks => ?_, fun i hmem => ?_⟩
  · rcases (foldl_mark_marks heap hlength _ i).mp hmarks with hbefore | hfound
    · exact h.marks i hbefore
    · exact hedge i hfound
  · rcases foldl_mark_pending heap hmem with hbefore | hfound
    · refine h.pending i ?_
      rw [hpending]
      exact List.mem_cons_of_mem _ hbefore
    · exact hedge i hfound

theorem Justified.drain {tracer : Tracer} (turns : ℕ) (h : Justified heap roots tracer) :
    Justified heap roots (drain heap.slots turns tracer) := by
  induction turns generalizing tracer with
  | zero => exact h
  | succ turns ih =>
    rw [Heap.drain]
    split
    · exact h
    · rename_i index pending hpending
      exact ih (h.turn hpending)

/-- The collector marks exactly the slots that can be reached. -/
theorem GcHeap.marked_iff {index : ℕ} : heap.Marked roots index ↔ heap.Live roots index := by
  constructor
  · intro h
    exact (Justified.drain heap.slots.length Justified.start).marks index h
  · exact GcHeap.Live.marked

/-- The handles that resolve and can be reached from a root that resolves, from value to
    child as long as the children resolve. -/
inductive GcHeap.Reachable (heap : GcHeap τ) (roots : List HeapHandle) : HeapHandle → Prop
  | root {handle : HeapHandle} (hroot : handle ∈ roots) (hresolves : heap.contains handle = true) :
      Reachable heap roots handle
  | child {handle child : HeapHandle} {value : τ} (h : Reachable heap roots handle)
      (hget : heap.get handle = some value) (hchild : child ∈ Trace.trace value)
      (hresolves : heap.contains child = true) : Reachable heap roots child

theorem GcHeap.Reachable.live {handle : HeapHandle} (h : heap.Reachable roots handle) :
    heap.contains handle = true ∧ heap.Live roots handle.index.toNat := by
  induction h with
  | root hroot hresolves => exact ⟨hresolves, .root hroot hresolves⟩
  | child _ hget hchild hresolves ih =>
    exact ⟨hresolves, ih.2.tail ⟨_, _, get_valueAt hget, hchild, hresolves, rfl⟩⟩

theorem GcHeap.Live.reachable {index : ℕ} (h : heap.Live roots index) :
    ∃ handle, heap.Resolves handle index ∧ heap.Reachable roots handle := by
  obtain ⟨root, hroot, start, hresolves, hpath⟩ := h
  induction hpath with
  | refl => exact ⟨root, hresolves, .root hroot hresolves.1⟩
  | tail _ hedge ih =>
    obtain ⟨handle, hhandle, hreachable⟩ := ih
    obtain ⟨value, child, hvalue, hchild, hresolves⟩ := hedge
    obtain ⟨found, hfound⟩ := Option.isSome_iff_exists.mp hhandle.1
    have hsame := get_valueAt hfound
    rw [hhandle.2, hvalue] at hsame
    rw [← Option.some.inj hsame] at hfound
    exact ⟨child, hresolves, .child hreachable hfound hchild hresolves.1⟩

theorem GcHeap.reachable_iff {handle : HeapHandle} :
    heap.Reachable roots handle ↔
      heap.contains handle = true ∧ heap.Live roots handle.index.toNat := by
  refine ⟨Reachable.live, fun h => ?_⟩
  obtain ⟨found, hfound, hreachable⟩ := h.2.reachable
  have hsame : handle = found := Resolves.unique ⟨h.1, rfl⟩ hfound
  rw [hsame]
  exact hreachable

theorem GcHeap.collect_contains_iff {handle : HeapHandle} :
    (heap.collect roots).2.contains handle = true ↔ heap.Reachable roots handle := by
  rw [reachable_iff]
  constructor
  · intro h
    obtain ⟨value, hvalue⟩ := Option.isSome_iff_exists.mp h
    refine ⟨?_, marked_iff.mp ?_⟩
    · rw [contains, collect_get_some hvalue]
      rfl
    · by_contra hunmarked
      have hat := get_valueAt hvalue
      rw [collect_valueAt, if_neg hunmarked] at hat
      cases hat
  · rintro ⟨hcontains, hlive⟩
    rw [contains, collect_get_of_live hlive]
    exact hcontains

omit [Trace τ] in
theorem GcHeap.occupied_at (heap : GcHeap τ) (i : ℕ) :
    (heap.slots[i]?.map Slot.occupied).getD false = (heap.valueAt i).isSome := by
  rw [valueAt]
  cases heap.slots[i]? <;> rfl

theorem GcHeap.marked_at (heap : GcHeap τ) (roots : List HeapHandle) (i : ℕ) :
    ((heap.marks roots)[i]?.map id).getD false = true ↔ heap.Marked roots i := by
  rw [Marked]
  cases (heap.marks roots)[i]? <;> simp

theorem GcHeap.Live.occupied {index : ℕ} (h : heap.Live roots index) :
    (heap.valueAt index).isSome = true := by
  obtain ⟨handle, ⟨hcontains, rfl⟩, _⟩ := h.reachable
  obtain ⟨value, hvalue⟩ := Option.isSome_iff_exists.mp hcontains
  rw [get_valueAt hvalue]
  rfl

theorem GcHeap.occupied_split (heap : GcHeap τ) (roots : List HeapHandle) :
    heap.slots.countP Slot.occupied =
      (heap.marks roots).countP id + (sweptIndices heap.slots (heap.marks roots)).length := by
  rw [sweptIndices, ← List.countP_eq_length_filter, countP_eq_range Slot.occupied,
    countP_eq_range id, marks_length]
  refine countP_add fun i _ => ?_
  have hmark := heap.marked_at roots i
  rw [Option.map_id, id_eq] at hmark
  rw [occupied_at, Option.map_id, id_eq]
  change _ = _ + ((heap.valueAt i).isSome && !((heap.marks roots)[i]?.getD false)).toNat
  by_cases hmarked : heap.Marked roots i
  · rw [(marked_iff.mp hmarked).occupied, hmark.mpr hmarked]
    rfl
  · have hunmarked : (heap.marks roots)[i]?.getD false = false :=
      Bool.not_eq_true _ ▸ fun htrue => hmarked (hmark.mp htrue)
    rw [hunmarked]
    cases (heap.valueAt i).isSome <;> rfl

theorem GcHeap.collect_occupied (heap : GcHeap τ) (roots : List HeapHandle) :
    (heap.collect roots).2.slots.countP Slot.occupied = (heap.marks roots).countP id := by
  have hlength : (heap.collect roots).2.slots.length = heap.slots.length := collect_capacity
  rw [countP_eq_range Slot.occupied, countP_eq_range id, marks_length, hlength]
  refine List.countP_congr fun i _ => ?_
  rw [occupied_at, marked_at, collect_valueAt]
  by_cases hmarked : heap.Marked roots i
  · rw [if_pos hmarked, (marked_iff.mp hmarked).occupied]
    exact iff_of_true rfl hmarked
  · rw [if_neg hmarked]
    exact iff_of_false Bool.false_ne_true hmarked

theorem GcHeap.Counted.collect (h : heap.Counted) (roots : List HeapHandle) :
    (heap.collect roots).2.Counted := by
  have hsplit := heap.occupied_split roots
  have hswept {i : ℕ} (hmem : i ∈ sweptIndices heap.slots (heap.marks roots)) :
      i < heap.slots.length ∧ (heap.valueAt i).isSome = true ∧ ¬ heap.Marked roots i := by
    obtain ⟨hrange, hboth⟩ := List.mem_filter.mp hmem
    rw [Bool.and_eq_true, Bool.not_eq_true'] at hboth
    refine ⟨List.mem_range.mp hrange, hboth.1, fun hmarked => ?_⟩
    have htrue := (heap.marked_at roots i).mpr hmarked
    rw [Option.map_id, id_eq, hboth.2] at htrue
    cases htrue
  have hlength : (heap.collect roots).2.slots.length = heap.slots.length := collect_capacity
  refine ⟨?_, fun i hmem => ?_, ?_⟩
  · rw [collect_occupied]
    change heap.liveLen - (sweptIndices heap.slots (heap.marks roots)).length = _
    rw [h.live]
    omega
  · rw [hlength, collect_valueAt]
    rcases List.mem_append.mp hmem with hnew | hold
    · obtain ⟨hi, _, hunmarked⟩ := hswept (List.mem_reverse.mp hnew)
      exact ⟨hi, if_neg hunmarked⟩
    · obtain ⟨hi, hnone⟩ := h.free i hold
      rw [hnone, ite_self]
      exact ⟨hi, rfl⟩
  · change ((sweptIndices heap.slots (heap.marks roots)).reverse ++ heap.freeList).Nodup
    rw [List.nodup_append]
    refine ⟨List.nodup_reverse.mpr (List.nodup_range.filter _), h.nodup, ?_⟩
    rintro i hnew j hold rfl
    obtain ⟨_, hsome, _⟩ := hswept (List.mem_reverse.mp hnew)
    rw [(h.free i hold).2] at hsome
    cases hsome

/-- A collection of `heap` keeps what can be reached, and no more, and reports it. -/
structure GcHeap.Exact (heap : GcHeap τ) (roots : List HeapHandle) : Prop where
  terminates : (heap.drained roots).pending = []
  resolves : ∀ handle, (heap.collect roots).2.contains handle = true ↔ heap.Reachable roots handle
  values : ∀ handle, heap.Reachable roots handle →
    (heap.collect roots).2.get handle = heap.get handle
  marked : (heap.collect roots).1.marked = (heap.collect roots).2.liveLen
  liveAfter : (heap.collect roots).1.liveAfter = (heap.collect roots).2.liveLen
  collected : (heap.collect roots).1.collected + (heap.collect roots).2.liveLen = heap.liveLen

theorem GcHeap.Counted.exact (h : heap.Counted) (roots : List HeapHandle) : heap.Exact roots where
  terminates := (drained_marking heap roots).2
  resolves _ := collect_contains_iff
  values _ hreachable := collect_get_of_live hreachable.live.2
  marked := by
    rw [(h.collect roots).live, collect_occupied]
    rfl
  liveAfter := rfl
  collected := by
    rw [(h.collect roots).live, collect_occupied, h.live, heap.occupied_split roots, Nat.add_comm]
    rfl

end Tsvm.Heap

namespace Tsvm.ExactCollection
open Heap StaleHandles

variable {τ : Type} [Trace τ]

theorem run_counted (ops : List (Operation τ)) {heap : GcHeap τ} (h : heap.Counted) :
    (run ops heap).Counted :=
  run_keeps (fun h value => h.allocate value) (fun h _ _ hget value => h.set hget value)
    (fun h roots => h.collect roots) ops h

/-- Whatever has been done to a heap, a collection is exact. -/
theorem collect_exact (ops : List (Operation τ)) (roots : List HeapHandle) :
    (run ops .new : GcHeap τ).Exact roots :=
  (run_counted ops .new).exact roots

end Tsvm.ExactCollection
