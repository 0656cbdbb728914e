import Mathlib

set_option autoImplicit false

/-!
# The managed heap

A non-moving heap of slots with generation-checked handles and a mark and sweep
collector. The free list is kept with the most recently freed index first, the
order in which the vector of the source is popped.
-/
namespace Tsvm.Heap

structure HeapHandle where
  index : UInt32
  generation : UInt32
  deriving Repr, DecidableEq

structure CollectionReport where
  marked : ℕ
  collected : ℕ
  liveAfter : ℕ
  deriving Repr, DecidableEq

/-- The handles a value refers to, in the order it reports them. -/
class Trace (τ : Type) where
  trace : τ → List HeapHandle

structure Slot (τ : Type) where
  generation : UInt32
  value : Option τ

structure GcHeap (τ : Type) where
  slots : List (Slot τ)
  freeList : List ℕ
  liveLen : ℕ

structure Tracer where
  marks : List Bool
  pending : List ℕ

variable {τ : Type}

def GcHeap.new : GcHeap τ := ⟨[], [], 0⟩

namespace GcHeap

def capacity (heap : GcHeap τ) : ℕ := heap.slots.length

/-- A new slot starts at generation zero, a reused one keeps its generation. -/
def allocate (heap : GcHeap τ) (value : τ) : HeapHandle × GcHeap τ :=
  let index := heap.freeList.headD heap.slots.length
  let slots :=
    if index = heap.slots.length then heap.slots ++ [⟨0, some value⟩]
    else heap.slots.modify index fun slot => { slot with value := some value }
  (⟨.ofNat index, ((slots[index]?).map Slot.generation).getD 0⟩,
    ⟨slots, heap.freeList.tail, heap.liveLen + 1⟩)

def get (heap : GcHeap τ) (handle : HeapHandle) : Option τ :=
  match heap.slots[handle.index.toNat]? with
  | some slot => if slot.generation = handle.generation then slot.value else none
  | none => none

def set (heap : GcHeap τ) (handle : HeapHandle) (value : τ) : GcHeap τ :=
  { heap with slots := heap.slots.modify handle.index.toNat fun slot =>
      { slot with value := some value } }

def getMut (heap : GcHeap τ) (handle : HeapHandle) : Option (τ × (τ → GcHeap τ)) :=
  (heap.get handle).map fun value => (value, heap.set handle)

def contains (heap : GcHeap τ) (handle : HeapHandle) : Bool := (heap.get handle).isSome

end GcHeap

def mark (slots : List (Slot τ)) (tracer : Tracer) (handle : HeapHandle) : Tracer :=
  let index := handle.index.toNat
  match slots[index]? with
  | none => tracer
  | some slot =>
    if slot.generation ≠ handle.generation ∨ slot.value.isNone ∨ tracer.marks[index]? = some true
    then tracer
    else ⟨tracer.marks.set index true, tracer.pending ++ [index]⟩

/-- One turn of the marking loop for the index at the front of the queue. -/
def visit [Trace τ] (slots : List (Slot τ)) (tracer : Tracer) (index : ℕ) : Tracer :=
  match slots[index]?.bind Slot.value with
  | some value => (Trace.trace value).foldl (mark slots) tracer
  | none => tracer

/-- Every slot enters the queue at most once, so one turn for each slot is enough. -/
def drain [Trace τ] (slots : List (Slot τ)) : ℕ → Tracer → Tracer
  | 0, tracer => tracer
  | turns + 1, tracer =>
    match tracer.pending with
    | [] => tracer
    | index :: pending => drain slots turns (visit slots { tracer with pending } index)

def sweepSlot (slot : Slot τ) (marked : Bool) : Slot τ :=
  if slot.value.isSome ∧ ¬ marked then ⟨slot.generation + 1, none⟩ else slot

def sweptIndices (slots : List (Slot τ)) (marks : List Bool) : List ℕ :=
  (List.range slots.length).filter fun index =>
    (slots[index]?.bind Slot.value).isSome && !(marks[index]?.getD false)

def GcHeap.collect [Trace τ] (heap : GcHeap τ) (roots : List HeapHandle) :
    CollectionReport × GcHeap τ :=
  let start : Tracer := ⟨heap.slots.map fun _ => false, []⟩
  let marks := (drain heap.slots heap.slots.length (roots.foldl (mark heap.slots) start)).marks
  let collected := sweptIndices heap.slots marks
  let liveLen := heap.liveLen - collected.length
  (⟨marks.countP id, collected.length, liveLen⟩,
    ⟨heap.slots.zipWith sweepSlot marks, collected.reverse ++ heap.freeList, liveLen⟩)

end Tsvm.Heap
