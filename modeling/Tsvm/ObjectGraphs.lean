import Mathlib.Data.Finset.Card
import Tsvm.ActivationPoints
import Tsvm.HandleIntegrity
import Tsvm.Materialization
import Tsvm.VerifiedOperands

set_option autoImplicit false

/-!
# Cycles of objects

A new object only refers to older ones, so the object graph of a run gets a cycle
by a store into an object that can be reached from the stored value, and only so.
Without a cycle the recursion of `materialize` is no deeper than the heap has
slots.
-/
namespace Tsvm.ObjectGraphs
open Bytecode Heap Interop RuntimeValues Interpreter InterpreterSteps Pipeline RunInvariants
open RuntimeFailures Relation HandleIntegrity Materialization
open ActivationPoints (reaches_within within_unique within_of_run)

variable {ν : Type}

def Acyclic (heap : Store ν) : Prop := ∀ index, ¬ TransGen heap.Edge index index

def InRange (heap : Store ν) (value : RuntimeValue ν) : Prop :=
  ∀ handle ∈ value.handles, handle.index.toNat < heap.slots.length

/-- What an object graph refers to is there, and nothing is reclaimed during a run. -/
structure Layered (heap : Store ν) : Prop where
  freeList : heap.freeList = []
  inside : ∀ index found, heap.valueAt index = some found →
    ∀ value ∈ contents found, InRange heap value
  acyclic : Acyclic heap

theorem edge_iff {heap : Store ν} {i j : ℕ} :
    heap.Edge i j ↔ ∃ found value handle, heap.valueAt i = some found ∧ value ∈ contents found ∧
      handle ∈ value.handles ∧ heap.Resolves handle j := by
  constructor
  · rintro ⟨found, handle, hfound, htrace, hresolves⟩
    rw [trace_eq] at htrace
    obtain ⟨value, hvalue, hhandle⟩ := List.mem_flatMap.mp htrace
    exact ⟨found, value, handle, hfound, hvalue, hhandle, hresolves⟩
  · rintro ⟨found, value, handle, hfound, hvalue, hhandle, hresolves⟩
    refine ⟨found, handle, hfound, ?_, hresolves⟩
    rw [trace_eq]
    exact List.mem_flatMap.mpr ⟨value, hvalue, hhandle⟩

theorem allocate_edge {heap : Store ν} {stored : HeapValue ν} (h : Layered heap)
    (hstored : ∀ value ∈ contents stored, InRange heap value) {i j : ℕ}
    (hedge : (heap.allocate stored).2.Edge i j) :
    j < heap.slots.length ∧ (i < heap.slots.length → heap.Edge i j) := by
  have hnext := nextIndex_of_freeList h.freeList
  obtain ⟨found, value, handle, hfound, hvalue, hhandle, hresolves, rfl⟩ := edge_iff.mp hedge
  rw [GcHeap.allocate_valueAt _ _ _ (Nat.le_of_eq hnext), hnext] at hfound
  have hlt : handle.index.toNat < heap.slots.length := by
    split at hfound
    · cases hfound
      exact hstored value hvalue handle hhandle
    · exact h.inside i found hfound value hvalue handle hhandle
  refine ⟨hlt, fun hi => edge_iff.mpr ⟨found, value, handle, ?_, hvalue, hhandle, ?_, rfl⟩⟩
  · rw [if_neg (by omega)] at hfound
    exact hfound
  · rw [← allocate_get_of_lt h.freeList stored hlt]
    exact hresolves

theorem allocate_path {heap : Store ν} {stored : HeapValue ν} (h : Layered heap)
    (hstored : ∀ value ∈ contents stored, InRange heap value) {i j : ℕ}
    (hpath : TransGen (heap.allocate stored).2.Edge i j) (hi : i < heap.slots.length) :
    TransGen heap.Edge i j ∧ j < heap.slots.length := by
  induction hpath with
  | single hedge =>
    obtain ⟨hlt, hold⟩ := allocate_edge h hstored hedge
    exact ⟨.single (hold hi), hlt⟩
  | tail _ hedge ih =>
    obtain ⟨hlt, hold⟩ := allocate_edge h hstored hedge
    exact ⟨ih.1.tail (hold ih.2), hlt⟩

theorem Layered.allocate {heap : Store ν} {stored : HeapValue ν} (h : Layered heap)
    (hstored : ∀ value ∈ contents stored, InRange heap value) :
    Layered (heap.allocate stored).2 := by
  have hcapacity : (heap.allocate stored).2.slots.length = heap.slots.length + 1 :=
    allocate_capacity h.freeList stored
  refine ⟨?_, ?_, ?_⟩
  · rw [GcHeap.allocate, h.freeList]
    rfl
  · intro index found hfound value hvalue handle hhandle
    rw [GcHeap.allocate_valueAt _ _ _ (Nat.le_of_eq (nextIndex_of_freeList h.freeList))] at hfound
    rw [hcapacity]
    refine Nat.lt_succ_of_lt ?_
    split at hfound
    · cases hfound
      exact hstored value hvalue handle hhandle
    · exact h.inside index found hfound value hvalue handle hhandle
  · intro index hcycle
    have hlt : index < heap.slots.length := by
      obtain ⟨_, _, hedge⟩ := TransGen.tail'_iff.mp hcycle
      exact (allocate_edge h hstored hedge).1
    exact h.acyclic index (allocate_path h hstored hcycle hlt).1

theorem reference_inRange {heap : Store ν} (h : heap.freeList = []) (stored : HeapValue ν) :
    InRange (heap.allocate stored).2 (reference (heap.allocate stored).1 stored) := by
  have hcapacity : (heap.allocate stored).2.slots.length = heap.slots.length + 1 :=
    allocate_capacity h stored
  have hindex : (heap.allocate stored).1.index.toNat < (heap.allocate stored).2.slots.length := by
    rw [hcapacity, GcHeap.allocate_handle, nextIndex_of_freeList h]
    change (UInt32.ofNat heap.slots.length).toNat < _
    rw [UInt32.toNat_ofNat']
    exact Nat.lt_succ_of_le (Nat.mod_le _ _)
  intro handle hhandle
  cases stored with
  | object fields => rw [List.mem_singleton.mp hhandle]; exact hindex
  | array values => rw [List.mem_singleton.mp hhandle]; exact hindex

section Stores

variable {heap : Store ν} {handle : HeapHandle} {fields : Std.TreeMap String (RuntimeValue ν)}
  {value : RuntimeValue ν}

theorem set_valueAt_self (hget : heap.get handle = some (.object fields)) (stored : HeapValue ν) :
    (heap.set handle stored).valueAt handle.index.toNat = some stored := by
  rw [GcHeap.set_valueAt, if_pos ⟨rfl, GcHeap.valueAt_lt (GcHeap.get_valueAt hget)⟩]

theorem set_valueAt_ne (heap : Store ν) (stored : HeapValue ν) {i : ℕ}
    (h : i ≠ handle.index.toNat) : (heap.set handle stored).valueAt i = heap.valueAt i := by
  rw [GcHeap.set_valueAt, if_neg fun hboth => h hboth.1.symm]

theorem set_resolves (hget : heap.get handle = some (.object fields)) (stored : HeapValue ν)
    (other : HeapHandle) (j : ℕ) :
    (heap.set handle stored).Resolves other j ↔ heap.Resolves other j := by
  have hoccupied : ((heap.set handle stored).valueAt other.index.toNat).isSome =
      (heap.valueAt other.index.toNat).isSome := by
    by_cases hsame : other.index.toNat = handle.index.toNat
    · rw [hsame, set_valueAt_self hget, GcHeap.get_valueAt hget]
      rfl
    · rw [set_valueAt_ne heap stored hsame]
  have hsome : ((heap.set handle stored).get other).isSome = (heap.get other).isSome := by
    rw [GcHeap.get_eq, GcHeap.get_eq, GcHeap.set_generationAt]
    split
    · exact hoccupied
    · rfl
  rw [GcHeap.Resolves, GcHeap.Resolves, hsome]

theorem store_edge {property : String} (hget : heap.get handle = some (.object fields)) {i j : ℕ}
    (h : (heap.set handle (.object (fields.insert property value))).Edge i j) :
    heap.Edge i j ∨ i = handle.index.toNat ∧ ∃ other ∈ value.handles, heap.Resolves other j := by
  obtain ⟨found, inner, other, hfound, hinner, hother, hresolves⟩ := edge_iff.mp h
  rw [set_resolves hget] at hresolves
  by_cases hi : i = handle.index.toNat
  · rw [hi, set_valueAt_self hget] at hfound
    cases hfound
    rcases mem_contents_insert hinner with rfl | hinner
    · exact .inr ⟨hi, other, hother, hresolves⟩
    · refine .inl (edge_iff.mpr ⟨_, inner, other, ?_, hinner, hother, hresolves⟩)
      rw [hi]
      exact GcHeap.get_valueAt hget
  · rw [set_valueAt_ne heap _ hi] at hfound
    exact .inl (edge_iff.mpr ⟨found, inner, other, hfound, hinner, hother, hresolves⟩)

theorem store_path {property : String} (hget : heap.get handle = some (.object fields))
    (hallowed : ¬ heap.Live value.handles handle.index.toNat) {i j : ℕ}
    (h : TransGen (heap.set handle (.object (fields.insert property value))).Edge i j) :
    TransGen heap.Edge i j ∨
      ReflTransGen heap.Edge i handle.index.toNat ∧ heap.Live value.handles j := by
  induction h with
  | single hedge =>
    rcases store_edge hget hedge with hedge | ⟨rfl, other, hother, hresolves⟩
    · exact .inl (.single hedge)
    · exact .inr ⟨.refl, other, hother, _, hresolves, .refl⟩
  | tail _ hedge ih =>
    rcases store_edge hget hedge with hedge | ⟨rfl, other, hother, hresolves⟩
    · rcases ih with hpath | ⟨hpath, hlive⟩
      · exact .inl (hpath.tail hedge)
      · exact .inr ⟨hpath, hlive.tail hedge⟩
    · rcases ih with hpath | ⟨_, hlive⟩
      · exact .inr ⟨hpath.to_reflTransGen, other, hother, _, hresolves, .refl⟩
      · exact absurd hlive hallowed

theorem store_path_to {stored : HeapValue ν} (hget : heap.get handle = some (.object fields))
    {i : ℕ} (h : ReflTransGen heap.Edge i handle.index.toNat) :
    ReflTransGen (heap.set handle stored).Edge i handle.index.toNat := by
  induction h using ReflTransGen.head_induction_on with
  | refl => exact .refl
  | @head i j hedge _ ih =>
    by_cases hi : i = handle.index.toNat
    · rw [hi]
    · obtain ⟨found, inner, other, hfound, hinner, hother, hresolves⟩ := edge_iff.mp hedge
      refine .head (edge_iff.mpr ⟨found, inner, other, ?_, hinner, hother, ?_⟩) ih
      · rw [set_valueAt_ne heap stored hi]
        exact hfound
      · rw [set_resolves hget]
        exact hresolves

/-- A store makes a cycle exactly if its object can be reached from the stored value. -/
theorem store_acyclic_iff (property : String) (hget : heap.get handle = some (.object fields))
    (hacyclic : Acyclic heap) :
    Acyclic (heap.set handle (.object (fields.insert property value))) ↔
      ¬ heap.Live value.handles handle.index.toNat := by
  constructor
  · rintro hafter ⟨other, hother, start, hresolves, hpath⟩
    refine hafter handle.index.toNat (.head' ?_ (store_path_to hget hpath))
    refine edge_iff.mpr ⟨_, value, other, set_valueAt_self hget _, ?_, hother, ?_⟩
    · exact mem_contents_object.mpr ⟨property, Std.TreeMap.getElem?_insert_self⟩
    · rw [set_resolves hget]
      exact hresolves
  · intro hallowed index hcycle
    rcases store_path hget hallowed hcycle with hpath | ⟨hpath, hlive⟩
    · exact hacyclic index hpath
    · obtain ⟨root, hroot, start, hresolves, hreach⟩ := hlive
      exact hallowed ⟨root, hroot, start, hresolves, hreach.trans hpath⟩

theorem Layered.store {property : String} (h : Layered heap)
    (hget : heap.get handle = some (.object fields)) (hvalue : InRange heap value)
    (hallowed : ¬ heap.Live value.handles handle.index.toNat) :
    Layered (heap.set handle (.object (fields.insert property value))) := by
  refine ⟨h.freeList, ?_, (store_acyclic_iff property hget h.acyclic).mpr hallowed⟩
  intro index found hfound inner hinner other hother
  have hlength : (heap.set handle (.object (fields.insert property value))).slots.length =
      heap.slots.length := List.length_modify ..
  rw [hlength]
  by_cases hi : index = handle.index.toNat
  · rw [hi, set_valueAt_self hget] at hfound
    cases hfound
    rcases mem_contents_insert hinner with rfl | hinner
    · exact hvalue other hother
    · exact h.inside _ _ (GcHeap.get_valueAt hget) inner hinner other hother
  · rw [set_valueAt_ne heap _ hi] at hfound
    exact h.inside index found hfound inner hinner other hother

end Stores

def Overflow (e : Stop) : Prop := e = .stackOverflow

structure Above (heap : Store ν) (above : Finset ℕ) (value : RuntimeValue ν) : Prop where
  slots : above ⊆ Finset.range heap.slots.length
  path : ∀ index ∈ above, ∀ handle ∈ value.handles, ∀ j, heap.Resolves handle j →
    TransGen heap.Edge index j

section Walks

variable {heap : Store ν} {above : Finset ℕ} {value : RuntimeValue ν}

theorem above_empty (heap : Store ν) (value : RuntimeValue ν) : Above heap ∅ value :=
  ⟨Finset.empty_subset _, nofun⟩

theorem Above.card_le (h : Above heap above value) : above.card ≤ heap.slots.length := by
  have hle := Finset.card_le_card h.slots
  rw [Finset.card_range] at hle
  exact hle

theorem Above.enter (hacyclic : Acyclic heap) (h : Above heap above value) {handle : HeapHandle}
    {found : HeapValue ν} (hhandle : handle ∈ value.handles) (hget : heap.get handle = some found) :
    (insert handle.index.toNat above).card = above.card + 1 ∧
      ∀ inner ∈ contents found, Above heap (insert handle.index.toNat above) inner := by
  have hresolves : heap.Resolves handle handle.index.toNat := ⟨by rw [hget]; rfl, rfl⟩
  have hvalue := GcHeap.get_valueAt hget
  refine ⟨Finset.card_insert_of_notMem fun hmem => ?_, fun inner hinner => ⟨?_, ?_⟩⟩
  · exact hacyclic _ (h.path _ hmem handle hhandle _ hresolves)
  · exact Finset.insert_subset (Finset.mem_range.mpr (GcHeap.valueAt_lt hvalue)) h.slots
  · intro index hindex other hother j hj
    have hedge : heap.Edge handle.index.toNat j :=
      edge_iff.mpr ⟨found, inner, other, hvalue, hinner, hother, hj⟩
    rcases Finset.mem_insert.mp hindex with rfl | hindex
    · exact .single hedge
    · exact (h.path index hindex handle hhandle _ hresolves).tail hedge

theorem materializeWithin_acyclic (hacyclic : Acyclic heap) {depth : ℕ}
    (h : Above heap above value) (hdepth : heap.slots.length < depth + above.card) :
    Yields Overflow (materializeWithin heap depth value) fun _ => True := by
  induction depth generalizing above value with
  | zero =>
    have hle := h.card_le
    omega
  | succ depth ih =>
    cases value with
    | object handle =>
      rw [materializeWithin]
      split
      · rename_i fields hget
        obtain ⟨hcard, hinner⟩ := h.enter hacyclic (List.mem_singleton_self handle) hget
        have hfields : Yields Overflow (fields.toList.mapM fun field => do
            let value ← materializeWithin heap depth field.2
            pure (field.1, value)) fun values => ∀ value ∈ values, True :=
          .mapM fun field hfield =>
            (ih (hinner _ (List.mem_map_of_mem hfield)) (by omega)).bind fun _ _ => .ok trivial
        exact hfields.bind fun _ _ => .ok trivial
      · exact .error fun h => by cases h
    | array handle =>
      rw [materializeWithin]
      split
      · rename_i values hget
        obtain ⟨hcard, hinner⟩ := h.enter hacyclic (List.mem_singleton_self handle) hget
        have hvalues : Yields Overflow (values.mapM (materializeWithin heap depth))
            fun values => ∀ value ∈ values, True :=
          .mapM fun value hmem => ih (hinner value hmem) (by omega)
        exact hvalues.bind fun _ _ => .ok trivial
      · exact .error fun h => by cases h
    | _ => exact .ok trivial

theorem materialize_acyclic (hacyclic : Acyclic heap) (value : RuntimeValue ν) :
    Yields Overflow (materialize heap value) fun _ => True :=
  materializeWithin_acyclic hacyclic (above_empty heap value) (by simp [heapDepth, GcHeap.capacity])

theorem displayWithin_acyclic [F64 ν] (hacyclic : Acyclic heap) {depth : ℕ}
    (h : Above heap above value) (hdepth : heap.slots.length < depth + above.card) :
    Yields Overflow (displayWithin heap depth value) fun _ => True := by
  induction depth generalizing above value with
  | zero =>
    have hle := h.card_le
    omega
  | succ depth ih =>
    cases value with
    | array handle =>
      rw [displayWithin]
      split
      · rename_i values hget
        obtain ⟨hcard, hinner⟩ := h.enter hacyclic (List.mem_singleton_self handle) hget
        have hparts : Yields Overflow (values.mapM (displayWithin heap depth))
            fun parts => ∀ part ∈ parts, True :=
          .mapM fun value hmem => ih (hinner value hmem) (by omega)
        exact hparts.bind fun _ _ => .ok trivial
      · exact .error fun h => by cases h
    | _ => exact .ok trivial

theorem display_acyclic [F64 ν] (hacyclic : Acyclic heap) (value : RuntimeValue ν) :
    Yields Overflow (display heap value) fun _ => True :=
  displayWithin_acyclic hacyclic (above_empty heap value) (by simp [heapDepth, GcHeap.capacity])

end Walks

/-- A run without cycles, as an invariant: a store is allowed if its object cannot be
    reached from the stored value. -/
def layered (ν : Type) [F64 ν] : HeapInvariant ν where
  Holds := Layered
  Valid := InRange
  Grows heap heap' := heap.slots.length ≤ heap'.slots.length
  Allowed heap handle value := (∃ fields, heap.get handle = some (.object fields)) →
    ¬ heap.Live value.handles handle.index.toNat
  Excluded _ e := Overflow e
  new := ⟨rfl, nofun, fun index hcycle => by
    obtain ⟨_, _, hedge⟩ := TransGen.tail'_iff.mp hcycle
    obtain ⟨_, _, _, hfound, _⟩ := edge_iff.mp hedge
    cases hfound⟩
  grows_refl heap := Nat.le_refl heap.slots.length
  grows_trans := Nat.le_trans
  valid_mono h hvalue handle hhandle := Nat.lt_of_lt_of_le (hvalue handle hhandle) h
  valid_plain heap value h handle hhandle := by
    rw [h] at hhandle
    cases hhandle
  valid_contents h hget hvalue := h.inside _ _ (GcHeap.get_valueAt hget) _ hvalue
  allocate := by
    intro heap stored h hstored
    refine ⟨h.allocate hstored, ?_, reference_inRange h.freeList stored⟩
    exact Nat.le_of_lt (Nat.lt_of_succ_le (Nat.le_of_eq (allocate_capacity h.freeList stored).symm))
  store := by
    intro heap handle fields value property h hget hvalue hallowed
    exact ⟨h.store hget hvalue (hallowed ⟨fields, hget⟩), Nat.le_of_eq (List.length_modify ..).symm⟩
  excluded_mono _ hexcluded := hexcluded
  excluded_failure h := by
    rw [show _ = Stop.stackOverflow from h]
    exact .stackOverflow
  materialize h _ := (materialize_acyclic h.acyclic _).2 _
  display h _ := (display_acyclic h.acyclic _).2 _
  object _ _ _ := nofun

section Runs

variable [F64 ν] {m : BytecodeModule} {host : HostEnvironment ν} {name : String}
  {args : List (RuntimeValue ν)} {s : Machine ν}
  {kept : Machine ν → RuntimeValue ν → List (RuntimeValue ν)}

theorem executeInstruction_storeMember {call : Call ν} {instruction : Instruction} {frame : Frame ν}
    (h : instruction.opcode = .storeMember) :
    executeInstruction m call instruction frame =
      (FailState.lift (operand instruction 0 >>= frame.value) >>= fun object =>
        FailState.lift (operand instruction 1 >>= symbol m) >>= fun property =>
          FailState.lift (operand instruction 2 >>= frame.value) >>= fun value =>
            FailState.read >>= fun s =>
              FailState.lift (storeMember s.heap object property value) >>= fun heap =>
                setHeap heap >>= fun _ => pure (.continue, frame)) := by
  obtain ⟨opcode, operands, tag, src⟩ := instruction
  subst h
  rfl

theorem store_next {p : Point ν} {instruction : Instruction} {handle : HeapHandle}
    {property : String} {value : RuntimeValue ν} {fields : Std.TreeMap String (RuntimeValue ν)}
    (hi : p.instruction = some instruction)
    (hstore : Stores m instruction p.frame handle property value)
    (hget : p.machine.heap.get handle = some (.object fields)) :
    Next m host p (p.after p.frame { p.machine with
      heap := p.machine.heap.set handle (.object (fields.insert property value)) }) := by
  refine ⟨p.frame, _, ⟨instruction, 0, hi, ?_⟩, rfl⟩
  have hwrite : storeMember p.machine.heap (.object handle) property value =
      .ok (p.machine.heap.set handle (.object (fields.insert property value))) := by
    rw [storeMember, GcHeap.getMut, hget]
    rfl
  rw [executeInstruction_storeMember hstore.opcode, hstore.object,
    FailState.bind_ok (FailState.lift_run _ _), hstore.property,
    FailState.bind_ok (FailState.lift_run _ _), hstore.value,
    FailState.bind_ok (FailState.lift_run _ _), FailState.bind_ok (FailState.read_run _), hwrite,
    FailState.bind_ok (FailState.lift_run _ _)]
  rfl

/-- The object graph of a run has no cycle exactly as long as no store makes one. -/
theorem acyclic_iff_stores (h : Begins name args s kept) (m : BytecodeModule)
    (host : HostEnvironment ν) :
    (∀ p, Passes m host name args s p → Acyclic p.machine.heap) ↔
      CallStoresAllowed (layered ν) m host name args s := by
  obtain ⟨hs, hargs⟩ := h.good (layered ν)
  constructor
  · rintro hacyclic p ⟨start, henter, hreach⟩ instruction handle property value hi hstore
      ⟨fields, hget⟩
    have hnext : Next m host p _ := store_next hi hstore hget
    have hafter := hacyclic _ ⟨start, henter, hreach.tail hnext.step⟩
    exact (store_acyclic_iff property hget (hacyclic p ⟨start, henter, hreach⟩)).mp hafter
  · intro hstores p hp
    exact (PointValid.passes hp hs hargs hstores).machine.heap.acyclic

omit [F64 ν] in
theorem collect_acyclic {heap : Store ν} (h : Acyclic heap) (roots : List HeapHandle) :
    Acyclic (heap.collect roots).2 := by
  intro index hcycle
  refine h index (TransGen.mono ?_ _ _ hcycle)
  intro i j hedge
  obtain ⟨found, value, handle, hfound, hvalue, hhandle, hsome, hindex⟩ := edge_iff.mp hedge
  obtain ⟨target, htarget⟩ := Option.isSome_iff_exists.mp hsome
  refine edge_iff.mpr ⟨found, value, handle, ?_, hvalue, hhandle, ?_, hindex⟩
  · rw [GcHeap.collect_valueAt] at hfound
    split at hfound
    · exact hfound
    · cases hfound
  · rw [GcHeap.collect_get_some htarget]
    rfl

theorem callFunction_acyclic (h : Begins name args s kept)
    (hstores : CallStoresAllowed (layered ν) m host name args s) (fuel : ℕ) :
    FailState.wp (callFunction m host fuel name args) s (fun _ t => Acyclic t.heap)
      fun e _ => ¬ Overflow e := by
  obtain ⟨hs, hargs⟩ := h.good (layered ν)
  refine FailState.wp_mono (callFunction_keeps m host fuel name args s hs hargs hstores) ?_ ?_
  · exact fun _ _ hgood => hgood.1.heap.acyclic
  · exact fun _ _ hgood => hgood.2.2

theorem execute_acyclic (hstores : CallStoresAllowed (layered ν) m host "__entry" [] .new)
    (fuel : ℕ) :
    FailState.wp (execute m host fuel) .new (fun _ _ => True) fun e _ => ¬ Overflow e := by
  rw [execute, FailState.wp_bind]
  refine FailState.wp_mono (callFunction_acyclic .execute hstores fuel) ?_ fun e t h => h
  intro result t hacyclic
  have hmaterialize (value : RuntimeValue ν) :=
    materialize_acyclic (collect_acyclic hacyclic (roots t.console ++ roots [result])) value
  simp only [FailState.wp_bind, FailState.wp_read, setHeap, FailState.wp_modify, FailState.wp_lift,
    FailState.wp_pure]
  refine ⟨fun console _ => ⟨fun _ _ => trivial, (hmaterialize result).2⟩, fun e he => ?_⟩
  obtain ⟨value, _, herror⟩ := Except.mapM_eq_error he
  exact (hmaterialize value).2 e herror

theorem call_acyclic {args : List (InteropValue ν)}
    (hstores : CallStoresAllowed (layered ν) m host name (runtimeArguments args).1
      (runtimeArguments args).2) (fuel : ℕ) :
    FailState.wp (callFunction m host fuel name (runtimeArguments args).1 >>= returnToHost)
      (runtimeArguments args).2 (fun _ _ => True) fun e _ => ¬ Overflow e := by
  rw [FailState.wp_bind]
  refine FailState.wp_mono (callFunction_acyclic (.call name args) hstores fuel) ?_ fun e t h => h
  intro result t hacyclic
  have hmaterialize := materialize_acyclic (collect_acyclic hacyclic (roots [result])) result
  simp only [returnToHost, FailState.wp_bind, FailState.wp_read, setHeap, FailState.wp_modify,
    FailState.wp_lift, FailState.wp_pure]
  exact ⟨fun _ _ => trivial, hmaterialize.2⟩

/-- All recursions of `materialize` in a run end: those for the arguments of calls,
    which are in the state `s` or at one of the points, and those at the end. -/
structure Materializes (m : BytecodeModule) (host : HostEnvironment ν) (name : String)
    (args : List (RuntimeValue ν)) (s : Machine ν)
    (kept : Machine ν → RuntimeValue ν → List (RuntimeValue ν)) : Prop where
  start : ∀ value, Terminates s.heap value
  points : ∀ p, Passes m host name args s p → ∀ value, Terminates p.machine.heap value
  collected : ∀ fuel result t, callFunction m host fuel name args s = (.ok result, t) →
    ∀ value, Terminates (t.heap.collect (roots (kept t result))).2 value

omit [F64 ν] in
theorem Acyclic.terminates {heap : Store ν} (h : Acyclic heap) (value : RuntimeValue ν) :
    Terminates heap value :=
  ⟨heapDepth heap, fun hoverflow => (materialize_acyclic h value).2 _ hoverflow rfl⟩

/-- In every run of a prepared module the object graph has no cycle exactly as long as no
    store makes one, and then every recursion of `materialize` ends. -/
theorem prepared_materializes (prepared : PreparedModule) (host : HostEnvironment ν) :
    (∀ name args s kept, Begins name args s kept →
      ((∀ p, Passes prepared.module host name args s p → Acyclic p.machine.heap) ↔
        CallStoresAllowed (layered ν) prepared.module host name args s) ∧
      (CallStoresAllowed (layered ν) prepared.module host name args s →
        Materializes prepared.module host name args s kept)) ∧
    (CallStoresAllowed (layered ν) prepared.module host "__entry" [] .new →
      ∀ fuel, prepared.executeWithHost host fuel ≠ .error .stackOverflow) ∧
    ∀ name args,
      CallStoresAllowed (layered ν) prepared.module host name (runtimeArguments args).1
        (runtimeArguments args).2 →
      ∀ fuel, prepared.callFunction host fuel name args ≠ .error .stackOverflow := by
  refine ⟨fun name args s kept h => ?_, fun hstores fuel herror => ?_,
    fun name args hstores fuel herror => ?_⟩
  · have hiff := acyclic_iff_stores h prepared.module host
    refine ⟨hiff, fun hstores => ⟨?_, ?_, ?_⟩⟩
    · exact (h.good (layered ν)).1.heap.acyclic.terminates
    · exact fun p hp => (hiff.mpr hstores p hp).terminates
    · intro fuel result t hcall
      have hacyclic := FailState.wp_ok (callFunction_acyclic h hstores fuel) hcall
      exact (collect_acyclic hacyclic _).terminates
  · exact FailState.wp_error (execute_acyclic hstores fuel) (Prod.ext herror rfl) rfl
  · exact FailState.wp_error (call_acyclic hstores fuel) (Prod.ext herror rfl) rfl

end Runs

section Pairs

def pairFunction : BytecodeFunction :=
  ⟨"pair", [.unknown], .object,
    [⟨0, [⟨.buildObject, [0], .object, 0⟩, ⟨.loadLocal, [0], .unknown, 0⟩,
      ⟨.storeMember, [0, 0, 1], .unknown, 0⟩, ⟨.return, [0], .undefined, 0⟩]⟩], []⟩

def pairModule : PreparedModule where
  module := ⟨currentHeader, [.symbol "inner"], [pairFunction], [⟨0, 0, 1, 1, 1, 1⟩]⟩
  accepted := rfl

def pairArguments : List (InteropValue Int) := [.object [("n", .number 4)]]

def pairPoint : Point Int :=
  ⟨pairFunction, pairFunction.blocks.headD ⟨0, []⟩, 2,
    ⟨[.object ⟨0, 0⟩], [.object ⟨1, 0⟩, .object ⟨0, 0⟩]⟩,
    ⟨⟨[⟨0, some (.object ((∅ : Std.TreeMap String (RuntimeValue Int)).insert "n" (.number 4)))⟩,
      ⟨0, some (.object ∅)⟩], [], 2⟩, [], []⟩⟩

theorem pairModule_storesAllowed : CallStoresAllowed (layered Int) pairModule.module .new "pair"
    (runtimeArguments pairArguments).1 (runtimeArguments pairArguments).2 := by
  rintro p ⟨start, ⟨function, block, t, hdispatch, hblock, rfl⟩, hreach⟩
  cases hdispatch
  cases hblock
  obtain ⟨hwithin, hsame⟩ := reaches_within (by decide) hreach
  have hpoint : Within pairModule.module .new (entry pairFunction
      (pairFunction.blocks.headD ⟨0, []⟩) (runtimeArguments pairArguments).1
      (runtimeArguments pairArguments).2) pairPoint := within_of_run 2 0 rfl rfl rfl rfl
  intro instruction handle property value hi hstore
  -- The code has one store, so `p` is in front of it.
  have hpc : p.pc = pairPoint.pc := by
    have hop := hstore.opcode
    rw [Point.instruction, hsame] at hi
    obtain ⟨hlt, rfl⟩ := List.getElem?_eq_some_iff.mp hi
    exact (show ∀ i (h : i < 4), pairPoint.block.instructions[i].opcode = .storeMember → i = 2 by
      decide) p.pc hlt hop
  obtain rfl := within_unique hwithin hpoint hpc
  cases hi
  cases hstore.object
  cases hstore.value
  intro _ hlive
  exact absurd hlive.marked (by decide +kernel)

/-- An object that is stored into a new one, and both leave the interpreter. -/
theorem pairModule_materializes :
    CallStoresAllowed (layered Int) pairModule.module .new "pair"
        (runtimeArguments pairArguments).1 (runtimeArguments pairArguments).2 ∧
      ∀ fuel, pairModule.callFunction .new fuel "pair" pairArguments ≠ .error .stackOverflow :=
  ⟨pairModule_storesAllowed,
    (prepared_materializes pairModule .new).2.2 "pair" pairArguments pairModule_storesAllowed⟩

end Pairs

section Cycle

def tieSource : String :=
  "function tie(node) { node.self = node; return node; } console.log(tie({}));"

def tieModule : PreparedModule where
  module :=
    { header := currentHeader
      constants := [.symbol "self", .symbol "tie", .symbol "console.log"]
      functions := [
        ⟨"tie", [.unknown], .undefined,
          [⟨0, [⟨.loadLocal, [0], .unknown, 0⟩, ⟨.loadLocal, [0], .unknown, 1⟩,
            ⟨.storeMember, [0, 0, 1], .unknown, 2⟩, ⟨.loadLocal, [0], .unknown, 3⟩,
            ⟨.return, [2], .undefined, 4⟩]⟩], []⟩,
        ⟨"__entry", [], .undefined,
          [⟨0, [⟨.buildObject, [0], .object, 5⟩, ⟨.call, [1, 1, 0], .unknown, 6⟩,
            ⟨.call, [2, 1, 1], .unknown, 7⟩, ⟨.return, [], .undefined, 8⟩]⟩], []⟩]
      sourceMap := [⟨21, 25, 1, 22, 1, 26⟩, ⟨33, 37, 1, 34, 1, 38⟩, ⟨21, 37, 1, 22, 1, 38⟩,
        ⟨46, 50, 1, 47, 1, 51⟩, ⟨39, 51, 1, 40, 1, 52⟩, ⟨70, 72, 1, 71, 1, 73⟩,
        ⟨66, 73, 1, 67, 1, 74⟩, ⟨54, 74, 1, 55, 1, 75⟩, ⟨0, 74, 1, 1, 1, 75⟩] }
  accepted := rfl

/-- A heap with one object that is its own field. -/
def knot : Store Int :=
  ⟨[⟨0, some (.object ((∅ : Std.TreeMap String (RuntimeValue Int)).insert "self" (.object ⟨0, 0⟩)))⟩],
    [], 1⟩

theorem knot_overflow (depth : ℕ) :
    materializeWithin knot depth (.object ⟨0, 0⟩) = .error .stackOverflow := by
  induction depth with
  | zero => rfl
  | succ depth ih =>
    rw [materializeWithin_object rfl]
    have hfields : ((∅ : Std.TreeMap String (RuntimeValue Int)).insert "self"
        (.object ⟨0, 0⟩)).toList = [("self", .object ⟨0, 0⟩)] := rfl
    rw [hfields, List.mapM_cons, materializeField, ih]
    rfl

theorem tieSource_diverges :
    (compileSource .listed tieSource).module = some tieModule.module ∧
      ∃ (result : RuntimeValue Int) (t : Machine Int),
        callFunction tieModule.module .new 2 "__entry" [] .new = (.ok result, t) ∧
        ∃ value ∈ t.console,
          ¬ Terminates (t.heap.collect (roots t.console ++ roots [result])).2 value := by
  refine ⟨by decide +kernel, .undefined, ⟨knot, [.object ⟨0, 0⟩], []⟩, rfl, ?_⟩
  refine ⟨.object ⟨0, 0⟩, List.mem_singleton_self _, ?_⟩
  rintro ⟨depth, h⟩
  exact h (knot_overflow depth)

end Cycle

end Tsvm.ObjectGraphs
