import Tsvm.ActivationPoints
import Tsvm.ObjectGraphs

set_option autoImplicit false

/-!
# The recursion of display

`display` goes from an array to its elements and stops at objects. An array is
never written to, so its elements have handles with smaller indices than its
slot, whatever the stores do to the objects among them.
-/
namespace Tsvm.ArrayDisplay
open Ast Bytecode Heap Interop RuntimeValues Interpreter InterpreterSteps Pipeline RunInvariants
open RuntimeFailures Relation HandleIntegrity Materialization ObjectGraphs ActivationPoints

variable {ν : Type}

def Shows (heap : Store ν) (inner outer : RuntimeValue ν) : Prop :=
  ∃ handle values, outer = .array handle ∧ heap.get handle = some (.array values) ∧ inner ∈ values

/-- The recursion of `display` on the value is finite: its calls form a tree without
    infinite branches, and more room than `heapDepth` does not change its result. -/
structure Displays [F64 ν] (heap : Store ν) (value : RuntimeValue ν) : Prop where
  finite : Acc (Shows heap) value
  noOverflow : display heap value ≠ .error .stackOverflow
  stable : ∀ depth, heapDepth heap ≤ depth → displayWithin heap depth value = display heap value

def Below (bound : ℕ) (value : RuntimeValue ν) : Prop :=
  ∀ handle ∈ value.handles, handle.index.toNat < bound

/-- The elements of an array were there before it. -/
structure Ordered (heap : Store ν) : Prop where
  freeList : heap.freeList = []
  inside : ∀ index found, heap.valueAt index = some found →
    ∀ value ∈ contents found, InRange heap value
  arrays : ∀ index values, heap.valueAt index = some (.array values) →
    ∀ value ∈ values, Below index value

theorem Ordered.shows {heap : Store ν} (h : Ordered heap) {inner outer : RuntimeValue ν} {bound : ℕ}
    (houter : Below (bound + 1) outer) (hshows : Shows heap inner outer) : Below bound inner := by
  obtain ⟨handle, values, rfl, hget, hinner⟩ := hshows
  have hhandle := houter handle (List.mem_singleton_self handle)
  intro other hother
  have hlt := h.arrays _ values (GcHeap.get_valueAt hget) inner hinner other hother
  omega

theorem Ordered.finite {heap : Store ν} (h : Ordered heap) (bound : ℕ) {value : RuntimeValue ν}
    (hvalue : Below bound value) : Acc (Shows heap) value := by
  induction bound generalizing value with
  | zero =>
    refine ⟨_, fun inner hshows => ?_⟩
    obtain ⟨handle, _, rfl, _, _⟩ := hshows
    have hlt := hvalue handle (List.mem_singleton_self handle)
    omega
  | succ bound ih => exact ⟨_, fun inner hshows => ih (h.shows hvalue hshows)⟩

section Depth

variable [F64 ν] {heap : Store ν}

theorem displayWithin_array {depth : ℕ} {handle : HeapHandle} {values : List (RuntimeValue ν)}
    (hget : heap.get handle = some (.array values)) :
    displayWithin heap (depth + 1) (.array handle) =
      values.mapM (displayWithin heap depth) >>= fun parts => pure (",".intercalate parts) := by
  rw [displayWithin, hget]

theorem displayWithin_stale {depth : ℕ} {handle : HeapHandle}
    (hget : ∀ values, heap.get handle ≠ some (.array values)) :
    displayWithin heap (depth + 1) (.array handle) = .error (.runtime .staleArrayHandle) := by
  rw [displayWithin]
  cases hfound : heap.get handle with
  | none => rfl
  | some found =>
    cases found with
    | object fields => rfl
    | array values => exact absurd hfound (hget values)

theorem mapM_overflow {α β : Type} {f : α → Except Stop β} {xs : List α}
    (h : ∀ x ∈ xs, f x ≠ .error .stackOverflow) : xs.mapM f ≠ .error .stackOverflow := by
  intro hoverflow
  obtain ⟨x, hmem, herror⟩ := Except.mapM_eq_error hoverflow
  exact h x hmem herror

theorem Ordered.displayWithin (h : Ordered heap) (depth : ℕ) {value : RuntimeValue ν}
    (hvalue : Below depth value) :
    RuntimeValues.displayWithin heap depth value ≠ .error .stackOverflow ∧
      ∀ more, RuntimeValues.displayWithin heap (depth + more) value =
        RuntimeValues.displayWithin heap depth value := by
  induction depth generalizing value with
  | zero =>
    cases value with
    | array handle =>
      have hlt := hvalue handle (List.mem_singleton_self handle)
      omega
    | _ => exact ⟨fun h => (by cases h), fun more => by cases more <;> rfl⟩
  | succ depth ih =>
    cases value with
    | array handle =>
      by_cases hget : ∃ values, heap.get handle = some (.array values)
      · obtain ⟨values, hget⟩ := hget
        have hinner (inner : RuntimeValue ν) (hmem : inner ∈ values) :=
          ih (h.shows hvalue ⟨handle, values, rfl, hget, hmem⟩)
        have hparts := mapM_overflow fun inner hmem => (hinner inner hmem).1
        constructor
        · rw [displayWithin_array hget]
          cases hresult : values.mapM (RuntimeValues.displayWithin heap depth) with
          | error e =>
            rw [hresult] at hparts
            exact fun herror => hparts (by cases herror; rfl)
          | ok parts => exact fun herror => by cases herror
        · intro more
          rw [Nat.add_right_comm, displayWithin_array hget, displayWithin_array hget,
            mapM_agree hparts fun inner hmem _ => (hinner inner hmem).2 more]
      · have hstale : ∀ values, heap.get handle ≠ some (.array values) :=
          fun values hsome => hget ⟨values, hsome⟩
        constructor
        · rw [displayWithin_stale hstale]
          exact fun herror => by cases herror
        · intro more
          rw [Nat.add_right_comm, displayWithin_stale hstale, displayWithin_stale hstale]
    | _ => exact ⟨fun h => (by cases h), fun more => by rw [Nat.add_right_comm]; rfl⟩

theorem Ordered.displays (h : Ordered heap) {value : RuntimeValue ν} (hvalue : InRange heap value) :
    Displays heap value := by
  have hdepth : Below (heapDepth heap) value := fun handle hhandle =>
    Nat.lt_succ_of_lt (hvalue handle hhandle)
  obtain ⟨hoverflow, hmore⟩ := h.displayWithin (heapDepth heap) hdepth
  refine ⟨h.finite _ hdepth, hoverflow, fun depth hle => ?_⟩
  have hdone := hmore (depth - heapDepth heap)
  rw [Nat.add_sub_of_le hle] at hdone
  exact hdone

end Depth

theorem Ordered.allocate {heap : Store ν} {stored : HeapValue ν} (h : Ordered heap)
    (hstored : ∀ value ∈ contents stored, InRange heap value) :
    Ordered (heap.allocate stored).2 := by
  have hcapacity : (heap.allocate stored).2.slots.length = heap.slots.length + 1 :=
    allocate_capacity h.freeList stored
  have hnext := nextIndex_of_freeList h.freeList
  have hfound (index : ℕ) : (heap.allocate stored).2.valueAt index =
      if heap.slots.length = index then some stored else heap.valueAt index := by
    rw [GcHeap.allocate_valueAt _ _ _ (Nat.le_of_eq hnext), hnext]
  refine ⟨?_, fun index found hvalue value hmem handle hhandle => ?_,
    fun index values hvalue value hmem handle hhandle => ?_⟩
  · rw [GcHeap.allocate, h.freeList]
    rfl
  · rw [hfound] at hvalue
    rw [hcapacity]
    by_cases hnew : heap.slots.length = index
    · rw [if_pos hnew] at hvalue
      cases hvalue
      exact Nat.lt_succ_of_lt (hstored value hmem handle hhandle)
    · rw [if_neg hnew] at hvalue
      exact Nat.lt_succ_of_lt (h.inside index found hvalue value hmem handle hhandle)
  · rw [hfound] at hvalue
    by_cases hnew : heap.slots.length = index
    · rw [if_pos hnew] at hvalue
      cases hvalue
      rw [← hnew]
      exact hstored value hmem handle hhandle
    · rw [if_neg hnew] at hvalue
      exact h.arrays index values hvalue value hmem handle hhandle

theorem Ordered.store {heap : Store ν} {handle : HeapHandle}
    {fields : Std.TreeMap String (RuntimeValue ν)} {value : RuntimeValue ν} {property : String}
    (h : Ordered heap) (hget : heap.get handle = some (.object fields)) (hvalue : InRange heap value) :
    Ordered (heap.set handle (.object (fields.insert property value))) := by
  have hlength : (heap.set handle (.object (fields.insert property value))).slots.length =
      heap.slots.length := List.length_modify ..
  refine ⟨h.freeList, fun index found hfound inner hinner other hother => ?_,
    fun index values hfound inner hinner => ?_⟩
  · rw [hlength]
    by_cases hi : index = handle.index.toNat
    · rw [hi, set_valueAt_self hget] at hfound
      cases hfound
      rcases mem_contents_insert hinner with rfl | hinner
      · exact hvalue other hother
      · exact h.inside _ _ (GcHeap.get_valueAt hget) inner hinner other hother
    · rw [set_valueAt_ne heap _ hi] at hfound
      exact h.inside index found hfound inner hinner other hother
  · by_cases hi : index = handle.index.toNat
    · rw [hi, set_valueAt_self hget] at hfound
      cases hfound
    · rw [set_valueAt_ne heap _ hi] at hfound
      exact h.arrays index values hfound inner hinner

/-- The order of the arrays as an invariant of runs. All stores are allowed. -/
def ordered (ν : Type) [F64 ν] : HeapInvariant ν where
  Holds := Ordered
  Valid := InRange
  Grows heap heap' := heap.slots.length ≤ heap'.slots.length
  Allowed _ _ _ := True
  Excluded _ _ := False
  new := ⟨rfl, fun _ _ h => (by cases h), fun _ _ h => (by cases h)⟩
  grows_refl := (layered ν).grows_refl
  grows_trans := (layered ν).grows_trans
  valid_mono := (layered ν).valid_mono
  valid_plain := (layered ν).valid_plain
  valid_contents h hget hvalue := h.inside _ _ (GcHeap.get_valueAt hget) _ hvalue
  allocate := by
    intro heap stored h hstored
    have hcapacity := allocate_capacity h.freeList stored
    refine ⟨h.allocate hstored, ?_, reference_inRange h.freeList stored⟩
    exact Nat.le_of_lt (Nat.lt_of_succ_le (Nat.le_of_eq hcapacity.symm))
  store := by
    intro heap handle fields value property h hget hvalue _
    exact ⟨h.store hget hvalue, Nat.le_of_eq (List.length_modify ..).symm⟩
  excluded_mono _ hexcluded := hexcluded
  excluded_failure h := h.elim
  materialize _ _ _ := id
  display _ _ _ := id
  object _ _ _ := id

section Runs

variable [F64 ν]

structure Adds (p : Point ν) (left right : RuntimeValue ν) : Prop where
  instruction : ∃ instruction, p.instruction = some instruction ∧ instruction.opcode = .binary ∧
    operand instruction 0 = .ok 0 ∧ (operand instruction 1 >>= p.frame.value) = .ok left ∧
    (operand instruction 2 >>= p.frame.value) = .ok right

theorem passes_ordered {m : BytecodeModule} {host : HostEnvironment ν} {name : String}
    {args : List (RuntimeValue ν)} {s : Machine ν}
    {kept : Machine ν → RuntimeValue ν → List (RuntimeValue ν)} (h : Begins name args s kept)
    {p : Point ν} (hp : Passes m host name args s p) : PointValid (ordered ν) p := by
  obtain ⟨hs, hargs⟩ := h.good (ordered ν)
  exact PointValid.passes hp hs hargs fun _ _ _ _ _ _ _ _ => trivial

/-- In every run of a verified module what `+` is applied to is displayed by a finite
    recursion. -/
theorem prepared_displays (prepared : PreparedModule) (host : HostEnvironment ν) {name : String}
    {args : List (RuntimeValue ν)} {s : Machine ν}
    {kept : Machine ν → RuntimeValue ν → List (RuntimeValue ν)} (h : Begins name args s kept)
    {p : Point ν} (hp : Passes prepared.module host name args s p) {left right : RuntimeValue ν}
    (hadds : Adds p left right) :
    Displays p.machine.heap left ∧ Displays p.machine.heap right := by
  have hvalid := passes_ordered h hp
  obtain ⟨instruction, _, _, _, hleft, hright⟩ := hadds.instruction
  have hvalue {index : ℕ} {value : RuntimeValue ν}
      (hok : (operand instruction index >>= p.frame.value) = .ok value) :
      InRange p.machine.heap value :=
    ((yields_operand instruction index).bind fun i _ => hvalid.frame.yields_value i).1 _ hok
  exact ⟨hvalid.machine.heap.displays (hvalue hleft), hvalid.machine.heap.displays (hvalue hright)⟩

end Runs

def showFunction : BytecodeFunction :=
  ⟨"show", [.unknown], .string,
    [⟨0, [⟨.loadLocal, [0], .unknown, 0⟩, ⟨.buildArray, [1, 0], .array, 0⟩,
      ⟨.storeLocal, [1, 1], .array, 0⟩, ⟨.loadLocal, [0], .unknown, 0⟩,
      ⟨.loadLocal, [1], .array, 0⟩, ⟨.storeMember, [2, 0, 3], .array, 0⟩,
      ⟨.loadConst, [1], .string, 0⟩, ⟨.loadLocal, [1], .array, 0⟩,
      ⟨.binary, [0, 4, 5], .number, 0⟩, ⟨.return, [6], .undefined, 0⟩]⟩], []⟩

def showModule : PreparedModule where
  module := ⟨currentHeader, [.symbol "list", .string ""], [showFunction], [⟨0, 0, 1, 1, 1, 1⟩]⟩
  accepted := rfl

def looped : Store Int :=
  ⟨[⟨0, some (.object ((∅ : Std.TreeMap String (RuntimeValue Int)).insert "list" (.array ⟨1, 0⟩)))⟩,
    ⟨0, some (.array [.object ⟨0, 0⟩])⟩], [], 2⟩

def showPoint : Point Int :=
  ⟨showFunction, showFunction.blocks.headD ⟨0, []⟩, 8,
    ⟨[.object ⟨0, 0⟩, .array ⟨1, 0⟩], [.object ⟨0, 0⟩, .array ⟨1, 0⟩, .object ⟨0, 0⟩, .array ⟨1, 0⟩,
      .string "", .array ⟨1, 0⟩]⟩, ⟨looped, [], []⟩⟩

theorem looped_displays :
    Displays looped (.string "") ∧ Displays looped (.array ⟨1, 0⟩) := by
  have hwithin : Within showModule.module .new
      (entry showFunction (showFunction.blocks.headD ⟨0, []⟩) (runtimeArguments [.object []]).1
        (runtimeArguments [.object []]).2) showPoint :=
    within_of_run 8 0 rfl rfl rfl rfl
  exact prepared_displays showModule .new (.call "show" [.object []])
    ⟨_, ⟨_, _, _, rfl, rfl, rfl⟩, hwithin.reaches⟩ ⟨_, rfl, rfl, rfl, rfl, rfl⟩

end Tsvm.ArrayDisplay
