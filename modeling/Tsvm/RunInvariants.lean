import Tsvm.Pipeline
import Tsvm.RuntimeFailures

set_option autoImplicit false

/-!
# Invariants of the heap along a run

A `HeapInvariant` says what the steps that touch the heap have to keep: an
allocation, a store into an object and a walk over values. The rest of the
interpreter moves values around, so the invariant holds at every point that a
call passes and where the call ends, as long as the stores that are executed are
`Allowed`.
-/
namespace Tsvm.RunInvariants
open Bytecode BytecodeVerifier Heap Interop RuntimeValues Interpreter InterpreterSteps
open Pipeline RuntimeFailures Relation

variable {ν : Type}

def contents : HeapValue ν → List (RuntimeValue ν)
  | .object fields => fields.toList.map Prod.snd
  | .array values => values

theorem trace_eq (found : HeapValue ν) :
    Trace.trace found = (contents found).flatMap RuntimeValue.handles := by
  cases found with
  | object fields => exact (List.flatMap_map ..).symm
  | array values => rfl

/-- The value that refers to a heap value by its handle. -/
def reference (handle : HeapHandle) : HeapValue ν → RuntimeValue ν
  | .object _ => .object handle
  | .array _ => .array handle

/-- `Excluded` are the failures that the invariant rules out. -/
structure HeapInvariant (ν : Type) [F64 ν] where
  Holds : Store ν → Prop
  Valid : Store ν → RuntimeValue ν → Prop
  Grows : Store ν → Store ν → Prop
  Allowed : Store ν → HeapHandle → RuntimeValue ν → Prop
  Excluded : Store ν → Stop → Prop
  new : Holds .new
  grows_refl (heap : Store ν) : Grows heap heap
  grows_trans {heap heap' heap'' : Store ν} :
    Grows heap heap' → Grows heap' heap'' → Grows heap heap''
  valid_mono {heap heap' : Store ν} {value : RuntimeValue ν} :
    Grows heap heap' → Valid heap value → Valid heap' value
  valid_plain (heap : Store ν) {value : RuntimeValue ν} : value.handles = [] → Valid heap value
  valid_contents {heap : Store ν} {handle : HeapHandle} {found : HeapValue ν}
    {value : RuntimeValue ν} :
    Holds heap → heap.get handle = some found → value ∈ contents found → Valid heap value
  allocate {heap : Store ν} {stored : HeapValue ν} :
    Holds heap → (∀ value ∈ contents stored, Valid heap value) →
      Holds (heap.allocate stored).2 ∧ Grows heap (heap.allocate stored).2 ∧
        Valid (heap.allocate stored).2 (reference (heap.allocate stored).1 stored)
  store {heap : Store ν} {handle : HeapHandle} {fields : Std.TreeMap String (RuntimeValue ν)}
    {value : RuntimeValue ν} (property : String) :
    Holds heap → heap.get handle = some (.object fields) → Valid heap value →
      Allowed heap handle value →
      Holds (heap.set handle (.object (fields.insert property value))) ∧
        Grows heap (heap.set handle (.object (fields.insert property value)))
  excluded_mono {heap heap' : Store ν} {e : Stop} :
    Grows heap heap' → Excluded heap' e → Excluded heap e
  excluded_failure {heap : Store ν} {e : Stop} : Excluded heap e → HeapFailure e
  materialize {heap : Store ν} {value : RuntimeValue ν} {e : Stop} :
    Holds heap → Valid heap value → RuntimeValues.materialize heap value = .error e →
      ¬ Excluded heap e
  display {heap : Store ν} {value : RuntimeValue ν} {e : Stop} :
    Holds heap → Valid heap value → RuntimeValues.display heap value = .error e → ¬ Excluded heap e
  object {heap : Store ν} {handle : HeapHandle} :
    Holds heap → Valid heap (.object handle) →
      (∀ fields, heap.get handle ≠ some (.object fields)) →
      ¬ Excluded heap (.runtime .staleObjectHandle)

/-- What `x` returns satisfies `Q`, and its failures are none of the `bad` ones. -/
def Yields {α : Type} (bad : Stop → Prop) (x : Except Stop α) (Q : α → Prop) : Prop :=
  (∀ a, x = .ok a → Q a) ∧ ∀ e, x = .error e → ¬ bad e

section Yields

variable {α β : Type} {bad : Stop → Prop} {P Q : α → Prop} {R : β → Prop}

theorem Yields.ok {a : α} (h : Q a) : Yields bad (.ok a) Q := by
  refine ⟨fun b hb => ?_, nofun⟩
  cases hb
  exact h

theorem Yields.error {e : Stop} (h : ¬ bad e) : Yields bad (.error e) Q := by
  refine ⟨nofun, fun e' he => ?_⟩
  cases he
  exact h

theorem Yields.mono {x : Except Stop α} (hx : Yields bad x P) (h : ∀ a, P a → Q a) :
    Yields bad x Q :=
  ⟨fun a ha => h a (hx.1 a ha), hx.2⟩

theorem Yields.weaken {bad' : Stop → Prop} {x : Except Stop α} (hx : Yields bad' x Q)
    (h : ∀ e, bad e → bad' e) : Yields bad x Q :=
  ⟨hx.1, fun e he hbad => hx.2 e he (h e hbad)⟩

theorem Yields.bind {x : Except Stop α} {f : α → Except Stop β} (hx : Yields bad x Q)
    (hf : ∀ a, Q a → Yields bad (f a) R) : Yields bad (x >>= f) R := by
  cases x with
  | error e => exact .error (hx.2 e rfl)
  | ok a => exact hf a (hx.1 a rfl)

theorem Yields.mapM {f : α → Except Stop β} {xs : List α} (hf : ∀ x ∈ xs, Yields bad (f x) R) :
    Yields bad (xs.mapM f) fun ys => ∀ y ∈ ys, R y := by
  induction xs with
  | nil => exact .ok nofun
  | cons x xs ih =>
    obtain ⟨hfirst, hrest⟩ := List.forall_mem_cons.mp hf
    rw [List.mapM_cons]
    refine hfirst.bind fun y hy => (ih hrest).bind fun ys hys => .ok ?_
    exact List.forall_mem_cons.mpr ⟨hy, hys⟩

theorem yields_operand (instruction : Instruction) (index : ℕ) :
    Yields HeapFailure (operand instruction index) fun _ => True := by
  unfold operand
  split
  · exact .ok trivial
  · exact .error nofun

theorem yields_constant (m : BytecodeModule) (index : UInt32) :
    Yields HeapFailure (constant m index) fun _ => True := by
  unfold constant
  split
  · exact .ok trivial
  · exact .error nofun

theorem yields_symbolName (constant : Constant) :
    Yields HeapFailure (symbolName constant) fun _ => True := by
  unfold symbolName
  split
  · exact .ok trivial
  · exact .ok trivial
  · exact .error nofun

theorem yields_symbol (m : BytecodeModule) (index : UInt32) :
    Yields HeapFailure (symbol m index) fun _ => True :=
  (yields_constant m index).bind fun constant _ => yields_symbolName constant

theorem yields_number (value : RuntimeValue ν) :
    Yields HeapFailure (number value) fun _ => True := by
  unfold number
  split
  · exact .ok trivial
  · exact .error nofun

theorem yields_arithmetic (op : ν → ν → ν) (left right : RuntimeValue ν) :
    Yields HeapFailure (arithmetic op left right) fun value => value.handles = [] :=
  (yields_number left).bind fun _ _ => (yields_number right).bind fun _ _ => .ok rfl

theorem yields_comparison (op : ν → ν → Bool) (left right : RuntimeValue ν) :
    Yields HeapFailure (comparison op left right) fun value => value.handles = [] :=
  (yields_number left).bind fun _ _ => (yields_number right).bind fun _ _ => .ok rfl

theorem yields_valueFromConstant [F64 ν] (constant : Constant) :
    Yields HeapFailure (valueFromConstant constant : Except Stop (RuntimeValue ν))
      fun value => value.handles = [] := by
  unfold valueFromConstant
  split
  · split
    · exact .ok rfl
    · exact .error nofun
  all_goals exact .ok rfl

theorem yields_findFunction (m : BytecodeModule) (name : String) :
    Yields HeapFailure (findFunction m name) fun _ => True := by
  unfold findFunction
  split
  · exact .ok trivial
  · exact .error nofun

theorem yields_findBlock (function : BytecodeFunction) (id : UInt32) :
    Yields HeapFailure (findBlock function id) fun _ => True := by
  refine ⟨fun _ _ => trivial, fun e h => ?_⟩
  rw [(findBlock_error h).1]
  nofun

end Yields

theorem mem_contents_object {fields : Std.TreeMap String (RuntimeValue ν)}
    {value : RuntimeValue ν} :
    value ∈ contents (.object fields) ↔ ∃ name : String, fields[name]? = some value := by
  simp only [contents, List.mem_map, Prod.exists, exists_eq_right,
    Std.TreeMap.mem_toList_iff_getElem?_eq_some]

theorem mem_contents_insert {fields : Std.TreeMap String (RuntimeValue ν)} {name : String}
    {value stored : RuntimeValue ν} (h : value ∈ contents (.object (fields.insert name stored))) :
    value = stored ∨ value ∈ contents (.object fields) := by
  obtain ⟨key, hkey⟩ := mem_contents_object.mp h
  rw [Std.TreeMap.getElem?_insert] at hkey
  split at hkey
  · exact .inl (Option.some.inj hkey).symm
  · exact .inr (mem_contents_object.mpr ⟨key, hkey⟩)

section Instructions

variable [F64 ν] (inv : HeapInvariant ν)

structure FrameValid (heap : Store ν) (frame : Frame ν) : Prop where
  locals : ∀ value ∈ frame.locals, inv.Valid heap value
  values : ∀ value ∈ frame.values, inv.Valid heap value

structure Good (s : Machine ν) : Prop where
  heap : inv.Holds s.heap
  console : ∀ value ∈ s.console, inv.Valid s.heap value

/-- From `s`, `d` ends in a good state with an `a` for which `Q` holds, or fails there
    with an error that is not excluded. -/
def Keeps {α : Type} (d : Run ν α) (s : Machine ν) (Q : Store ν → α → Prop) : Prop :=
  FailState.wp d s (fun a t => Good inv t ∧ inv.Grows s.heap t.heap ∧ Q t.heap a)
    fun e t => Good inv t ∧ inv.Grows s.heap t.heap ∧ ¬ inv.Excluded t.heap e

variable {inv} {α β : Type} {s : Machine ν} {frame : Frame ν}

theorem Keeps.pure {a : α} {Q : Store ν → α → Prop} (hs : Good inv s) (h : Q s.heap a) :
    Keeps inv (Pure.pure a) s Q :=
  ⟨hs, inv.grows_refl s.heap, h⟩

theorem Keeps.fail {e : Stop} {Q : Store ν → α → Prop} (hs : Good inv s)
    (h : ¬ inv.Excluded s.heap e) : Keeps inv (FailState.fail e) s Q :=
  ⟨hs, inv.grows_refl s.heap, h⟩

theorem Keeps.lift {x : Except Stop α} {Q : Store ν → α → Prop} (hs : Good inv s)
    (h : Yields (inv.Excluded s.heap) x (Q s.heap)) : Keeps inv (FailState.lift x) s Q := by
  cases x with
  | ok a => exact ⟨hs, inv.grows_refl s.heap, h.1 a rfl⟩
  | error e => exact ⟨hs, inv.grows_refl s.heap, h.2 e rfl⟩

theorem Keeps.bind {d : Run ν α} {f : α → Run ν β} {P : Store ν → α → Prop}
    {Q : Store ν → β → Prop} (hd : Keeps inv d s P)
    (hf : ∀ a t, d s = (.ok a, t) → Good inv t → inv.Grows s.heap t.heap → P t.heap a →
      Keeps inv (f a) t Q) :
    Keeps inv (d >>= f) s Q := by
  unfold Keeps FailState.wp at hd
  cases hr : d s with
  | mk result t =>
    rw [hr] at hd
    cases result with
    | error e =>
      unfold Keeps FailState.wp
      rw [FailState.bind_error hr]
      exact hd
    | ok a =>
      have hrest := hf a t hr hd.1 hd.2.1 hd.2.2
      unfold Keeps FailState.wp at hrest ⊢
      rw [FailState.bind_ok hr]
      revert hrest
      cases hu : f a t with
      | mk result u =>
        cases result with
        | error e => exact fun h => ⟨h.1, inv.grows_trans hd.2.1 h.2.1, h.2.2⟩
        | ok b => exact fun h => ⟨h.1, inv.grows_trans hd.2.1 h.2.1, h.2.2⟩

theorem Keeps.liftBind {x : Except Stop α} {f : α → Run ν β} {P : α → Prop}
    {Q : Store ν → β → Prop} (hs : Good inv s) (hx : Yields (inv.Excluded s.heap) x P)
    (hf : ∀ a, x = .ok a → P a → Keeps inv (f a) s Q) :
    Keeps inv (FailState.lift x >>= f) s Q := by
  refine (Keeps.lift (Q := fun _ => P) hs hx).bind ?_
  intro a t ht _ _ hP
  cases ht
  exact hf a rfl hP

theorem Keeps.plainBind {x : Except Stop α} {f : α → Run ν β} {P : α → Prop}
    {Q : Store ν → β → Prop} (hs : Good inv s) (hx : Yields HeapFailure x P)
    (hf : ∀ a, x = .ok a → P a → Keeps inv (f a) s Q) :
    Keeps inv (FailState.lift x >>= f) s Q :=
  .liftBind hs (hx.weaken fun _ => inv.excluded_failure) hf

theorem FrameValid.mono {heap heap' : Store ν} (h : FrameValid inv heap frame)
    (hgrows : inv.Grows heap heap') : FrameValid inv heap' frame :=
  ⟨fun value hv => inv.valid_mono hgrows (h.locals value hv),
    fun value hv => inv.valid_mono hgrows (h.values value hv)⟩

theorem FrameValid.yields_value {heap : Store ν} (h : FrameValid inv heap frame) (index : UInt32) :
    Yields HeapFailure (frame.value index) (inv.Valid heap) := by
  unfold Frame.value
  cases hv : frame.values[index.toNat]? with
  | none => exact .error nofun
  | some value => exact .ok (h.values value (List.mem_of_getElem? hv))

theorem FrameValid.yields_loadLocal {heap : Store ν} (h : FrameValid inv heap frame)
    (index : UInt32) : Yields HeapFailure (frame.loadLocal index) (inv.Valid heap) := by
  unfold Frame.loadLocal
  cases hv : frame.locals[index.toNat]? with
  | none => exact .error nofun
  | some value => exact .ok (h.locals value (List.mem_of_getElem? hv))

theorem FrameValid.pushValue {heap : Store ν} {value : RuntimeValue ν}
    (h : FrameValid inv heap frame) (hvalue : inv.Valid heap value) :
    FrameValid inv heap (frame.pushValue value) := by
  refine ⟨h.locals, fun other hother => ?_⟩
  rcases List.mem_append.mp hother with hother | hother
  · exact h.values other hother
  · rw [List.mem_singleton.mp hother]
    exact hvalue

theorem resize_valid {heap : Store ν} {values : List (RuntimeValue ν)}
    (h : ∀ value ∈ values, inv.Valid heap value) (n : ℕ) :
    ∀ value ∈ resize values n, inv.Valid heap value := by
  intro value hvalue
  rcases List.mem_append.mp hvalue with hvalue | hvalue
  · exact h value (List.mem_of_mem_take hvalue)
  · rw [(List.mem_replicate.mp hvalue).2]
    exact inv.valid_plain heap rfl

theorem FrameValid.storeLocal {heap : Store ν} {value : RuntimeValue ν}
    (h : FrameValid inv heap frame) (hvalue : inv.Valid heap value) (index : UInt32) :
    FrameValid inv heap (frame.storeLocal index value) := by
  refine ⟨fun other hother => ?_, h.values⟩
  rcases List.mem_or_eq_of_mem_set hother with hother | rfl
  · split at hother
    · exact resize_valid h.locals _ other hother
    · exact h.locals other hother
  · exact hvalue

theorem FrameValid.new {heap : Store ν} {args : List (RuntimeValue ν)}
    (h : ∀ value ∈ args, inv.Valid heap value) (function : BytecodeFunction) :
    FrameValid inv heap (.new function args) :=
  ⟨resize_valid h _, nofun⟩

theorem FrameValid.yields_frameValues {heap : Store ν} (h : FrameValid inv heap frame)
    (operands : List UInt32) :
    Yields HeapFailure (frameValues frame operands)
      fun values => ∀ value ∈ values, inv.Valid heap value :=
  .mapM fun index _ => h.yields_value index

theorem FrameValid.yields_objectFields {heap : Store ν} (h : FrameValid inv heap frame)
    (m : BytecodeModule) (instruction : Instruction) (indices : List ℕ)
    {object : Std.TreeMap String (RuntimeValue ν)}
    (hobject : ∀ value ∈ contents (.object object), inv.Valid heap value) :
    Yields HeapFailure (objectFields m instruction frame indices object) fun object =>
      ∀ value ∈ contents (.object object), inv.Valid heap value := by
  induction indices generalizing object with
  | nil => exact .ok hobject
  | cons index indices ih =>
    have hfield : Yields HeapFailure (objectField m instruction frame index)
        fun field => inv.Valid heap field.2 := by
      refine (yields_operand _ _).bind fun nameId _ => (yields_constant m nameId).bind fun name _ => ?_
      refine (yields_operand _ _).bind fun valueId _ => (yields_symbolName name).bind fun name _ => ?_
      exact (h.yields_value valueId).bind fun value hvalue => .ok hvalue
    refine hfield.bind fun field hvalue => ih fun value hmem => ?_
    rcases mem_contents_insert hmem with rfl | hmem
    · exact hvalue
    · exact hobject value hmem

theorem FrameValid.yields_callOperands {heap : Store ν} (h : FrameValid inv heap frame)
    (m : BytecodeModule) (instruction : Instruction) :
    Yields HeapFailure (callOperands m instruction frame) fun callee =>
      ∀ value ∈ callee.2, inv.Valid heap value := by
  refine ((yields_operand _ _).bind fun callee _ => yields_symbol m callee).bind fun callee _ => ?_
  refine (yields_operand _ _).bind fun argc _ => ?_
  exact (h.yields_frameValues _).bind fun args hargs => .ok hargs

theorem Keeps.read {f : Machine ν → Run ν β} {Q : Store ν → β → Prop}
    (h : Keeps inv (f s) s Q) : Keeps inv (FailState.read >>= f) s Q := by
  unfold Keeps FailState.wp at h ⊢
  rw [FailState.bind_ok (FailState.read_run s)]
  exact h

theorem Keeps.allocate {stored : HeapValue ν} (hs : Good inv s)
    (h : ∀ value ∈ contents stored, inv.Valid s.heap value) :
    Keeps inv (Interpreter.allocate stored) s
      fun heap handle => inv.Valid heap (reference handle stored) := by
  obtain ⟨hholds, hgrows, hvalid⟩ := inv.allocate hs.heap h
  exact ⟨⟨hholds, fun value hv => inv.valid_mono hgrows (hs.console value hv)⟩, hgrows, hvalid⟩

theorem Keeps.setHeap {heap : Store ν} {Q : Store ν → Unit → Prop} (hs : Good inv s)
    (hholds : inv.Holds heap) (hgrows : inv.Grows s.heap heap) (hQ : Q heap ()) :
    Keeps inv (Interpreter.setHeap heap) s Q :=
  ⟨⟨hholds, fun value hv => inv.valid_mono hgrows (hs.console value hv)⟩, hgrows, hQ⟩

theorem yields_loadMember {heap : Store ν} {object : RuntimeValue ν} (property : String)
    (hheap : inv.Holds heap) (hobject : inv.Valid heap object) :
    Yields (inv.Excluded heap) (loadMember heap object property) (inv.Valid heap) := by
  unfold loadMember
  cases object with
  | object handle =>
    simp only
    split
    · rename_i fields hget
      refine .ok ?_
      cases hfield : fields[property]? with
      | none => exact inv.valid_plain heap rfl
      | some value =>
        exact inv.valid_contents hheap hget (mem_contents_object.mpr ⟨property, hfield⟩)
    · rename_i hget
      exact .error (inv.object hheap hobject hget)
  | _ => exact .error fun h => nomatch inv.excluded_failure h

theorem yields_storeMember {heap : Store ν} {object value : RuntimeValue ν} (property : String)
    (hheap : inv.Holds heap) (hobject : inv.Valid heap object) (hvalue : inv.Valid heap value)
    (hallowed : ∀ handle, object = .object handle → inv.Allowed heap handle value) :
    Yields (inv.Excluded heap) (storeMember heap object property value)
      fun heap' => inv.Holds heap' ∧ inv.Grows heap heap' := by
  unfold storeMember
  cases object with
  | object handle =>
    simp only [GcHeap.getMut]
    cases hget : heap.get handle with
    | none => exact .error (inv.object hheap hobject fun fields => by rw [hget]; nofun)
    | some found =>
      cases found with
      | object fields => exact .ok (inv.store property hheap hget hvalue (hallowed handle rfl))
      | array values => exact .error (inv.object hheap hobject fun fields => by rw [hget]; nofun)
  | _ => exact .error fun h => nomatch inv.excluded_failure h

theorem yields_display {heap : Store ν} {value : RuntimeValue ν} (hheap : inv.Holds heap)
    (hvalue : inv.Valid heap value) :
    Yields (inv.Excluded heap) (display heap value) fun _ => True :=
  ⟨fun _ _ => trivial, fun _ h => inv.display hheap hvalue h⟩

variable {heap : Store ν} {left right : RuntimeValue ν}

theorem yields_plain {x : Except Stop (RuntimeValue ν)}
    (h : Yields HeapFailure x fun value => value.handles = []) :
    Yields (inv.Excluded heap) x (inv.Valid heap) :=
  (h.weaken fun _ => inv.excluded_failure).mono fun _ => inv.valid_plain heap

theorem yields_add (hheap : inv.Holds heap) (hleft : inv.Valid heap left)
    (hright : inv.Valid heap right) :
    Yields (inv.Excluded heap) (add heap left right) (inv.Valid heap) := by
  unfold add
  split
  · exact (yields_display hheap hright).bind fun text _ => .ok (inv.valid_plain heap rfl)
  · exact (yields_display hheap hleft).bind fun text _ => .ok (inv.valid_plain heap rfl)
  · exact yields_plain (yields_arithmetic _ _ _)

/-- The operators return new primitive values or one of their operands. -/
theorem yields_binary (op : UInt32) (hheap : inv.Holds heap) (hleft : inv.Valid heap left)
    (hright : inv.Valid heap right) :
    Yields (inv.Excluded heap) (binary op heap left right) (inv.Valid heap) := by
  have hboolean (value : Bool) :
      Yields (inv.Excluded heap) (.ok (.boolean value)) (inv.Valid heap) :=
    .ok (inv.valid_plain heap rfl)
  by_cases hop : 15 < op.toNat
  · rw [binary_unknown hop]
    exact .error fun h => nomatch inv.excluded_failure h
  · have hle : op.toNat ≤ 15 := by omega
    unfold binary
    generalize op.toNat = code at hle
    interval_cases code
    · exact yields_add hheap hleft hright
    · exact yields_plain (yields_arithmetic _ _ _)
    · exact yields_plain (yields_arithmetic _ _ _)
    · exact yields_plain (yields_arithmetic _ _ _)
    · exact yields_plain (yields_arithmetic _ _ _)
    · exact hboolean _
    · exact hboolean _
    · exact hboolean _
    · exact hboolean _
    · exact yields_plain (yields_comparison _ _ _)
    · exact yields_plain (yields_comparison _ _ _)
    · exact yields_plain (yields_comparison _ _ _)
    · exact yields_plain (yields_comparison _ _ _)
    · exact hboolean _
    · exact hboolean _
    · refine .ok ?_
      split
      · exact hright
      · exact hleft

/-- The instruction stores `value` into the object behind `handle`. -/
structure Stores (m : BytecodeModule) (instruction : Instruction) (frame : Frame ν)
    (handle : HeapHandle) (property : String) (value : RuntimeValue ν) : Prop where
  opcode : instruction.opcode = .storeMember
  object : (operand instruction 0 >>= frame.value) = .ok (.object handle)
  property : (operand instruction 1 >>= symbol m) = .ok property
  value : (operand instruction 2 >>= frame.value) = .ok value

variable (inv) in
def FlowValid (heap : Store ν) : ControlFlow ν → Prop
  | .return value => inv.Valid heap value
  | .continue | .jump _ => True

theorem Keeps.push {value : RuntimeValue ν} (hs : Good inv s) (hframe : FrameValid inv s.heap frame)
    (hvalue : inv.Valid s.heap value) :
    Keeps inv (Pure.pure (ControlFlow.continue, frame.pushValue value)) s
      fun heap done => FlowValid inv heap done.1 ∧ FrameValid inv heap done.2 :=
  .pure hs ⟨trivial, hframe.pushValue hvalue⟩

/-- One instruction keeps the invariant if the call it makes does. -/
theorem executeInstruction_keeps {m : BytecodeModule} {call : Call ν} {instruction : Instruction}
    (hs : Good inv s) (hframe : FrameValid inv s.heap frame)
    (hallowed : ∀ handle property value, Stores m instruction frame handle property value →
      inv.Allowed s.heap handle value)
    (hcall : ∀ name args, instruction.opcode = .call →
      callOperands m instruction frame = .ok (name, args) →
      Keeps inv (call name args) s inv.Valid) :
    Keeps inv (executeInstruction m call instruction frame) s
      fun heap done => FlowValid inv heap done.1 ∧ FrameValid inv heap done.2 := by
  obtain ⟨opcode, operands, tag, src⟩ := instruction
  have hvalue (index : ℕ) := (yields_operand ⟨opcode, operands, tag, src⟩ index).bind
    fun id _ => hframe.yields_value id
  have hsymbol (index : ℕ) := (yields_operand ⟨opcode, operands, tag, src⟩ index).bind
    fun id _ => yields_symbol m id
  cases opcode with
  | loadConst =>
    have hconstant := (yields_operand ⟨.loadConst, operands, tag, src⟩ 0).bind
      fun id _ => yields_constant m id
    refine .plainBind hs hconstant fun constant _ _ => ?_
    refine .plainBind hs (yields_valueFromConstant constant) fun value _ hplain => ?_
    exact .push hs hframe (inv.valid_plain s.heap hplain)
  | buildObject =>
    refine .plainBind hs (yields_operand _ _) fun count _ _ => ?_
    refine .plainBind hs (hframe.yields_objectFields m _ _ nofun) fun object _ hobject => ?_
    refine (Keeps.allocate hs hobject).bind fun handle t _ ht hgrows hvalid => ?_
    exact .push ht (hframe.mono hgrows) hvalid
  | buildArray =>
    refine .plainBind hs (yields_operand _ _) fun count _ _ => ?_
    refine .plainBind hs (hframe.yields_frameValues _) fun values _ hvalues => ?_
    have hstored : ∀ value ∈ contents (.array values), inv.Valid s.heap value := hvalues
    refine (Keeps.allocate hs hstored).bind fun handle t _ ht hgrows hvalid => ?_
    exact .push ht (hframe.mono hgrows) hvalid
  | loadLocal =>
    have hlocal := (yields_operand ⟨.loadLocal, operands, tag, src⟩ 0).bind
      fun id _ => hframe.yields_loadLocal id
    exact .plainBind hs hlocal fun value _ hvalid => .push hs hframe hvalid
  | storeLocal =>
    refine .plainBind hs (hvalue 1) fun value _ hvalid => ?_
    refine .plainBind hs (yields_operand _ _) fun slot _ _ => ?_
    exact .pure hs ⟨trivial, hframe.storeLocal hvalid slot⟩
  | loadMember =>
    refine .plainBind hs (hvalue 0) fun object _ hobject => ?_
    refine .plainBind hs (hsymbol 1) fun property _ _ => .read ?_
    refine .liftBind hs (yields_loadMember property hs.heap hobject) fun value _ hvalid => ?_
    exact .push hs hframe hvalid
  | storeMember =>
    refine .plainBind hs (hvalue 0) fun object hread hobject => ?_
    refine .plainBind hs (hsymbol 1) fun property hreadProperty _ => ?_
    refine .plainBind hs (hvalue 2) fun value hreadValue hvalid => .read ?_
    have hstore (handle : HeapHandle) (h : object = .object handle) :
        inv.Allowed s.heap handle value :=
      hallowed handle property value ⟨rfl, h ▸ hread, hreadProperty, hreadValue⟩
    refine .liftBind hs (yields_storeMember property hs.heap hobject hvalid hstore) ?_
    intro heap _ hheap
    refine (Keeps.setHeap (Q := fun _ _ => True) hs hheap.1 hheap.2 trivial).bind ?_
    exact fun _ t _ ht hgrows _ => .pure ht ⟨trivial, hframe.mono hgrows⟩
  | binary =>
    refine .plainBind hs (hvalue 1) fun left _ hleft => ?_
    refine .plainBind hs (hvalue 2) fun right _ hright => ?_
    refine .plainBind hs (yields_operand _ _) fun op _ _ => .read ?_
    refine .liftBind hs (yields_binary op hs.heap hleft hright) fun value _ hvalid => ?_
    exact .push hs hframe hvalid
  | call =>
    refine .plainBind hs (hframe.yields_callOperands m _) fun callee hcallee _ => ?_
    refine (hcall callee.1 callee.2 rfl hcallee).bind fun value t _ ht hgrows hvalid => ?_
    exact .push ht (hframe.mono hgrows) hvalid
  | branch =>
    refine .plainBind hs (hvalue 0) fun condition _ _ => ?_
    exact .plainBind hs (yields_operand _ _) fun target _ _ => .pure hs ⟨trivial, hframe⟩
  | jump => exact .plainBind hs (yields_operand _ _) fun target _ _ => .pure hs ⟨trivial, hframe⟩
  | «return» =>
    cases operands with
    | nil => exact .pure hs ⟨inv.valid_plain s.heap rfl, hframe⟩
    | cons id rest =>
      exact .plainBind hs (hframe.yields_value id) fun value _ hvalid => .pure hs ⟨hvalid, hframe⟩

end Instructions

section Host

variable [F64 ν] (inv : HeapInvariant ν)

mutual

theorem runtimeFromInterop_keeps (value : InteropValue ν) {heap : Store ν} (h : inv.Holds heap) :
    inv.Holds (runtimeFromInterop value heap).2 ∧
      inv.Grows heap (runtimeFromInterop value heap).2 ∧
      inv.Valid (runtimeFromInterop value heap).2 (runtimeFromInterop value heap).1 := by
  cases value with
  | object fields =>
    obtain ⟨hholds, hgrows, hvalid⟩ := runtimeFromFields_keeps fields ∅ h nofun
    obtain ⟨hholds', hgrows', hvalid'⟩ := inv.allocate hholds hvalid
    exact ⟨hholds', inv.grows_trans hgrows hgrows', hvalid'⟩
  | array values =>
    obtain ⟨hholds, hgrows, hvalid⟩ := runtimeFromValues_keeps values h
    have hstored : ∀ value ∈ contents (.array (runtimeFromValues values heap).1),
        inv.Valid (runtimeFromValues values heap).2 value := hvalid
    obtain ⟨hholds', hgrows', hvalid'⟩ := inv.allocate hholds hstored
    exact ⟨hholds', inv.grows_trans hgrows hgrows', hvalid'⟩
  | _ => exact ⟨h, inv.grows_refl heap, inv.valid_plain heap rfl⟩

theorem runtimeFromFields_keeps (fields : List (String × InteropValue ν)) {heap : Store ν}
    (object : Std.TreeMap String (RuntimeValue ν)) (h : inv.Holds heap)
    (hobject : ∀ value ∈ contents (.object object), inv.Valid heap value) :
    inv.Holds (runtimeFromFields fields heap object).2 ∧
      inv.Grows heap (runtimeFromFields fields heap object).2 ∧
      ∀ value ∈ contents (.object (runtimeFromFields fields heap object).1),
        inv.Valid (runtimeFromFields fields heap object).2 value := by
  cases fields with
  | nil => exact ⟨h, inv.grows_refl heap, hobject⟩
  | cons field fields =>
    obtain ⟨name, value⟩ := field
    obtain ⟨hholds, hgrows, hvalid⟩ := runtimeFromInterop_keeps value h
    obtain ⟨hholds', hgrows', hvalid'⟩ := runtimeFromFields_keeps fields
      (object.insert name (runtimeFromInterop value heap).1) hholds fun other hother => by
        rcases mem_contents_insert hother with rfl | hother
        · exact hvalid
        · exact inv.valid_mono hgrows (hobject other hother)
    exact ⟨hholds', inv.grows_trans hgrows hgrows', hvalid'⟩

theorem runtimeFromValues_keeps (values : List (InteropValue ν)) {heap : Store ν}
    (h : inv.Holds heap) :
    inv.Holds (runtimeFromValues values heap).2 ∧
      inv.Grows heap (runtimeFromValues values heap).2 ∧
      ∀ value ∈ (runtimeFromValues values heap).1,
        inv.Valid (runtimeFromValues values heap).2 value := by
  cases values with
  | nil => exact ⟨h, inv.grows_refl heap, nofun⟩
  | cons value values =>
    obtain ⟨hholds, hgrows, hvalid⟩ := runtimeFromInterop_keeps value h
    obtain ⟨hholds', hgrows', hvalid'⟩ := runtimeFromValues_keeps values hholds
    refine ⟨hholds', inv.grows_trans hgrows hgrows', ?_⟩
    exact List.forall_mem_cons.mpr ⟨inv.valid_mono hgrows' hvalid, hvalid'⟩

end

variable {inv} {s : Machine ν} {m : BytecodeModule} {host : HostEnvironment ν}

theorem yields_materialize {heap : Store ν} {value : RuntimeValue ν} (hheap : inv.Holds heap)
    (hvalue : inv.Valid heap value) :
    Yields (inv.Excluded heap) (materialize heap value) fun _ => True :=
  ⟨fun _ _ => trivial, fun _ h => inv.materialize hheap hvalue h⟩

theorem Keeps.modify {f : Machine ν → Machine ν} {Q : Store ν → Unit → Prop} (hs : Good inv s)
    (hheap : (f s).heap = s.heap) (hconsole : ∀ value ∈ (f s).console, inv.Valid s.heap value)
    (hQ : Q s.heap ()) : Keeps inv (FailState.modify f) s Q := by
  change Good inv (f s) ∧ inv.Grows s.heap (f s).heap ∧ Q (f s).heap ()
  refine ⟨⟨?_, ?_⟩, ?_, ?_⟩ <;> rw [hheap]
  · exact hs.heap
  · exact hconsole
  · exact inv.grows_refl s.heap
  · exact hQ

theorem callHost_keeps {args : List (RuntimeValue ν)} (name : String) (hs : Good inv s)
    (hargs : ∀ value ∈ args, inv.Valid s.heap value) :
    Keeps inv (callHost host name args) s
      fun heap result => ∀ value, result = some value → inv.Valid heap value := by
  have hvalues : Yields (inv.Excluded s.heap) (args.mapM fun value => do
      let value ← materialize s.heap value
      pure (interopFromValue value)) fun values => ∀ value ∈ values, True :=
    .mapM fun value hvalue =>
      (yields_materialize hs.heap (hargs value hvalue)).bind fun _ _ => .ok trivial
  refine .read (.liftBind hs hvalues fun values _ _ => ?_)
  cases host.call s.hostCalls name values with
  | none => exact .pure hs nofun
  | some answer =>
    refine (Keeps.modify (Q := fun _ _ => True) hs rfl hs.console trivial).bind ?_
    intro _ t ht hgood _ _
    obtain ⟨_, rfl⟩ := Prod.mk.inj ht
    cases answer with
    | error error => exact .fail hgood fun h => nomatch inv.excluded_failure h
    | ok value =>
      obtain ⟨hholds, hgrows, hvalid⟩ := runtimeFromInterop_keeps inv value hs.heap
      refine (Keeps.setHeap (Q := fun heap _ => inv.Valid heap (runtimeFromInterop value s.heap).1)
        hgood hholds hgrows hvalid).bind fun _ u _ hu _ hresult => .pure hu ?_
      intro value h
      cases h
      exact hresult

variable (inv) in
/-- A call that is answered without a function returns a valid value. -/
def Answers (heap : Store ν) (result : RuntimeValue ν ⊕ BytecodeFunction) : Prop :=
  ∀ value, result = .inl value → inv.Valid heap value

theorem dispatch_keeps {args : List (RuntimeValue ν)} (name : String) (hs : Good inv s)
    (hargs : ∀ value ∈ args, inv.Valid s.heap value) :
    Keeps inv (dispatch m host name args) s (Answers inv) := by
  unfold dispatch
  split
  · refine (Keeps.modify (Q := fun _ _ => True) hs rfl ?_ trivial).bind ?_
    · intro value hvalue
      rcases List.mem_append.mp hvalue with hvalue | hvalue
      · exact hs.console value hvalue
      · exact hargs value hvalue
    · intro _ t _ ht _ _
      refine .pure ht fun value h => ?_
      cases h
      exact inv.valid_plain t.heap rfl
  · refine (callHost_keeps name hs hargs).bind fun result t _ ht _ hresult => ?_
    cases result with
    | some value =>
      refine .pure ht fun other h => ?_
      cases h
      exact hresult value rfl
    | none => exact .plainBind ht (yields_findFunction m name) fun function _ _ => .pure ht nofun

end Host

section Runs

variable [F64 ν] (inv : HeapInvariant ν)

structure PointValid (p : Point ν) : Prop where
  machine : Good inv p.machine
  frame : FrameValid inv p.machine.heap p.frame

variable (m : BytecodeModule) (host : HostEnvironment ν)

/-- The store that the instruction at `p` performs, if it is one, is allowed. -/
def StoreAllowed (p : Point ν) : Prop :=
  ∀ instruction handle property value, p.instruction = some instruction →
    Stores m instruction p.frame handle property value → inv.Allowed p.machine.heap handle value

/-- All stores from `p` on are allowed. -/
def StoresAllowed (p : Point ν) : Prop := ∀ q, Reaches m host p q → StoreAllowed inv m q

def CallStoresAllowed (name : String) (args : List (RuntimeValue ν)) (s : Machine ν) : Prop :=
  ∀ p, Passes m host name args s p → StoreAllowed inv m p

/-- What performs calls keeps the invariant, if the stores of the call are allowed. -/
def CallKeeps (call : Call ν) : Prop :=
  ∀ name args s, Good inv s → (∀ value ∈ args, inv.Valid s.heap value) →
    CallStoresAllowed inv m host name args s → Keeps inv (call name args) s inv.Valid

variable {inv m host}

theorem StoresAllowed.reaches {p q : Point ν} (h : StoresAllowed inv m host p)
    (hreach : Reaches m host p q) : StoresAllowed inv m host q :=
  fun r hr => h r (hreach.trans hr)

theorem StoresAllowed.calls {p : Point ν} (h : StoresAllowed inv m host p) {name : String}
    {args : List (RuntimeValue ν)} (hcalls : CallsWith m p name args) :
    CallStoresAllowed inv m host name args p.machine := by
  rintro q ⟨start, henter, hreach⟩
  exact h q (.head (.call hcalls henter) hreach)

theorem PointValid.args {p : Point ν} (hp : PointValid inv p) {name : String}
    {args : List (RuntimeValue ν)} (hcalls : CallsWith m p name args) :
    ∀ value ∈ args, inv.Valid p.machine.heap value := by
  obtain ⟨instruction, _, _, hargs⟩ := hcalls
  exact (hp.frame.yields_callOperands m instruction).1 _ hargs

/-- The instruction at a point keeps the invariant. -/
theorem PointValid.instruction {p : Point ν} {call : Call ν} {instruction : Instruction}
    (hp : PointValid inv p) (hcall : CallKeeps inv m host call)
    (hstores : StoresAllowed inv m host p) (hi : p.instruction = some instruction) :
    Keeps inv (executeInstruction m call instruction p.frame) p.machine
      fun heap done => FlowValid inv heap done.1 ∧ FrameValid inv heap done.2 := by
  refine executeInstruction_keeps hp.machine hp.frame ?_ ?_
  · intro handle property value hstore
    exact hstores p .refl instruction handle property value hi hstore
  · intro name args hop hargs
    have hcalls : CallsWith m p name args := ⟨instruction, hi, hop, hargs⟩
    exact hcall name args p.machine hp.machine (hp.args hcalls) (hstores.calls hcalls)

theorem executeBlock_keeps {fuel : ℕ} (hcall : CallKeeps inv m host (callFunction m host fuel))
    (rest : List Instruction) {p : Point ν} (hrest : p.block.instructions.drop p.pc = rest)
    (hp : PointValid inv p) (hstores : StoresAllowed inv m host p) :
    Keeps inv (executeBlock m (callFunction m host fuel) rest p.frame) p.machine
      fun heap done => FlowValid inv heap done.1 ∧ FrameValid inv heap done.2 := by
  induction rest generalizing p with
  | nil => exact .pure hp.machine ⟨trivial, hp.frame⟩
  | cons instruction rest ih =>
    have hlt : p.pc < p.block.instructions.length := by
      by_contra hge
      rw [List.drop_eq_nil_of_le (by omega)] at hrest
      cases hrest
    have hsplit := List.drop_eq_getElem_cons hlt
    rw [hrest, List.cons.injEq] at hsplit
    have hi : p.instruction = some instruction := by
      rw [Point.instruction, List.getElem?_eq_getElem hlt, hsplit.1]
    refine (hp.instruction hcall hstores hi).bind fun done t hd ht _ hvalid => ?_
    obtain ⟨flow, frame⟩ := done
    cases flow with
    | «continue» =>
      have hnext : Next m host p (p.after frame t) := ⟨frame, t, ⟨instruction, fuel, hi, hd⟩, rfl⟩
      exact ih (p := p.after frame t) hsplit.2.symm ⟨ht, hvalid.2⟩
        (hstores.reaches (.single hnext.step))
    | jump target => exact .pure ht ⟨trivial, hvalid.2⟩
    | «return» value => exact .pure ht ⟨hvalid.1, hvalid.2⟩

theorem executeFrame_keeps {fuel : ℕ} (hcall : CallKeeps inv m host (callFunction m host fuel))
    {function : BytecodeFunction} {id : UInt32} {block : BytecodeBlock} {frame : Frame ν}
    {s : Machine ν} (turns : ℕ) (hblock : findBlock function id = .ok block)
    (hp : PointValid inv ⟨function, block, 0, frame, s⟩)
    (hstores : StoresAllowed inv m host ⟨function, block, 0, frame, s⟩) :
    Keeps inv (executeFrame m (callFunction m host fuel) function turns id frame) s inv.Valid := by
  induction turns generalizing id block frame s with
  | zero => exact .fail hp.machine fun h => nomatch inv.excluded_failure h
  | succ turns ih =>
    have hends := executeBlock_ends (callFunction_ends m host fuel) block.instructions
      ⟨function, block, 0, frame, s⟩ rfl (Nat.zero_le _)
    rw [executeFrame, hblock]
    refine .plainBind (P := fun found => found = block) hp.machine (.ok rfl) ?_
    rintro found _ rfl
    refine (executeBlock_keeps hcall found.instructions rfl hp hstores).bind ?_
    intro done t hd ht _ hvalid
    obtain ⟨flow, last⟩ := done
    rw [hd] at hends
    cases flow with
    | «continue» => exact .pure ht (inv.valid_plain t.heap rfl)
    | «return» value => exact .pure ht hvalid.1
    | jump target =>
      obtain ⟨q, hwithin, hexec⟩ := hends
      have hfunction : q.function = function := hwithin.same.1
      cases hnext : findBlock function target with
      | ok next =>
        have hstep := Step.jump hexec (hfunction ▸ hnext)
        rw [hfunction] at hstep
        exact ih hnext ⟨ht, hvalid.2⟩ (hstores.reaches (hwithin.reaches.tail hstep))
      | error e =>
        cases turns with
        | zero => exact .fail ht fun h => nomatch inv.excluded_failure h
        | succ turns =>
          change Keeps inv (executeFrame m _ function (turns + 1) target last) t inv.Valid
          rw [executeFrame]
          refine .plainBind ht (yields_findBlock function target) fun block hok _ => ?_
          rw [hnext] at hok
          cases hok

variable (m host) in
/-- A call keeps the invariant, for any step budget. -/
theorem callFunction_keeps (fuel : ℕ) : CallKeeps inv m host (callFunction m host fuel) := by
  induction fuel with
  | zero => exact fun name args s hs _ _ => .fail hs fun h => nomatch inv.excluded_failure h
  | succ fuel ih =>
    intro name args s hs hargs hstores
    refine (dispatch_keeps name hs hargs).bind fun result t hd ht hgrows hanswers => ?_
    cases result with
    | inl value => exact .pure ht (hanswers value rfl)
    | inr function =>
      change Keeps inv (executeFrame m _ function (fuel + 1) 0 (.new function args)) t inv.Valid
      cases hblock : findBlock function 0 with
      | ok block =>
        have henter : Enters m host name args s (entry function block args t) :=
          ⟨function, block, t, hd, hblock, rfl⟩
        have hframe : FrameValid inv t.heap (.new function args) :=
          .new (fun value hvalue => inv.valid_mono hgrows (hargs value hvalue)) function
        exact executeFrame_keeps ih (fuel + 1) hblock ⟨ht, hframe⟩
          fun q hreach => hstores q ⟨_, henter, hreach⟩
      | error e =>
        rw [executeFrame]
        refine .plainBind ht (yields_findBlock function 0) fun block hok _ => ?_
        rw [hblock] at hok
        cases hok

theorem PointValid.enters {name : String} {args : List (RuntimeValue ν)} {s : Machine ν}
    {p : Point ν} (henter : Enters m host name args s p) (hs : Good inv s)
    (hargs : ∀ value ∈ args, inv.Valid s.heap value) :
    PointValid inv p ∧ inv.Grows s.heap p.machine.heap := by
  obtain ⟨function, block, t, hdispatch, _, rfl⟩ := henter
  obtain ⟨ht, hgrows, _⟩ := FailState.wp_ok (dispatch_keeps name hs hargs) hdispatch
  have hframe : FrameValid inv t.heap (.new function args) :=
    .new (fun value hvalue => inv.valid_mono hgrows (hargs value hvalue)) function
  exact ⟨⟨ht, hframe⟩, hgrows⟩

theorem PointValid.executes {p : Point ν} {flow : ControlFlow ν} {frame : Frame ν} {t : Machine ν}
    (hp : PointValid inv p) (hstores : StoresAllowed inv m host p)
    (h : Executes m host p flow frame t) :
    Good inv t ∧ inv.Grows p.machine.heap t.heap ∧ FrameValid inv t.heap frame := by
  obtain ⟨instruction, fuel, hi, hd⟩ := h
  obtain ⟨ht, hgrows, _, hframe⟩ :=
    FailState.wp_ok (hp.instruction (callFunction_keeps m host fuel) hstores hi) hd
  exact ⟨ht, hgrows, hframe⟩

theorem PointValid.step {p q : Point ν} (hp : PointValid inv p)
    (hstores : StoresAllowed inv m host p) (h : Step m host p q) :
    PointValid inv q ∧ inv.Grows p.machine.heap q.machine.heap := by
  cases h with
  | next hnext =>
    obtain ⟨frame, t, hexec, rfl⟩ := hnext
    obtain ⟨ht, hgrows, hframe⟩ := hp.executes hstores hexec
    exact ⟨⟨ht, hframe⟩, hgrows⟩
  | jump hexec _ =>
    obtain ⟨ht, hgrows, hframe⟩ := hp.executes hstores hexec
    exact ⟨⟨ht, hframe⟩, hgrows⟩
  | call hcalls henter => exact PointValid.enters henter hp.machine (hp.args hcalls)

theorem PointValid.reaches {p q : Point ν} (hp : PointValid inv p)
    (hstores : StoresAllowed inv m host p) (h : Reaches m host p q) :
    PointValid inv q ∧ inv.Grows p.machine.heap q.machine.heap := by
  induction h with
  | refl => exact ⟨hp, inv.grows_refl p.machine.heap⟩
  | tail hreach hstep ih =>
    obtain ⟨hq, hgrows⟩ := ih
    obtain ⟨hr, hgrows'⟩ := hq.step (hstores.reaches hreach) hstep
    exact ⟨hr, inv.grows_trans hgrows hgrows'⟩

theorem PointValid.passes {name : String} {args : List (RuntimeValue ν)} {s : Machine ν}
    {p : Point ν} (h : Passes m host name args s p) (hs : Good inv s)
    (hargs : ∀ value ∈ args, inv.Valid s.heap value)
    (hstores : CallStoresAllowed inv m host name args s) : PointValid inv p := by
  obtain ⟨start, henter, hreach⟩ := h
  have hstart := (PointValid.enters henter hs hargs).1
  exact (hstart.reaches (fun q hq => hstores q ⟨start, henter, hq⟩) hreach).1

/-- How a prepared module is run: the call, the state it starts in and what the
    final collection keeps of the state and the result of the call. -/
inductive Begins : String → List (RuntimeValue ν) → Machine ν →
    (Machine ν → RuntimeValue ν → List (RuntimeValue ν)) → Prop
  | execute : Begins "__entry" [] .new fun s result => s.console ++ [result]
  | call (name : String) (args : List (InteropValue ν)) :
      Begins name (runtimeArguments args).1 (runtimeArguments args).2 fun _ result => [result]

theorem Good.new (inv : HeapInvariant ν) : Good inv .new := ⟨inv.new, nofun⟩

theorem Good.runtimeArguments (inv : HeapInvariant ν) (args : List (InteropValue ν)) :
    Good inv (runtimeArguments args).2 ∧
      ∀ value ∈ (Pipeline.runtimeArguments args).1,
        inv.Valid (Pipeline.runtimeArguments args).2.heap value := by
  obtain ⟨hholds, _, hvalid⟩ := runtimeFromValues_keeps inv args inv.new
  exact ⟨⟨hholds, nofun⟩, hvalid⟩

theorem Begins.good (inv : HeapInvariant ν) {name : String} {args : List (RuntimeValue ν)}
    {s : Machine ν} {kept : Machine ν → RuntimeValue ν → List (RuntimeValue ν)}
    (h : Begins name args s kept) : Good inv s ∧ ∀ value ∈ args, inv.Valid s.heap value := by
  cases h with
  | execute => exact ⟨.new inv, nofun⟩
  | call name args => exact Good.runtimeArguments inv args

theorem Begins.kept_valid (inv : HeapInvariant ν) {name : String} {args : List (RuntimeValue ν)}
    {s t : Machine ν} {kept : Machine ν → RuntimeValue ν → List (RuntimeValue ν)}
    (h : Begins name args s kept) {result : RuntimeValue ν} (ht : Good inv t)
    (hresult : inv.Valid t.heap result) : ∀ value ∈ kept t result, inv.Valid t.heap value := by
  cases h with
  | execute =>
    intro value hvalue
    rcases List.mem_append.mp hvalue with hvalue | hvalue
    · exact ht.console value hvalue
    · rw [List.mem_singleton.mp hvalue]
      exact hresult
  | call name args =>
    intro value hvalue
    rw [List.mem_singleton.mp hvalue]
    exact hresult

end Runs

end Tsvm.RunInvariants
