import Tsvm.FunctionSlots
import Tsvm.VerifiedReferences

set_option autoImplicit false

/-!
# What the code of an expression does

`runExpression` follows the syntax tree instead of the code. A unary operator is
lowered to its operand, an assignment to a variable stores the right-hand side
whatever its operator, and all operands of a binary operator are evaluated. The
code does the same in a frame that has all values numbered before.
-/
namespace Tsvm.ExpressionRuns
open Ast Bytecode BytecodeVerifier Interop Ir Lowering Compilation RuntimeValues Interpreter
  InterpreterSteps
open LoweringCode CompiledOperands CompiledSlots FunctionSlots

variable {ν : Type}

abbrev Locals (ν : Type) := List (RuntimeValue ν)

def loadSlot (locals : Locals ν) (index : UInt32) : Except Stop (RuntimeValue ν) :=
  (⟨locals, []⟩ : Frame ν).loadLocal index

def storeSlot (locals : Locals ν) (index : UInt32) (value : RuntimeValue ν) : Locals ν :=
  ((⟨locals, []⟩ : Frame ν).storeLocal index value).locals

/-- The object with these fields; of two with one name the later one counts. -/
def objectOf (fields : List (String × RuntimeValue ν)) : Std.TreeMap String (RuntimeValue ν) :=
  fields.foldl (fun object field => object.insert field.1 field.2) ∅

def loadRun (object : RuntimeValue ν) (property : String) : Run ν (RuntimeValue ν) := do
  let s ← FailState.read
  FailState.lift (loadMember s.heap object property)

def storeRun (object : RuntimeValue ν) (property : String) (value : RuntimeValue ν) :
    Run ν Unit := do
  let s ← FailState.read
  let heap ← FailState.lift (storeMember s.heap object property value)
  setHeap heap

section Runs

variable [F64 ν]

def binaryRun (op : IrBinaryOp) (left right : RuntimeValue ν) : Run ν (RuntimeValue ν) := do
  let s ← FailState.read
  FailState.lift (binary (binaryOpCode op) s.heap left right)

def constantRun (constant : Constant) (locals : Locals ν) : Run ν (RuntimeValue ν × Locals ν) := do
  let value ← FailState.lift (valueFromConstant constant)
  pure (value, locals)

/-- The part of an assignment to a member behind the evaluation of its two sides. -/
def memberStoreRun (object : RuntimeValue ν) (property : String) (operator : AssignmentOperator)
    (right : RuntimeValue ν) : Run ν (RuntimeValue ν) :=
  match operator with
  | .assign => do
    storeRun object property right
    pure right
  | operator => do
    let current ← loadRun object property
    let result ← binaryRun (assignmentBinaryOp operator) current right
    storeRun object property result
    pure result

variable (slot : String → UInt32) (call : Call ν)

mutual

def runExpression : Expression → Locals ν → Run ν (RuntimeValue ν × Locals ν)
  | .identifier name _, locals => do
    let value ← FailState.lift (loadSlot locals (slot name))
    pure (value, locals)
  | .number value _, locals => constantRun (.number value) locals
  | .string value _, locals => constantRun (.string value) locals
  | .boolean value _, locals => constantRun (.boolean value) locals
  | .null _, locals => constantRun .null locals
  | .undefined _, locals => constantRun .undefined locals
  | .object properties _, locals => do
    let fields ← runProperties properties locals
    let handle ← allocate (.object (objectOf fields.1))
    pure (.object handle, fields.2)
  | .array elements _, locals => do
    let values ← runExpressions elements locals
    let handle ← allocate (.array values.1)
    pure (.array handle, values.2)
  | .member object property _, locals => do
    let object ← runExpression object locals
    let value ← loadRun object.1 property
    pure (value, object.2)
  | .call callee arguments _, locals => do
    let values ← runExpressions arguments locals
    let value ← call (calleeName callee) values.1
    pure (value, values.2)
  | .binary left operator right _, locals => do
    let left ← runExpression left locals
    let right ← runExpression right left.2
    let value ← binaryRun (binaryOp operator) left.1 right.1
    pure (value, right.2)
  | .assignment left operator right _, locals =>
    match left with
    | .identifier name _ => do
      let right ← runExpression right locals
      pure (right.1, storeSlot right.2 (slot name) right.1)
    | .member object property _ => do
      let object ← runExpression object locals
      let right ← runExpression right object.2
      let stored ← memberStoreRun object.1 property operator right.1
      pure (stored, right.2)
    | _ => runExpression right locals
  | .unary _ argument _, locals => runExpression argument locals
  | .error _, locals => constantRun .undefined locals

def runExpressions : List Expression → Locals ν → Run ν (List (RuntimeValue ν) × Locals ν)
  | [], locals => pure ([], locals)
  | expression :: expressions, locals => do
    let first ← runExpression expression locals
    let rest ← runExpressions expressions first.2
    pure (first.1 :: rest.1, rest.2)

def runProperties : List ObjectProperty → Locals ν →
    Run ν (List (String × RuntimeValue ν) × Locals ν)
  | [], locals => pure ([], locals)
  | .mk name value _ :: properties, locals => do
    let first ← runExpression value locals
    let rest ← runProperties properties first.2
    pure ((name, first.1) :: rest.1, rest.2)

end

end Runs

/-- The frame has the value with this id. -/
def Holds (values : List (RuntimeValue ν)) (id : ℕ) (value : RuntimeValue ν) : Prop :=
  values[id]? = some value

theorem Holds.append {values : List (RuntimeValue ν)} {id : ℕ} {value : RuntimeValue ν}
    (h : Holds values id value) (pushed : List (RuntimeValue ν)) :
    Holds (values ++ pushed) id value := by
  rw [Holds, List.getElem?_append_left (List.getElem?_eq_some_iff.mp h).1]
  exact h

theorem Holds.read {values : List (RuntimeValue ν)} {id : ℕ} {value : RuntimeValue ν}
    (h : Holds values id value) (hid : id < 2 ^ 32) (locals : Locals ν) :
    (⟨locals, values⟩ : Frame ν).value (.ofNat id) = .ok value := by
  rw [Frame.value, UInt32.toNat_ofNat', Nat.mod_eq_of_lt hid]
  dsimp only
  rw [h]

theorem frameValues_of_holds {values found : List (RuntimeValue ν)} {ids : List ℕ}
    (h : List.Forall₂ (Holds values) ids found) (hids : ∀ id ∈ ids, id < 2 ^ 32)
    (locals : Locals ν) :
    frameValues ⟨locals, values⟩ (ids.map .ofNat) = .ok found := by
  induction h with
  | nil => rfl
  | @cons id value ids found hid _ ih =>
    rw [frameValues, List.map_cons, List.mapM_cons, hid.read (hids id List.mem_cons_self)]
    have hrest := ih fun id hmem => hids id (List.mem_cons_of_mem _ hmem)
    rw [frameValues] at hrest
    rw [hrest]
    rfl

section Objects

variable {m : BytecodeModule}

theorem objectFields_ok {instruction : Instruction} {frame : Frame ν}
    (fields : List (String × RuntimeValue ν)) {indices : List ℕ}
    (h : List.Forall₂ (fun index field => objectField m instruction frame index = .ok field)
      indices fields) (object : Std.TreeMap String (RuntimeValue ν)) :
    objectFields m instruction frame indices object =
      .ok (fields.foldl (fun object field => object.insert field.1 field.2) object) := by
  induction h generalizing object with
  | nil => rfl
  | cons hfield _ ih =>
    rw [objectFields, hfield]
    exact ih _

theorem objectField_ok {instruction : Instruction} {values : List (RuntimeValue ν)}
    {locals : Locals ν} {count : UInt32} {pairs : List (UInt32 × UInt32)}
    (hoperands : instruction.operands = count :: BytecodeVerifierFacts.flattenPairs pairs) {k : ℕ}
    (hk : k < pairs.length) {name : String} {id : ℕ} {value : RuntimeValue ν}
    (hname : NameAt m pairs[k].1 name) (hid : pairs[k].2 = .ofNat id) (hlt : id < 2 ^ 32)
    (hvalue : Holds values id value) :
    objectField m instruction (⟨locals, values⟩ : Frame ν) k = .ok (name, value) := by
  obtain ⟨hnameOperand, hvalueOperand⟩ := VerifiedReferences.flattenPairs_getElem count hk
  rw [← hoperands, ← operand_eq_ok] at hnameOperand hvalueOperand
  have hconstant : constant m pairs[k].1 = .ok (.symbol name) := by rw [constant, hname]
  rw [objectField, hnameOperand, hvalueOperand, hid]
  change (constant m pairs[k].1 >>= fun nameConstant => symbolName nameConstant >>= fun name =>
    (⟨locals, values⟩ : Frame ν).value (.ofNat id) >>= fun value => pure (name, value)) = _
  rw [hconstant, hvalue.read hlt]
  rfl

end Objects

theorem bind_assoc {α β γ : Type} (d : Run ν α) (f : α → Run ν β) (g : β → Run ν γ) :
    (d >>= f) >>= g = d >>= fun a => f a >>= g := by
  funext s
  change FailState.bind (FailState.bind d f) g s =
    FailState.bind d (fun a => FailState.bind (f a) g) s
  unfold FailState.bind
  cases d s with
  | mk r t => cases r <;> rfl

section Instructions

variable {m : BytecodeModule} {final : LocalSlots} {instruction : IrInstruction}
  {compiled : Instruction} {locals : Locals ν} {values : List (RuntimeValue ν)}

theorem slotOf_lookup {name : String} {slot : UInt32} (h : final.ids.lookup name = some slot) :
    slotOf final name = slot := by
  rw [slotOf, localId_of_lookup h]

/-- The opcode and the operands of a compiled instruction, for its kind. -/
theorem refers_of_kind (h : Allotted m final instruction compiled) {kind : IrInstructionKind}
    (hkind : instruction.kind = kind) : ∃ slots, Keeps (slotsAfter kind slots) final ∧
      Refers m slots kind compiled.opcode compiled.operands := by
  rw [← hkind]
  exact h.refers

variable [F64 ν] {call : Call ν}

theorem run_literal (h : Allotted m final instruction compiled) {constant : IrConst}
    {found : Constant} (hkind : instruction.kind = .loadConst constant)
    (hliteral : literal constant = some found) :
    executeInstruction m call compiled ⟨locals, values⟩ =
      FailState.lift (valueFromConstant found) >>= fun value =>
        pure (.continue, ⟨locals, values ++ [value]⟩) := by
  obtain ⟨slots, _, hrefers⟩ := refers_of_kind h hkind
  obtain ⟨opcode, operands, tag, src⟩ := compiled
  cases hrefers with
  | @literal _ found' index hfound hindex =>
    rw [hliteral] at hfound
    cases hfound
    have hconstant : Interpreter.constant m index = .ok found := by
      rw [Interpreter.constant, hindex]
    simp only [executeInstruction, operand, List.getElem?_cons_zero]
    change FailState.lift (Interpreter.constant m index) >>= _ = _
    rw [hconstant]
    rfl
  | object => cases hliteral
  | array => cases hliteral

theorem run_object (h : Allotted m final instruction compiled)
    {properties : List (String × ValueId)} {fields : List (String × RuntimeValue ν)}
    (hkind : instruction.kind = .loadConst (.object properties))
    (hfields : List.Forall₂ (fun property field =>
      property.1 = field.1 ∧ Holds values property.2 field.2) properties fields)
    (hids : ∀ property ∈ properties, property.2 < 2 ^ 32) (hlength : properties.length < 2 ^ 32) :
    executeInstruction m call compiled ⟨locals, values⟩ =
      allocate (.object (objectOf fields)) >>= fun handle =>
        pure (.continue, ⟨locals, values ++ [.object handle]⟩) := by
  obtain ⟨slots, _, hrefers⟩ := refers_of_kind h hkind
  obtain ⟨opcode, operands, tag, src⟩ := compiled
  cases hrefers with
  | literal hliteral => cases hliteral
  | @object _ pairs hpairs =>
    have hcount : (UInt32.ofNat properties.length).toNat = properties.length := by
      rw [UInt32.toNat_ofNat', Nat.mod_eq_of_lt hlength]
    have hindices : List.Forall₂ (fun index field => objectField m
        ⟨.buildObject, .ofNat properties.length :: BytecodeVerifierFacts.flattenPairs pairs, tag, src⟩
          (⟨locals, values⟩ : Frame ν) index = .ok field) (List.range properties.length) fields := by
      have hsame := hpairs.length_eq
      have hsame' := hfields.length_eq
      refine List.forall₂_iff_get.mpr ⟨by rw [List.length_range, hsame'], fun k hk hk' => ?_⟩
      rw [List.length_range] at hk
      simp only [List.get_eq_getElem, List.getElem_range]
      obtain ⟨hname, hid⟩ := hpairs.get hk (by omega)
      obtain ⟨hfield, hvalue⟩ := hfields.get hk hk'
      simp only [List.get_eq_getElem] at hname hid hfield hvalue
      rw [hfield] at hname
      exact objectField_ok rfl (by omega) hname hid (hids _ (List.getElem_mem hk)) hvalue
    simp only [executeInstruction, operand, List.getElem?_cons_zero]
    change FailState.lift (objectFields m _ _ (List.range (UInt32.ofNat properties.length).toNat) ∅) >>=
      _ = _
    rw [hcount, objectFields_ok fields hindices]
    rfl

theorem run_array (h : Allotted m final instruction compiled) {elements : List ValueId}
    {found : List (RuntimeValue ν)} (hkind : instruction.kind = .loadConst (.array elements))
    (hfound : List.Forall₂ (Holds values) elements found) (hids : ∀ id ∈ elements, id < 2 ^ 32) :
    executeInstruction m call compiled ⟨locals, values⟩ =
      allocate (.array found) >>= fun handle =>
        pure (.continue, ⟨locals, values ++ [.array handle]⟩) := by
  obtain ⟨slots, _, hrefers⟩ := refers_of_kind h hkind
  obtain ⟨opcode, operands, tag, src⟩ := compiled
  cases hrefers with
  | literal hliteral => cases hliteral
  | array =>
    simp only [executeInstruction, operand, List.getElem?_cons_zero, List.tail_cons,
      frameValues_of_holds hfound hids locals]
    rfl

theorem run_loadLocal (h : Allotted m final instruction compiled) {name : String}
    (hkind : instruction.kind = .loadLocal name) :
    executeInstruction m call compiled ⟨locals, values⟩ =
      FailState.lift (loadSlot locals (slotOf final name)) >>= fun value =>
        pure (.continue, ⟨locals, values ++ [value]⟩) := by
  obtain ⟨slots, hkeeps, hrefers⟩ := refers_of_kind h hkind
  obtain ⟨opcode, operands, tag, src⟩ := compiled
  cases hrefers with
  | loadLocal =>
    rw [slotOf_lookup (hkeeps name _ (localId_lookup name slots))]
    rfl

theorem run_storeLocal (h : Allotted m final instruction compiled) {name : String} {id : ValueId}
    {value : RuntimeValue ν} (hkind : instruction.kind = .storeLocal name id)
    (hvalue : Holds values id value) (hid : id < 2 ^ 32) :
    executeInstruction m call compiled ⟨locals, values⟩ =
      pure (.continue, ⟨storeSlot locals (slotOf final name) value, values⟩) := by
  obtain ⟨slots, hkeeps, hrefers⟩ := refers_of_kind h hkind
  obtain ⟨opcode, operands, tag, src⟩ := compiled
  cases hrefers with
  | storeLocal =>
    rw [slotOf_lookup (hkeeps name _ (localId_lookup name slots))]
    simp only [executeInstruction, operand, List.getElem?_cons_succ, List.getElem?_cons_zero]
    change FailState.lift ((⟨locals, values⟩ : Frame ν).value (.ofNat id)) >>= _ = _
    rw [hvalue.read hid]
    rfl

theorem run_loadMember (h : Allotted m final instruction compiled) {id : ValueId}
    {property : String} {object : RuntimeValue ν} (hkind : instruction.kind = .loadMember id property)
    (hobject : Holds values id object) (hid : id < 2 ^ 32) :
    executeInstruction m call compiled ⟨locals, values⟩ =
      loadRun object property >>= fun value => pure (.continue, ⟨locals, values ++ [value]⟩) := by
  obtain ⟨slots, _, hrefers⟩ := refers_of_kind h hkind
  obtain ⟨opcode, operands, tag, src⟩ := compiled
  cases hrefers with
  | @loadMember _ _ index hproperty =>
    have hsymbol : symbol m index = .ok property := by
      rw [symbol, constant, hproperty]
      rfl
    simp only [executeInstruction, operand, List.getElem?_cons_succ, List.getElem?_cons_zero]
    change FailState.lift ((⟨locals, values⟩ : Frame ν).value (.ofNat id)) >>= (fun object =>
      FailState.lift (symbol m index) >>= _) = _
    rw [hobject.read hid, hsymbol]
    rfl

theorem run_storeMember (h : Allotted m final instruction compiled) {id stored : ValueId}
    {property : String} {object value : RuntimeValue ν}
    (hkind : instruction.kind = .storeMember id property stored)
    (hobject : Holds values id object) (hvalue : Holds values stored value) (hid : id < 2 ^ 32)
    (hstored : stored < 2 ^ 32) :
    executeInstruction m call compiled ⟨locals, values⟩ =
      storeRun object property value >>= fun _ => pure (.continue, ⟨locals, values⟩) := by
  obtain ⟨slots, _, hrefers⟩ := refers_of_kind h hkind
  obtain ⟨opcode, operands, tag, src⟩ := compiled
  cases hrefers with
  | @storeMember _ _ _ index hproperty =>
    have hsymbol : symbol m index = .ok property := by
      rw [symbol, constant, hproperty]
      rfl
    simp only [executeInstruction, operand, List.getElem?_cons_succ, List.getElem?_cons_zero]
    change FailState.lift ((⟨locals, values⟩ : Frame ν).value (.ofNat id)) >>= (fun object =>
      FailState.lift (symbol m index) >>= fun property =>
        FailState.lift ((⟨locals, values⟩ : Frame ν).value (.ofNat stored)) >>= _) = _
    rw [hobject.read hid, hvalue.read hstored, hsymbol]
    change (FailState.read >>= fun s : Machine ν =>
      FailState.lift (storeMember s.heap object property value) >>= fun heap =>
        setHeap heap >>= fun _ => pure _) = _
    simp only [storeRun, bind_assoc]

theorem run_binary (h : Allotted m final instruction compiled) {op : IrBinaryOp} {left right : ValueId}
    {leftValue rightValue : RuntimeValue ν} (hkind : instruction.kind = .binary op left right)
    (hleft : Holds values left leftValue) (hright : Holds values right rightValue)
    (hleftId : left < 2 ^ 32) (hrightId : right < 2 ^ 32) :
    executeInstruction m call compiled ⟨locals, values⟩ =
      binaryRun op leftValue rightValue >>= fun value =>
        pure (.continue, ⟨locals, values ++ [value]⟩) := by
  obtain ⟨slots, _, hrefers⟩ := refers_of_kind h hkind
  obtain ⟨opcode, operands, tag, src⟩ := compiled
  cases hrefers with
  | binary =>
    simp only [executeInstruction, operand, List.getElem?_cons_succ, List.getElem?_cons_zero]
    change FailState.lift ((⟨locals, values⟩ : Frame ν).value (.ofNat left)) >>= (fun leftValue =>
      FailState.lift ((⟨locals, values⟩ : Frame ν).value (.ofNat right)) >>= _) = _
    rw [hleft.read hleftId, hright.read hrightId]
    rfl

theorem run_call (h : Allotted m final instruction compiled) {callee : String} {ids : List ValueId}
    {args : List (RuntimeValue ν)} (hkind : instruction.kind = .call callee ids)
    (hargs : List.Forall₂ (Holds values) ids args) (hids : ∀ id ∈ ids, id < 2 ^ 32)
    (hlength : ids.length < 2 ^ 32) :
    executeInstruction m call compiled ⟨locals, values⟩ =
      call callee args >>= fun value => pure (.continue, ⟨locals, values ++ [value]⟩) := by
  obtain ⟨slots, _, hrefers⟩ := refers_of_kind h hkind
  obtain ⟨opcode, operands, tag, src⟩ := compiled
  cases hrefers with
  | @call _ _ index hcallee =>
    have hsymbol : symbol m index = .ok callee := by
      rw [symbol, constant, hcallee]
      rfl
    have hcount : (UInt32.ofNat ids.length).toNat = (ids.map UInt32.ofNat).length := by
      rw [UInt32.toNat_ofNat', Nat.mod_eq_of_lt hlength, List.length_map]
    have hoperands : callOperands m ⟨.call, index :: .ofNat ids.length :: ids.map .ofNat, tag, src⟩
        (⟨locals, values⟩ : Frame ν) = .ok (callee, args) := by
      rw [callOperands]
      simp only [operand, List.getElem?_cons_succ, List.getElem?_cons_zero, List.drop_succ_cons,
        List.drop_zero]
      change (symbol m index >>= fun callee =>
        frameValues _ ((ids.map UInt32.ofNat).take (UInt32.ofNat ids.length).toNat) >>= _) = _
      rw [hcount, List.take_length, hsymbol, frameValues_of_holds hargs hids locals]
      rfl
    rw [executeInstruction_call rfl, hoperands]
    rfl

end Instructions

/-- In front of any other code the compiled code does what `d` does. It adds `count` values
    to the frame, where the result of `d` is then found. -/
def Simulates [F64 ν] (m : BytecodeModule) (call : Call ν) (compiled : List Instruction)
    (count : ℕ) {α : Type} (found : α → List (RuntimeValue ν) → Prop) (locals : Locals ν)
    (values : List (RuntimeValue ν)) (d : Run ν (α × Locals ν)) : Prop :=
  ∀ rest s, FailState.wp d s
    (fun r t => ∃ pushed, pushed.length = count ∧ found r.1 (values ++ pushed) ∧
      executeBlock m call (compiled ++ rest) ⟨locals, values⟩ s =
        executeBlock m call rest ⟨r.2, values ++ pushed⟩ t)
    (fun e t => executeBlock m call (compiled ++ rest) ⟨locals, values⟩ s = (.error e, t))

namespace Simulates

variable [F64 ν] {m : BytecodeModule} {call : Call ν} {first second : List Instruction}
  {count count' : ℕ} {locals : Locals ν} {values : List (RuntimeValue ν)} {α β : Type}

theorem nil {found : α → List (RuntimeValue ν) → Prop} {a : α} (h : found a values) :
    Simulates m call [] 0 found locals values (pure (a, locals)) := by
  intro rest s
  refine ⟨[], rfl, ?_, ?_⟩
  · rwa [List.append_nil]
  · rw [List.append_nil, List.nil_append]

/-- One instruction that computes `d` and goes on with the next one. -/
theorem single {instruction : Instruction} {d : Run ν β} {result : β → α}
    {next : β → Locals ν} {pushed : β → List (RuntimeValue ν)}
    {found : α → List (RuntimeValue ν) → Prop}
    (h : executeInstruction m call instruction ⟨locals, values⟩ =
      d >>= fun b => pure (.continue, ⟨next b, values ++ pushed b⟩))
    (hcount : ∀ b, (pushed b).length = count) (hfound : ∀ b, found (result b) (values ++ pushed b)) :
    Simulates m call [instruction] count found locals values
      (d >>= fun b => pure (result b, next b)) := by
  intro rest s
  rw [FailState.wp_bind]
  unfold FailState.wp
  cases hd : d s with
  | mk r t =>
    cases r with
    | ok b =>
      refine ⟨pushed b, hcount b, hfound b, ?_⟩
      have hexec : executeInstruction m call instruction ⟨locals, values⟩ s =
          (.ok (.continue, ⟨next b, values ++ pushed b⟩), t) := by
        rw [h, FailState.bind_ok hd]
        rfl
      rw [List.singleton_append, executeBlock, FailState.bind_ok hexec]
    | error e =>
      have hexec : executeInstruction m call instruction ⟨locals, values⟩ s = (.error e, t) := by
        rw [h, FailState.bind_error hd]
      dsimp only
      rw [List.singleton_append, executeBlock, FailState.bind_error hexec]

theorem effect {instruction : Instruction} {d : Run ν β} {result : β → α} {next : β → Locals ν}
    {found : α → List (RuntimeValue ν) → Prop}
    (h : executeInstruction m call instruction ⟨locals, values⟩ =
      d >>= fun b => pure (.continue, ⟨next b, values⟩))
    (hfound : ∀ b, found (result b) values) :
    Simulates m call [instruction] 0 found locals values
      (d >>= fun b => pure (result b, next b)) := by
  have happend : executeInstruction m call instruction ⟨locals, values⟩ =
      d >>= fun b => pure (.continue, ⟨next b, values ++ []⟩) := by
    simpa only [List.append_nil] using h
  refine single happend (fun _ => rfl) ?_
  simpa only [List.append_nil] using hfound

theorem store {instruction : Instruction} {next : Locals ν} {a : α}
    {found : α → List (RuntimeValue ν) → Prop}
    (h : executeInstruction m call instruction ⟨locals, values⟩ = pure (.continue, ⟨next, values⟩))
    (hfound : found a values) :
    Simulates m call [instruction] 0 found locals values (pure (a, next)) := by
  have hunit : executeInstruction m call instruction ⟨locals, values⟩ =
      (pure () : Run ν Unit) >>= fun _ => pure (.continue, ⟨next, values⟩) := h
  change Simulates m call [instruction] 0 found locals values
    ((pure () : Run ν Unit) >>= fun _ => pure (a, next))
  exact effect hunit fun _ => hfound

/-- Two pieces of code, one after the other. -/
theorem bind {d : Run ν (α × Locals ν)} {f : α × Locals ν → Run ν (β × Locals ν)}
    {found : α → List (RuntimeValue ν) → Prop} {found' : β → List (RuntimeValue ν) → Prop}
    (hd : Simulates m call first count found locals values d)
    (hf : ∀ a locals' pushed, pushed.length = count → found a (values ++ pushed) →
      Simulates m call second count' found' locals' (values ++ pushed) (f (a, locals'))) :
    Simulates m call (first ++ second) (count + count') found' locals values (d >>= f) := by
  intro rest s
  rw [FailState.wp_bind, List.append_assoc]
  refine FailState.wp_mono (hd (second ++ rest) s) ?_ fun e t h => h
  rintro ⟨a, locals'⟩ t ⟨pushed, hlength, hfound, hexec⟩
  refine FailState.wp_mono (hf a locals' pushed hlength hfound rest t) ?_ ?_
  · rintro ⟨b, locals''⟩ u ⟨pushed', hlength', hfound', hexec'⟩
    rw [List.append_assoc] at hfound' hexec'
    exact ⟨pushed ++ pushed', by rw [List.length_append]; omega, hfound', hexec.trans hexec'⟩
  · intro e u h
    exact hexec.trans h

theorem map {compiled : List Instruction} {d : Run ν (α × Locals ν)}
    {found : α → List (RuntimeValue ν) → Prop} {found' : β → List (RuntimeValue ν) → Prop}
    (h : Simulates m call compiled count found locals values d) (g : α → β)
    (hg : ∀ a pushed, found a (values ++ pushed) → found' (g a) (values ++ pushed)) :
    Simulates m call compiled count found' locals values (d >>= fun r => pure (g r.1, r.2)) := by
  intro rest s
  rw [FailState.wp_bind]
  refine FailState.wp_mono (h rest s) ?_ fun e t h => h
  rintro r t ⟨pushed, hlength, hfound, hexec⟩
  exact ⟨pushed, hlength, hg _ _ hfound, hexec⟩

end Simulates

theorem forall₂_append {α β : Type} {R : α → β → Prop} {first second : List α} {l : List β}
    (h : List.Forall₂ R (first ++ second) l) : ∃ before after, l = before ++ after ∧
      List.Forall₂ R first before ∧ List.Forall₂ R second after := by
  induction first generalizing l with
  | nil => exact ⟨[], l, rfl, .nil, h⟩
  | cons a first ih =>
    cases h with
    | @cons _ b _ l hab hrest =>
      obtain ⟨before, after, rfl, hfirst, hsecond⟩ := ih hrest
      exact ⟨b :: before, after, rfl, .cons hab hfirst, hsecond⟩

section Code

variable [F64 ν] {m : BytecodeModule} {final : LocalSlots} {call : Call ν}

omit [F64 ν] in
theorem next_length {n : ℕ} {lowered : Lowered} (h : WellNumbered n lowered)
    {values pushed : List (RuntimeValue ν)} (hn : values.length = n)
    (hpushed : pushed.length = results lowered.code) : (values ++ pushed).length = lowered.next := by
  rw [List.length_append, h.next]
  omega

omit [F64 ν] in
theorem stop_length {n stop : ℕ} {code : List IrInstruction} {ids : List ℕ}
    (h : WellNumberedList n code stop ids) {values pushed : List (RuntimeValue ν)}
    (hn : values.length = n) (hpushed : pushed.length = results code) :
    (values ++ pushed).length = stop := by
  rw [List.length_append, h.next]
  omega

/-- The last instruction of an expression, which computes its value. -/
theorem simulates_value {α : Type} {d : Run ν α} {result : α → RuntimeValue ν} {kind : IrInstructionKind}
    {ty : IrType} {span : Span} {compiled : List Instruction} {locals : Locals ν}
    {values : List (RuntimeValue ν)} {n : ℕ} (hn : values.length = n)
    (h : List.Forall₂ (Allotted m final) [⟨kind, some n, ty, span⟩] compiled)
    (hproduces : produces kind = true)
    (hrun : ∀ instruction, Allotted m final ⟨kind, some n, ty, span⟩ instruction →
      executeInstruction m call instruction ⟨locals, values⟩ =
        d >>= fun a => pure (.continue, ⟨locals, values ++ [result a]⟩)) :
    Simulates m call compiled (results [⟨kind, some n, ty, span⟩])
      (fun value values => Holds values n value) locals values
      (d >>= fun a => pure (result a, locals)) := by
  obtain ⟨instruction, rest, hinstruction, hrest, rfl⟩ := List.forall₂_cons_left_iff.mp h
  rw [List.forall₂_nil_left_iff.mp hrest, results_of_produces hproduces]
  refine .single (hrun instruction hinstruction) (fun _ => rfl) fun a => ?_
  rw [Holds, ← hn, List.getElem?_append_right (Nat.le_refl _), Nat.sub_self]
  rfl

theorem constantRun_simulates {constant : IrConst} {found : Constant} {ty : IrType} {span : Span}
    (hliteral : literal constant = some found) {compiled : List Instruction} (locals : Locals ν)
    {values : List (RuntimeValue ν)} {n : ℕ} (hn : values.length = n)
    (h : List.Forall₂ (Allotted m final) [⟨.loadConst constant, some n, ty, span⟩] compiled) :
    Simulates m call compiled (results [⟨.loadConst constant, some n, ty, span⟩])
      (fun value values => Holds values n value) locals values (constantRun found locals) :=
  simulates_value hn h rfl fun _ hinstruction => run_literal hinstruction rfl hliteral

variable (types : List (String × IrType))

omit [F64 ν] in
theorem expressionsCode_length_le (expressions : List Expression) (n : ℕ) :
    n + (expressionsCode types expressions n).2.2.length ≤
      (expressionsCode types expressions n).2.1 := by
  induction expressions generalizing n with
  | nil => exact Nat.le_refl n
  | cons expression expressions ih =>
    have hexpression := expressionCode_wellNumbered types expression n
    have hfirst := hexpression.first
    have hvalue := hexpression.value
    have hrest := ih (expressionCode types expression n).next
    change n + (_ + 1) ≤ (expressionsCode types expressions _).2.1
    rw [Nat.add_comm _ 1, ← Nat.add_assoc]
    exact (Nat.add_le_add_right (by omega) _).trans hrest

omit [F64 ν] in
theorem propertiesCode_length_le (properties : List ObjectProperty) (n : ℕ) :
    n + (propertiesCode types properties n).2.2.length ≤ (propertiesCode types properties n).2.1 := by
  induction properties generalizing n with
  | nil => exact Nat.le_refl n
  | cons property properties ih =>
    obtain ⟨name, value, span⟩ := property
    have hwell := expressionCode_wellNumbered types value n
    have hfirst := hwell.first
    have hvalue := hwell.value
    have hrest := ih (expressionCode types value n).next
    change n + (_ + 1) ≤ (propertiesCode types properties _).2.1
    rw [Nat.add_comm _ 1, ← Nat.add_assoc]
    exact (Nat.add_le_add_right (by omega) _).trans hrest

theorem memberStoreCode_le (object : ValueId) (property : String) (operator : AssignmentOperator)
    (right : Lowered) (leftSpan span : Span) :
    right.next ≤ (memberStoreCode object property operator right leftSpan span).2.1 := by
  cases operator with
  | assign => exact Nat.le_refl _
  | _ => exact Nat.le_add_right _ 2

theorem memberStoreCode_compound (object : ValueId) (property : String)
    {operator : AssignmentOperator} (right : Lowered) (leftSpan span : Span)
    (h : operator ≠ .assign) :
    memberStoreCode object property operator right leftSpan span =
      ([⟨.loadMember object property, some right.next, right.ty, leftSpan⟩] ++
        ([⟨.binary (assignmentBinaryOp operator) right.next right.value, some (right.next + 1),
            right.ty, span⟩] ++
          [⟨.storeMember object property (right.next + 1), none, right.ty, span⟩]),
        right.next + 2, right.next + 1) := by
  cases operator with
  | assign => exact absurd rfl h
  | _ => rfl

omit [F64 ν] in
/-- The locals are carried along. -/
theorem bind_locals {β γ : Type} (d : Run ν β) (f : β → Run ν γ) (locals : Locals ν) :
    (d >>= f) >>= (fun c => pure (c, locals)) =
      (d >>= fun b => pure (b, locals)) >>= fun r => f r.1 >>= fun c => pure (c, r.2) := by
  rw [bind_assoc, bind_assoc]
  rfl

theorem memberStoreRun_compound (object : RuntimeValue ν) (property : String)
    {operator : AssignmentOperator} (right : RuntimeValue ν) (h : operator ≠ .assign) :
    memberStoreRun object property operator right =
      loadRun object property >>= fun current =>
        binaryRun (assignmentBinaryOp operator) current right >>= fun result =>
          storeRun object property result >>= fun _ => pure result := by
  cases operator with
  | assign => exact absurd rfl h
  | _ => rfl

theorem memberStoreRun_simulates {objectId : ℕ} {property : String} {operator : AssignmentOperator}
    {lowered : Lowered} {leftSpan span : Span} {compiled : List Instruction}
    (h : List.Forall₂ (Allotted m final)
      (memberStoreCode objectId property operator lowered leftSpan span).1 compiled)
    (hsize : (memberStoreCode objectId property operator lowered leftSpan span).2.1 ≤ 2 ^ 32)
    (hobjectId : objectId < 2 ^ 32) (hvalueId : lowered.value + 1 = lowered.next)
    {values : List (RuntimeValue ν)} {object right : RuntimeValue ν}
    (hobject : Holds values objectId object) (hright : Holds values lowered.value right)
    (hn : values.length = lowered.next) (locals : Locals ν) :
    Simulates m call compiled
      (results (memberStoreCode objectId property operator lowered leftSpan span).1)
      (fun value values => Holds values
        (memberStoreCode objectId property operator lowered leftSpan span).2.2 value)
      locals values
      (memberStoreRun object property operator right >>= fun stored => pure (stored, locals)) := by
  have hvalue : lowered.value < 2 ^ 32 := by
    have hle := memberStoreCode_le objectId property operator lowered leftSpan span
    omega
  by_cases hassign : operator = .assign
  · subst hassign
    obtain ⟨instruction, rest, hinstruction, hrest, rfl⟩ := List.forall₂_cons_left_iff.mp h
    rw [List.forall₂_nil_left_iff.mp hrest, memberStoreRun, bind_assoc]
    exact .effect (run_storeMember hinstruction rfl hobject hright hobjectId hvalue) fun _ => hright
  · have hcode := memberStoreCode_compound objectId property lowered leftSpan span hassign
    rw [hcode] at h hsize ⊢
    obtain ⟨first, rest, rfl, hload, hrest⟩ := forall₂_append h
    obtain ⟨second, last, rfl, hoperation, hlast⟩ := forall₂_append hrest
    obtain ⟨instruction, none, hstore, hnone, rfl⟩ := List.forall₂_cons_left_iff.mp hlast
    change lowered.next + 2 ≤ 2 ^ 32 at hsize
    have hcurrentId : lowered.next < 2 ^ 32 := by omega
    have hresultId : lowered.next + 1 < 2 ^ 32 := by omega
    rw [List.forall₂_nil_left_iff.mp hnone, memberStoreRun_compound object property right hassign,
      results_append, results_append, bind_locals]
    refine Simulates.bind (simulates_value hn hload rfl fun _ hinstruction =>
      run_loadMember hinstruction rfl hobject hobjectId) ?_
    intro current locals' pushed hlength hcurrent
    have hn' : (values ++ pushed).length = lowered.next + 1 := by
      rw [List.length_append, hn, hlength, results_of_produces rfl]
    rw [bind_locals]
    refine Simulates.bind (simulates_value hn' hoperation rfl fun _ hinstruction =>
      run_binary hinstruction rfl hcurrent (hright.append pushed) hcurrentId hvalue) ?_
    intro result locals'' pushed' hlength' hresult
    rw [results_of_not_produces rfl, bind_assoc]
    exact .effect (run_storeMember hstore rfl ((hobject.append pushed).append pushed') hresult
      hobjectId hresultId) fun _ => hresult

mutual

theorem runExpression_simulates (expression : Expression) {n : ℕ} {compiled : List Instruction}
    (h : List.Forall₂ (Allotted m final) (expressionCode types expression n).code compiled)
    (hsize : (expressionCode types expression n).next ≤ 2 ^ 32) (locals : Locals ν)
    {values : List (RuntimeValue ν)} (hn : values.length = n) :
    Simulates m call compiled (results (expressionCode types expression n).code)
      (fun value values => Holds values (expressionCode types expression n).value value) locals values
      (runExpression (slotOf final) call expression locals) := by
  cases expression with
  | identifier name span =>
    exact simulates_value hn h rfl fun _ hinstruction => run_loadLocal hinstruction rfl
  | number value span => exact constantRun_simulates rfl locals hn h
  | string value span => exact constantRun_simulates rfl locals hn h
  | boolean value span => exact constantRun_simulates rfl locals hn h
  | null span => exact constantRun_simulates rfl locals hn h
  | undefined span => exact constantRun_simulates rfl locals hn h
  | error span => exact constantRun_simulates rfl locals hn h
  | unary operator argument span => exact runExpression_simulates argument h hsize locals hn
  | member object property span =>
    have hobject := expressionCode_wellNumbered types object n
    have hvalue := hobject.value
    obtain ⟨first, last, rfl, hfirst, hlast⟩ := forall₂_append h
    change (expressionCode types object n).next + 1 ≤ 2 ^ 32 at hsize
    have hid : (expressionCode types object n).value < 2 ^ 32 := by omega
    dsimp only [expressionCode, Lowered.ofValue]
    rw [results_append]
    refine (runExpression_simulates object hfirst (by omega) locals hn).bind ?_
    intro a locals' pushed hlength hfound
    have hnext := next_length hobject hn hlength
    exact simulates_value hnext hlast rfl fun _ hinstruction =>
      run_loadMember hinstruction rfl hfound hid
  | binary left operator right span =>
    have hleft := expressionCode_wellNumbered types left n
    have hright := expressionCode_wellNumbered types right (expressionCode types left n).next
    have hleftValue := hleft.value
    have hrightValue := hright.value
    have hle := hright.next
    obtain ⟨both, last, rfl, hboth, hlast⟩ := forall₂_append h
    obtain ⟨first, second, rfl, hfirst, hsecond⟩ := forall₂_append hboth
    change (expressionCode types right (expressionCode types left n).next).next + 1 ≤ 2 ^ 32 at hsize
    have hleftId : (expressionCode types left n).value < 2 ^ 32 := by omega
    have hrightId : (expressionCode types right (expressionCode types left n).next).value < 2 ^ 32 := by
      omega
    dsimp only [expressionCode, Lowered.ofValue]
    rw [results_append, results_append, Nat.add_assoc,
      List.append_assoc]
    refine (runExpression_simulates left hfirst (by omega) locals hn).bind ?_
    intro a locals' pushed hlength hfound
    have hn' := next_length hleft hn hlength
    refine (runExpression_simulates right hsecond (by omega) locals' hn').bind ?_
    intro b locals'' pushed' hlength' hfound'
    exact simulates_value (next_length hright hn' hlength') hlast rfl fun _ hinstruction =>
      run_binary hinstruction rfl (hfound.append pushed') hfound' hleftId hrightId
  | call callee arguments span =>
    have harguments := expressionsCode_wellNumbered types arguments n
    have hbounds := harguments.value
    obtain ⟨first, last, rfl, hfirst, hlast⟩ := forall₂_append h
    change (expressionsCode types arguments n).2.1 + 1 ≤ 2 ^ 32 at hsize
    have hids (id : ℕ) (hid : id ∈ (expressionsCode types arguments n).2.2.map Prod.fst) :
        id < 2 ^ 32 := by
      have hlt := (hbounds id hid).2
      omega
    have hcount : ((expressionsCode types arguments n).2.2.map Prod.fst).length < 2 ^ 32 := by
      rw [List.length_map]
      have hle := Nat.le_of_add_left_le (expressionsCode_length_le types arguments n)
      exact Nat.lt_of_lt_of_le (Nat.lt_succ_of_le hle) hsize
    dsimp only [expressionCode, Lowered.ofValue]
    rw [results_append]
    refine (runExpressions_simulates arguments hfirst (by omega) locals hn).bind ?_
    intro args locals' pushed hlength hfound
    exact simulates_value (stop_length harguments hn hlength) hlast rfl fun _ hinstruction =>
      run_call hinstruction rfl hfound hids hcount
  | array elements span =>
    have helements := expressionsCode_wellNumbered types elements n
    have hbounds := helements.value
    obtain ⟨first, last, rfl, hfirst, hlast⟩ := forall₂_append h
    change (expressionsCode types elements n).2.1 + 1 ≤ 2 ^ 32 at hsize
    have hids (id : ℕ) (hid : id ∈ (expressionsCode types elements n).2.2.map Prod.fst) :
        id < 2 ^ 32 := by
      have hlt := (hbounds id hid).2
      omega
    dsimp only [expressionCode, Lowered.ofValue]
    rw [results_append]
    refine (runExpressions_simulates elements hfirst (by omega) locals hn).bind ?_
    intro found locals' pushed hlength hfound
    exact simulates_value (stop_length helements hn hlength) hlast rfl fun _ hinstruction =>
      run_array hinstruction rfl hfound hids
  | object properties span =>
    have hproperties := propertiesCode_wellNumbered types properties n
    have hbounds := hproperties.value
    obtain ⟨first, last, rfl, hfirst, hlast⟩ := forall₂_append h
    change (propertiesCode types properties n).2.1 + 1 ≤ 2 ^ 32 at hsize
    have hids (property : String × ℕ) (hmem : property ∈
        (propertiesCode types properties n).2.2.map fun field => (field.1, field.2.1)) :
        property.2 < 2 ^ 32 := by
      obtain ⟨field, hfield, rfl⟩ := List.mem_map.mp hmem
      have hlt := (hbounds _ (List.mem_map_of_mem hfield)).2
      dsimp only at hlt ⊢
      omega
    have hcount : ((propertiesCode types properties n).2.2.map fun field =>
        (field.1, field.2.1)).length < 2 ^ 32 := by
      rw [List.length_map]
      have hle := Nat.le_of_add_left_le (propertiesCode_length_le types properties n)
      exact Nat.lt_of_lt_of_le (Nat.lt_succ_of_le hle) hsize
    dsimp only [expressionCode, Lowered.ofValue]
    rw [results_append]
    refine (runProperties_simulates properties hfirst (by omega) locals hn).bind ?_
    intro fields locals' pushed hlength hfound
    exact simulates_value (stop_length hproperties hn hlength) hlast rfl fun _ hinstruction =>
      run_object hinstruction rfl hfound hids hcount
  | assignment left operator right span =>
    cases left with
    | identifier name leftSpan =>
      have hright := expressionCode_wellNumbered types right n
      have hvalue := hright.value
      obtain ⟨first, last, rfl, hfirst, hlast⟩ := forall₂_append h
      obtain ⟨instruction, rest, hinstruction, hrest, rfl⟩ := List.forall₂_cons_left_iff.mp hlast
      rw [List.forall₂_nil_left_iff.mp hrest]
      change (expressionCode types right n).next ≤ 2 ^ 32 at hsize
      have hid : (expressionCode types right n).value < 2 ^ 32 := by omega
      dsimp only [expressionCode]
      rw [results_append, results_of_not_produces rfl]
      refine (runExpression_simulates right hfirst hsize locals hn).bind ?_
      intro a locals' pushed hlength hfound
      exact .store (run_storeLocal hinstruction rfl hfound hid) hfound
    | member object property leftSpan =>
      have hobject := expressionCode_wellNumbered types object n
      have hright := expressionCode_wellNumbered types right (expressionCode types object n).next
      have hobjectValue := hobject.value
      have hle := hright.next
      obtain ⟨both, last, rfl, hboth, hlast⟩ := forall₂_append h
      obtain ⟨first, second, rfl, hfirst, hsecond⟩ := forall₂_append hboth
      have hstop := memberStoreCode_le (expressionCode types object n).value property operator
        (expressionCode types right (expressionCode types object n).next) leftSpan span
      change (memberStoreCode (expressionCode types object n).value property operator
        (expressionCode types right (expressionCode types object n).next) leftSpan span).2.1 ≤
          2 ^ 32 at hsize
      have hid : (expressionCode types object n).value < 2 ^ 32 := by omega
      dsimp only [expressionCode]
      rw [results_append, results_append, Nat.add_assoc, List.append_assoc]
      refine (runExpression_simulates object hfirst (by omega) locals hn).bind ?_
      intro a locals' pushed hlength hfound
      have hn' := next_length hobject hn hlength
      refine (runExpression_simulates right hsecond (by omega) locals' hn').bind ?_
      intro b locals'' pushed' hlength' hfound'
      exact memberStoreRun_simulates hlast hsize hid hright.value (hfound.append pushed') hfound'
        (next_length hright hn' hlength') locals''
    | _ => exact runExpression_simulates right h hsize locals hn

theorem runExpressions_simulates (expressions : List Expression) {n : ℕ}
    {compiled : List Instruction}
    (h : List.Forall₂ (Allotted m final) (expressionsCode types expressions n).1 compiled)
    (hsize : (expressionsCode types expressions n).2.1 ≤ 2 ^ 32) (locals : Locals ν)
    {values : List (RuntimeValue ν)} (hn : values.length = n) :
    Simulates m call compiled (results (expressionsCode types expressions n).1)
      (fun found values => List.Forall₂ (Holds values)
        ((expressionsCode types expressions n).2.2.map Prod.fst) found) locals values
      (runExpressions (slotOf final) call expressions locals) := by
  match expressions with
  | [] =>
    cases h
    exact .nil .nil
  | expression :: expressions =>
    have hexpression := expressionCode_wellNumbered types expression n
    have hexpressions := expressionsCode_wellNumbered types expressions
      (expressionCode types expression n).next
    have hle := hexpressions.next
    obtain ⟨first, second, rfl, hfirst, hsecond⟩ := forall₂_append h
    change (expressionsCode types expressions (expressionCode types expression n).next).2.1 ≤ 2 ^ 32
      at hsize
    rw [expressionsCode, results_append, runExpressions]
    refine (runExpression_simulates expression hfirst (by omega) locals hn).bind ?_
    intro a locals' pushed hlength hfound
    refine Simulates.map (runExpressions_simulates expressions hsecond hsize locals'
      (next_length hexpression hn hlength)) (fun rest => a :: rest) ?_
    intro rest pushed' hrest
    exact .cons (hfound.append pushed') hrest

theorem runProperties_simulates (properties : List ObjectProperty) {n : ℕ}
    {compiled : List Instruction}
    (h : List.Forall₂ (Allotted m final) (propertiesCode types properties n).1 compiled)
    (hsize : (propertiesCode types properties n).2.1 ≤ 2 ^ 32) (locals : Locals ν)
    {values : List (RuntimeValue ν)} (hn : values.length = n) :
    Simulates m call compiled (results (propertiesCode types properties n).1)
      (fun fields values => List.Forall₂
        (fun property field => property.1 = field.1 ∧ Holds values property.2 field.2)
        ((propertiesCode types properties n).2.2.map fun field => (field.1, field.2.1)) fields)
      locals values (runProperties (slotOf final) call properties locals) := by
  match properties with
  | [] =>
    cases h
    exact .nil .nil
  | .mk name value span :: properties =>
    have hvalue := expressionCode_wellNumbered types value n
    have hproperties := propertiesCode_wellNumbered types properties
      (expressionCode types value n).next
    have hle := hproperties.next
    obtain ⟨first, second, rfl, hfirst, hsecond⟩ := forall₂_append h
    change (propertiesCode types properties (expressionCode types value n).next).2.1 ≤ 2 ^ 32
      at hsize
    rw [propertiesCode, results_append, runProperties]
    refine (runExpression_simulates value hfirst (by omega) locals hn).bind ?_
    intro a locals' pushed hlength hfound
    refine Simulates.map (runProperties_simulates properties hsecond hsize locals'
      (next_length hvalue hn hlength)) (fun rest => (name, a) :: rest) ?_
    intro rest pushed' hrest
    exact .cons ⟨rfl, hfound.append pushed'⟩ hrest

end

end Code

end Tsvm.ExpressionRuns
