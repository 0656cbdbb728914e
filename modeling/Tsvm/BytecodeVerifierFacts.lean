import Mathlib.Data.List.Basic
import Mathlib.Data.Fintype.Basic
import Tsvm.BytecodeVerifier

set_option autoImplicit false

/-!
# What acceptance says

`Checked` lists, one constructor for each opcode, the instructions the verifier
accepts and the block state it continues with. Results about accepted modules
use it by case analysis and never unfold the checks again.
-/
namespace Tsvm.BytecodeVerifierFacts
open Bytecode BytecodeVerifier

@[simp] theorem report_eq_nil {bad : Prop} [Decidable bad] {code : VerifyErrorCode}
    {message : String} : report bad code message = [] ↔ ¬ bad := by
  unfold report
  split <;> simp [*]

def Accepted (m : BytecodeModule) : Prop := verifyModule m = .ok ()

theorem accepted_iff (m : BytecodeModule) : Accepted m ↔ verify m = [] := by
  unfold Accepted verifyModule
  cases verify m <;> simp

def BlockState.define (s : BlockState) : BlockState :=
  { s with definedValues := insert (.ofNat s.definedValues.card) s.definedValues }

/-- The state after a store: only a store to the next free slot adds a local. -/
def BlockState.store (s : BlockState) (slot : UInt32) : BlockState :=
  { s with localCount := if slot = s.localCount then s.localCount + 1 else s.localCount }

def flattenPairs (pairs : List (UInt32 × UInt32)) : List UInt32 :=
  pairs.flatMap fun pair => [pair.1, pair.2]

section

variable (m : BytecodeModule) (ids : List UInt32)

def ConstantIndex (index : UInt32) : Prop := index.toNat < m.constants.length

inductive Checked : Instruction → BlockState → BlockState → Prop where
  | loadConst {c src : UInt32} {tag : TypeTag} {s : BlockState} (hc : ConstantIndex m c) :
      Checked ⟨.loadConst, [c], tag, src⟩ s (BlockState.define s)
  | buildObject {count src : UInt32} {tag : TypeTag} {s : BlockState}
      {pairs : List (UInt32 × UInt32)} (hcount : count.toNat = pairs.length)
      (hpairs : ∀ pair ∈ pairs, ConstantIndex m pair.1 ∧ pair.2 ∈ s.definedValues) :
      Checked ⟨.buildObject, count :: flattenPairs pairs, tag, src⟩ s (BlockState.define s)
  | buildArray {count src : UInt32} {tag : TypeTag} {s : BlockState} {elements : List UInt32}
      (hcount : count.toNat = elements.length)
      (helements : ∀ element ∈ elements, element ∈ s.definedValues) :
      Checked ⟨.buildArray, count :: elements, tag, src⟩ s (BlockState.define s)
  | loadLocal {slot src : UInt32} {tag : TypeTag} {s : BlockState} (hslot : slot < s.localCount) :
      Checked ⟨.loadLocal, [slot], tag, src⟩ s (BlockState.define s)
  | storeLocal {slot value src : UInt32} {tag : TypeTag} {s : BlockState}
      (hslot : slot ≤ s.localCount) (hvalue : value ∈ s.definedValues) :
      Checked ⟨.storeLocal, [slot, value], tag, src⟩ s (BlockState.store s slot)
  | loadMember {object property src : UInt32} {tag : TypeTag} {s : BlockState}
      (hobject : object ∈ s.definedValues) (hproperty : ConstantIndex m property) :
      Checked ⟨.loadMember, [object, property], tag, src⟩ s (BlockState.define s)
  | storeMember {object property value src : UInt32} {tag : TypeTag} {s : BlockState}
      (hobject : object ∈ s.definedValues) (hproperty : ConstantIndex m property)
      (hvalue : value ∈ s.definedValues) :
      Checked ⟨.storeMember, [object, property, value], tag, src⟩ s s
  | binary {op left right src : UInt32} {tag : TypeTag} {s : BlockState}
      (hleft : left ∈ s.definedValues) (hright : right ∈ s.definedValues)
      (htag : tag ≠ .unknown) :
      Checked ⟨.binary, [op, left, right], tag, src⟩ s (BlockState.define s)
  | call {callee argc src : UInt32} {tag : TypeTag} {s : BlockState} {args : List UInt32}
      (hcallee : ConstantIndex m callee) (hargc : argc.toNat = args.length)
      (hargs : ∀ arg ∈ args, arg ∈ s.definedValues) :
      Checked ⟨.call, callee :: argc :: args, tag, src⟩ s (BlockState.define s)
  | branch {condition thenBlock elseBlock src : UInt32} {tag : TypeTag} {s : BlockState}
      (hcondition : condition ∈ s.definedValues) (hthen : thenBlock ∈ ids)
      (helse : elseBlock ∈ ids) :
      Checked ⟨.branch, [condition, thenBlock, elseBlock], tag, src⟩ s s
  | jump {target src : UInt32} {tag : TypeTag} {s : BlockState} (htarget : target ∈ ids) :
      Checked ⟨.jump, [target], tag, src⟩ s s
  | returnVoid {src : UInt32} {tag : TypeTag} {s : BlockState} :
      Checked ⟨.return, [], tag, src⟩ s s
  | returnValue {value src : UInt32} {tag : TypeTag} {s : BlockState}
      (hvalue : value ∈ s.definedValues) :
      Checked ⟨.return, [value], tag, src⟩ s s

end

theorem chunkPairs_flattenPairs (pairs : List (UInt32 × UInt32)) :
    chunkPairs (flattenPairs pairs) = pairs.map fun pair => (pair.1, some pair.2) := by
  induction pairs with
  | nil => rfl
  | cons pair pairs ih =>
    change (pair.1, some pair.2) :: chunkPairs (flattenPairs pairs) = _
    rw [ih, List.map_cons]

theorem flattenPairs_length (pairs : List (UInt32 × UInt32)) :
    (flattenPairs pairs).length = pairs.length * 2 := by
  induction pairs with
  | nil => rfl
  | cons pair pairs ih =>
    change (flattenPairs pairs).length + 2 = (pairs.length + 1) * 2
    omega

theorem exists_flattenPairs (n : ℕ) (operands : List UInt32) (h : operands.length = n * 2) :
    ∃ pairs, operands = flattenPairs pairs ∧ pairs.length = n := by
  induction n generalizing operands with
  | zero => exact ⟨[], List.length_eq_zero_iff.mp (by omega), rfl⟩
  | succ n ih =>
    match operands, h with
    | [_], h => simp only [List.length_cons, List.length_nil] at h; omega
    | name :: value :: rest, h =>
      obtain ⟨pairs, hrest, hlen⟩ := ih rest (by simp only [List.length_cons] at h; omega)
      exact ⟨(name, value) :: pairs, by rw [hrest]; rfl, by rw [List.length_cons, hlen]⟩

section Checks

variable {m : BytecodeModule} {ids : List UInt32} {s t : BlockState} {operands : List UInt32}
  {tag : TypeTag} {src : UInt32}

@[simp] theorem checkConstant_eq_nil {index : UInt32} :
    checkConstant m (some index) = [] ↔ ConstantIndex m index := by
  simp [checkConstant, ConstantIndex]

@[simp] theorem checkValue_eq_nil {index : UInt32} {defined : Finset UInt32} :
    checkValue (some index) defined = [] ↔ index ∈ defined := by
  simp [checkValue]

@[simp] theorem checkLocal_eq_nil {index localCount : UInt32} :
    checkLocal (some index) localCount = [] ↔ index < localCount := by
  simp [checkLocal]

@[simp] theorem checkBlock_eq_nil {index : UInt32} :
    checkBlock (some index) ids = [] ↔ index ∈ ids := by
  simp [checkBlock]

theorem expectOperands_eq_nil {instruction : Instruction} {count : ℕ} :
    expectOperands instruction count = [] ↔ instruction.operands.length = count := by
  simp [expectOperands]

theorem checkPairs_eq_nil (pairs : List (UInt32 × UInt32)) :
    ((chunkPairs (flattenPairs pairs)).flatMap fun pair =>
      checkConstant m (some pair.1) ++ checkValue pair.2 s.definedValues) = [] ↔
    ∀ pair ∈ pairs, ConstantIndex m pair.1 ∧ pair.2 ∈ s.definedValues := by
  rw [chunkPairs_flattenPairs, List.flatMap_map, List.flatMap_eq_nil_iff]
  simp only [List.append_eq_nil_iff, checkConstant_eq_nil, checkValue_eq_nil]

/-- Whatever the checks accept has one of the listed shapes. -/
theorem Checked.of_checkOperands {i : Instruction}
    (h : checkOperands m ids i s = ([], t)) : Checked m ids i s t := by
  obtain ⟨opcode, operands, tag, src⟩ := i
  cases opcode with
  | loadConst =>
    simp only [checkOperands, Prod.mk.injEq, List.append_eq_nil_iff, expectOperands_eq_nil] at h
    obtain ⟨⟨hlen, hc⟩, rfl⟩ := h
    obtain ⟨c, rfl⟩ := List.length_eq_one_iff.mp hlen
    exact .loadConst (checkConstant_eq_nil.mp hc)
  | buildObject =>
    match operands with
    | [] => simp [checkOperands] at h
    | count :: rest =>
      simp only [checkOperands, Prod.mk.injEq, List.append_eq_nil_iff, report_eq_nil,
        List.length_cons, ne_eq, not_not] at h
      obtain ⟨⟨hlen, hpairs⟩, rfl⟩ := h
      obtain ⟨pairs, rfl, hcount⟩ := exists_flattenPairs count.toNat rest (by omega)
      exact .buildObject hcount.symm ((checkPairs_eq_nil pairs).mp hpairs)
  | buildArray =>
    match operands with
    | [] => simp [checkOperands] at h
    | count :: elements =>
      simp only [checkOperands, Prod.mk.injEq, List.append_eq_nil_iff, report_eq_nil,
        List.length_cons, ne_eq, not_not, List.flatMap_eq_nil_iff, checkValue_eq_nil] at h
      obtain ⟨⟨hlen, helements⟩, rfl⟩ := h
      exact .buildArray (by omega) helements
  | loadLocal =>
    simp only [checkOperands, Prod.mk.injEq, List.append_eq_nil_iff, expectOperands_eq_nil] at h
    obtain ⟨⟨hlen, hslot⟩, rfl⟩ := h
    obtain ⟨slot, rfl⟩ := List.length_eq_one_iff.mp hlen
    exact .loadLocal (checkLocal_eq_nil.mp hslot)
  | storeLocal =>
    simp only [checkOperands, Prod.mk.injEq, List.append_eq_nil_iff, expectOperands_eq_nil] at h
    obtain ⟨⟨⟨hlen, hstore⟩, hvalue⟩, rfl⟩ := h
    obtain ⟨slot, value, rfl⟩ := List.length_eq_two.mp hlen
    have hslot : slot ≤ s.localCount := by
      simpa [checkStore] using hstore
    exact .storeLocal hslot (checkValue_eq_nil.mp hvalue)
  | loadMember =>
    simp only [checkOperands, Prod.mk.injEq, List.append_eq_nil_iff, expectOperands_eq_nil] at h
    obtain ⟨⟨⟨hlen, hobject⟩, hproperty⟩, rfl⟩ := h
    obtain ⟨object, property, rfl⟩ := List.length_eq_two.mp hlen
    exact .loadMember (checkValue_eq_nil.mp hobject) (checkConstant_eq_nil.mp hproperty)
  | storeMember =>
    simp only [checkOperands, Prod.mk.injEq, List.append_eq_nil_iff, expectOperands_eq_nil] at h
    obtain ⟨⟨⟨⟨hlen, hobject⟩, hproperty⟩, hvalue⟩, rfl⟩ := h
    obtain ⟨object, property, value, rfl⟩ := List.length_eq_three.mp hlen
    exact .storeMember (checkValue_eq_nil.mp hobject) (checkConstant_eq_nil.mp hproperty)
      (checkValue_eq_nil.mp hvalue)
  | binary =>
    simp only [checkOperands, Prod.mk.injEq, List.append_eq_nil_iff, expectOperands_eq_nil,
      report_eq_nil] at h
    obtain ⟨⟨⟨⟨hlen, hleft⟩, hright⟩, htag⟩, rfl⟩ := h
    obtain ⟨op, left, right, rfl⟩ := List.length_eq_three.mp hlen
    exact .binary (checkValue_eq_nil.mp hleft) (checkValue_eq_nil.mp hright) htag
  | call =>
    match operands with
    | [] => simp [checkOperands] at h
    | [_] => simp [checkOperands] at h
    | callee :: argc :: args =>
      simp only [checkOperands, Prod.mk.injEq, List.append_eq_nil_iff, report_eq_nil,
        List.length_cons, ne_eq, not_not, List.flatMap_eq_nil_iff, checkValue_eq_nil,
        checkConstant_eq_nil] at h
      obtain ⟨⟨⟨hcallee, hlen⟩, hargs⟩, rfl⟩ := h
      exact .call hcallee (by omega) hargs
  | branch =>
    simp only [checkOperands, Prod.mk.injEq, List.append_eq_nil_iff, expectOperands_eq_nil] at h
    obtain ⟨⟨⟨⟨hlen, hcondition⟩, hthen⟩, helse⟩, rfl⟩ := h
    obtain ⟨condition, thenBlock, elseBlock, rfl⟩ := List.length_eq_three.mp hlen
    exact .branch (checkValue_eq_nil.mp hcondition) (checkBlock_eq_nil.mp hthen)
      (checkBlock_eq_nil.mp helse)
  | jump =>
    simp only [checkOperands, Prod.mk.injEq, List.append_eq_nil_iff, expectOperands_eq_nil] at h
    obtain ⟨⟨hlen, htarget⟩, rfl⟩ := h
    obtain ⟨target, rfl⟩ := List.length_eq_one_iff.mp hlen
    exact .jump (checkBlock_eq_nil.mp htarget)
  | «return» =>
    match operands with
    | [] =>
      simp only [checkOperands, Prod.mk.injEq] at h
      obtain ⟨_, rfl⟩ := h
      exact .returnVoid
    | value :: rest =>
      simp only [checkOperands, Prod.mk.injEq, List.append_eq_nil_iff, report_eq_nil,
        List.length_cons] at h
      obtain ⟨⟨hlen, hvalue⟩, rfl⟩ := h
      obtain rfl := List.length_eq_zero_iff.mp (show rest.length = 0 by omega)
      exact .returnValue (checkValue_eq_nil.mp hvalue)

theorem Checked.checkOperands {i : Instruction} (h : Checked m ids i s t) :
    BytecodeVerifier.checkOperands m ids i s = ([], t) := by
  cases h with
  | loadConst hc =>
    refine Prod.ext ?_ rfl
    simp [BytecodeVerifier.checkOperands, expectOperands, hc]
  | @buildObject count _ _ _ pairs hcount hpairs =>
    refine Prod.ext ?_ rfl
    have hlen := flattenPairs_length pairs
    have hchecks := (checkPairs_eq_nil pairs).mpr hpairs
    simp only [BytecodeVerifier.checkOperands, hchecks, List.append_nil, report_eq_nil,
      List.length_cons, hlen, hcount, not_not, ne_eq]
    omega
  | buildArray hcount helements =>
    refine Prod.ext ?_ rfl
    simp only [BytecodeVerifier.checkOperands, List.append_eq_nil_iff, report_eq_nil,
      List.flatMap_eq_nil_iff, checkValue_eq_nil, List.length_cons, hcount, ne_eq, not_not]
    exact ⟨trivial, helements⟩
  | loadLocal hslot =>
    refine Prod.ext ?_ rfl
    simp [BytecodeVerifier.checkOperands, expectOperands, hslot]
  | storeLocal hslot hvalue =>
    refine Prod.ext ?_ rfl
    simp [BytecodeVerifier.checkOperands, expectOperands, checkStore, hslot, hvalue]
  | loadMember hobject hproperty =>
    refine Prod.ext ?_ rfl
    simp [BytecodeVerifier.checkOperands, expectOperands, hobject, hproperty]
  | storeMember hobject hproperty hvalue =>
    simp [BytecodeVerifier.checkOperands, expectOperands, hobject, hproperty, hvalue]
  | binary hleft hright htag =>
    refine Prod.ext ?_ rfl
    simp [BytecodeVerifier.checkOperands, expectOperands, hleft, hright, htag]
  | call hcallee hargc hargs =>
    refine Prod.ext ?_ rfl
    simp only [BytecodeVerifier.checkOperands, List.append_eq_nil_iff, report_eq_nil,
      List.flatMap_eq_nil_iff, checkValue_eq_nil, checkConstant_eq_nil, List.length_cons, hargc,
      ne_eq, not_not]
    exact ⟨⟨hcallee, trivial⟩, hargs⟩
  | branch hcondition hthen helse =>
    simp [BytecodeVerifier.checkOperands, expectOperands, hcondition, hthen, helse]
  | jump htarget => simp [BytecodeVerifier.checkOperands, expectOperands, htarget]
  | returnVoid => simp [BytecodeVerifier.checkOperands]
  | returnValue hvalue => simp [BytecodeVerifier.checkOperands, hvalue]

theorem Checked.verifyInstruction_eq_nil {i : Instruction} :
    verifyInstruction m ids i s = ([], t) ↔
      i.sourceRef.toNat < m.sourceMap.length ∧ Checked m ids i s t := by
  unfold verifyInstruction
  constructor
  · intro h
    simp only [Prod.mk.injEq, List.append_eq_nil_iff, report_eq_nil, not_le] at h
    exact ⟨h.1.1, .of_checkOperands (Prod.ext h.1.2 h.2)⟩
  · rintro ⟨hsource, h⟩
    rw [h.checkOperands]
    simpa using hsource

end Checks

/-- The verifier's state before the instruction at `pc`. -/
def stateBefore (m : BytecodeModule) (ids : List UInt32) (instructions : List Instruction)
    (s : BlockState) (pc : ℕ) : BlockState :=
  (instructions.take pc).foldl (fun s i => (verifyInstruction m ids i s).2) s

theorem checked_at {m : BytecodeModule} {ids : List UInt32} {instructions : List Instruction}
    {s : BlockState} (h : verifyInstructions m ids instructions s = []) {pc : ℕ} {i : Instruction}
    (hi : instructions[pc]? = some i) :
    i.sourceRef.toNat < m.sourceMap.length ∧
      Checked m ids i (stateBefore m ids instructions s pc)
        (stateBefore m ids instructions s (pc + 1)) := by
  induction instructions generalizing s pc with
  | nil => simp at hi
  | cons first rest ih =>
    simp only [verifyInstructions, List.append_eq_nil_iff] at h
    cases pc with
    | zero =>
      simp only [List.getElem?_cons_zero, Option.some.injEq] at hi
      subst hi
      exact Checked.verifyInstruction_eq_nil.mp (Prod.ext h.1 rfl)
    | succ pc => exact ih h.2 (by simpa using hi)

def definitions (instructions : List Instruction) : ℕ :=
  instructions.countP fun i => definesValue i.opcode

/-- The defined values are the numbers below `k`, as far as a `u32` can count. -/
def Numbered (s : BlockState) (k : ℕ) : Prop :=
  (∀ v, v ∈ s.definedValues ↔ v.toNat < k) ∧ s.definedValues.card = min k (2 ^ 32)

theorem Numbered.define {s : BlockState} {k : ℕ} (h : Numbered s k) :
    Numbered (BlockState.define s) (k + 1) := by
  obtain ⟨hmem, hcard⟩ := h
  by_cases hk : k < 2 ^ 32
  · have hnext : (UInt32.ofNat s.definedValues.card).toNat = k := by
      rw [hcard, Nat.min_eq_left (by omega), UInt32.toNat_ofNat_of_lt' hk]
    have hfresh : UInt32.ofNat s.definedValues.card ∉ s.definedValues := by
      rw [hmem, hnext]
      exact Nat.lt_irrefl k
    refine ⟨fun v => ?_, ?_⟩
    · simp only [BlockState.define, Finset.mem_insert, hmem, ← UInt32.toNat_inj, hnext]
      omega
    · change (insert _ s.definedValues).card = _
      rw [Finset.card_insert_of_notMem hfresh, hcard]
      omega
  · have hall : ∀ v, v ∈ s.definedValues := by
      intro v
      have hv := v.toNat_lt
      rw [hmem]
      omega
    have hsame : BlockState.define s = s := by
      simp only [BlockState.define, Finset.insert_eq_of_mem (hall _)]
    rw [hsame]
    refine ⟨fun v => ?_, by omega⟩
    have hv := v.toNat_lt
    simp only [hall, true_iff]
    omega

theorem Numbered.checked {m : BytecodeModule} {ids : List UInt32} {i : Instruction}
    {s t : BlockState} {k : ℕ} (h : Numbered s k) (hi : Checked m ids i s t) :
    Numbered t (k + definitions [i]) := by
  cases hi with
  | loadConst | buildObject | buildArray | loadLocal | loadMember | binary | call => exact h.define
  | storeLocal | storeMember | branch | jump | returnVoid | returnValue => exact h

theorem definitions_take_succ {instructions : List Instruction} {pc : ℕ} {i : Instruction}
    (hi : instructions[pc]? = some i) :
    definitions (instructions.take (pc + 1)) =
      definitions (instructions.take pc) + definitions [i] := by
  rw [List.take_add_one, hi, definitions, List.countP_append]
  rfl

/-- In an accepted block the values defined before `pc` are exactly the numbers
    below the count of value-producing instructions before `pc`. -/
theorem numbered_before {m : BytecodeModule} {function : BytecodeFunction}
    {instructions : List Instruction}
    (h : verifyInstructions m (blockIds function) instructions (blockStart function) = [])
    (pc : ℕ) (hpc : pc ≤ instructions.length) :
    Numbered (stateBefore m (blockIds function) instructions (blockStart function) pc)
      (definitions (instructions.take pc)) := by
  induction pc with
  | zero => exact ⟨fun v => by simp [stateBefore, blockStart, definitions], rfl⟩
  | succ pc ih =>
    have hi := List.getElem?_eq_getElem (show pc < instructions.length by omega)
    rw [definitions_take_succ hi]
    exact (ih (by omega)).checked (checked_at h hi).2

structure AcceptedFunction (m : BytecodeModule) (function : BytecodeFunction) : Prop where
  entries : ∀ entry ∈ function.exceptionTable, checkExceptionEntry (blockIds function) entry = []
  blocks : ∀ block ∈ function.blocks,
    verifyInstructions m (blockIds function) block.instructions (blockStart function) = []
  terminator : ∃ block ∈ function.blocks, hasTerminator block = true

theorem verifyFunction_eq_nil (m : BytecodeModule) (function : BytecodeFunction) :
    verifyFunction m function = [] ↔ AcceptedFunction m function := by
  simp only [verifyFunction, List.append_eq_nil_iff, List.flatMap_eq_nil_iff, report_eq_nil,
    not_not, List.any_eq_true]
  exact ⟨fun h => ⟨h.1.1, h.1.2, h.2⟩, fun h => ⟨⟨h.entries, h.blocks⟩, h.terminator⟩⟩

structure AcceptedModule (m : BytecodeModule) : Prop where
  header : m.header = currentHeader
  functions : m.functions ≠ []
  function : ∀ function ∈ m.functions, AcceptedFunction m function

theorem accepted_iff_parts (m : BytecodeModule) : Accepted m ↔ AcceptedModule m := by
  have hheader : m.header = currentHeader ↔
      m.header.magic = bytecodeMagic ∧ m.header.version = bytecodeVersion := by
    obtain ⟨⟨magic, version⟩, _, _, _⟩ := m
    simp [currentHeader]
  simp only [accepted_iff, verify, List.append_eq_nil_iff, report_eq_nil, List.flatMap_eq_nil_iff,
    verifyFunction_eq_nil, not_or, ne_eq, not_not]
  exact ⟨fun h => ⟨hheader.mpr h.1.1, h.1.2, h.2⟩,
    fun h => ⟨⟨hheader.mp h.header, h.functions⟩, h.function⟩⟩

end Tsvm.BytecodeVerifierFacts
