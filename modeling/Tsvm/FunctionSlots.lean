import Mathlib.Data.List.Forall2
import Tsvm.CompiledValues
import Tsvm.CompilerAcceptance

set_option autoImplicit false

/-!
# One slot for each name of a function

The slots of a function only get more, so the ones behind its last block are those
of every instruction before.
-/
namespace Tsvm.FunctionSlots
open Bytecode BytecodeVerifier Interop Ir Lowering Compilation RuntimeValues Interpreter
  InterpreterSteps
open LoweringCode LoweringBlocks CompiledOperands CompiledSlots CompiledValues CompilerAcceptance

def Keeps (slots final : LocalSlots) : Prop :=
  ∀ name id, slots.ids.lookup name = some id → final.ids.lookup name = some id

section

variable {m : BytecodeModule} {params : List String} {slots slots' final : LocalSlots}

theorem Keeps.refl (slots : LocalSlots) : Keeps slots slots := fun _ _ h => h

theorem Keeps.trans (h : Keeps slots slots') (h' : Keeps slots' final) : Keeps slots final :=
  fun name id hid => h' name id (h name id hid)

theorem keeps_localId (name : String) (slots : LocalSlots) :
    Keeps slots (localId name slots).2 := by
  intro name' id hid
  by_cases hname : name' = name
  · rw [hname] at hid ⊢
    rw [localId_of_lookup hid]
    exact hid
  · rw [localId_lookup_ne hname]
    exact hid

theorem keeps_slotsAfter (kind : IrInstructionKind) (slots : LocalSlots) :
    Keeps slots (slotsAfter kind slots) := by
  cases kind with
  | loadLocal name => exact keeps_localId name slots
  | storeLocal name value => exact keeps_localId name slots
  | _ => exact .refl slots

theorem RefersCode.keeps {code : List IrInstruction} {compiled : List Instruction}
    (h : RefersCode m slots code compiled slots') : Keeps slots slots' := by
  induction h with
  | nil => exact .refl _
  | @cons slots next slots' instruction _ _ _ _ _ _ _ hnext _ ih =>
    rw [hnext] at ih
    exact (keeps_slotsAfter instruction.kind slots).trans ih

/-- The compiled instruction, in a function that has these slots in the end. -/
structure Allotted (m : BytecodeModule) (final : LocalSlots) (instruction : IrInstruction)
    (compiled : Instruction) : Prop where
  refers : ∃ slots, Keeps (slotsAfter instruction.kind slots) final ∧
    Refers m slots instruction.kind compiled.opcode compiled.operands
  typeTag : compiled.typeTag = Compilation.typeTag instruction.ty

theorem Allotted.loadLocal {instruction : IrInstruction} {compiled : Instruction}
    (h : Allotted m final instruction compiled) (hop : compiled.opcode = .loadLocal) :
    ∃ name slot, instruction.kind = .loadLocal name ∧ final.ids.lookup name = some slot ∧
      compiled.operands = [slot] := by
  obtain ⟨slots, hkeeps, hrefers⟩ := h.refers
  generalize hkind : instruction.kind = kind at hkeeps hrefers
  generalize hoperands : compiled.operands = operands at hrefers
  rw [hop] at hrefers
  cases hrefers with
  | @loadLocal name => exact ⟨name, _, rfl, hkeeps name _ (localId_lookup name slots), rfl⟩

theorem Allotted.storeLocal {instruction : IrInstruction} {compiled : Instruction}
    (h : Allotted m final instruction compiled) (hop : compiled.opcode = .storeLocal) :
    ∃ name value slot, instruction.kind = .storeLocal name value ∧
      final.ids.lookup name = some slot ∧ compiled.operands = [slot, .ofNat value] := by
  obtain ⟨slots, hkeeps, hrefers⟩ := h.refers
  generalize hkind : instruction.kind = kind at hkeeps hrefers
  generalize hoperands : compiled.operands = operands at hrefers
  rw [hop] at hrefers
  cases hrefers with
  | @storeLocal name value =>
    exact ⟨name, value, _, rfl, hkeeps name _ (localId_lookup name slots), rfl⟩

theorem RefersCode.allotted {code : List IrInstruction} {compiled : List Instruction}
    (h : RefersCode m slots code compiled slots') (hfinal : Keeps slots' final) :
    List.Forall₂ (Allotted m final) code compiled := by
  induction h with
  | nil => exact .nil
  | @cons slots next slots' instruction code opcode operands sourceRef compiled hkind _ hnext
      hrest ih =>
    have hafter := (RefersCode.keeps hrest).trans hfinal
    rw [hnext] at hafter
    exact .cons ⟨⟨slots, hafter, hkind⟩, rfl⟩ (ih hfinal)

/-- The slots that a function has in the end. -/
structure EndSlots (m : BytecodeModule) (params : List String) (slots : LocalSlots)
    (blocks : List IrBlock) (compiled : List BytecodeBlock) (final : LocalSlots) : Prop where
  keeps : Keeps slots final
  slots : SlotsFor params 0 final
  blocks : List.Forall₂ (fun block compiled => compiled.id = .ofNat block.id ∧
    List.Forall₂ (Allotted m final) block.instructions compiled.instructions) blocks compiled

def codeSlots (slots : LocalSlots) (code : List IrInstruction) : LocalSlots :=
  code.foldl (fun slots instruction => slotsAfter instruction.kind slots) slots

def blocksSlots (slots : LocalSlots) (blocks : List IrBlock) : LocalSlots :=
  blocks.foldl (fun slots block => codeSlots slots block.instructions) slots

theorem RefersCode.slots_eq {code : List IrInstruction} {compiled : List Instruction}
    (h : RefersCode m slots code compiled slots') : slots' = codeSlots slots code := by
  induction h with
  | nil => rfl
  | cons _ _ hnext _ ih => rw [ih, hnext, codeSlots, codeSlots, List.foldl_cons]

theorem RefersBlocks.endSlots {blocks : List IrBlock} {compiled : List BytecodeBlock}
    (h : RefersBlocks m slots blocks compiled) (hslots : SlotsFor params (blocksSize blocks) slots) :
    EndSlots m params slots blocks compiled (blocksSlots slots blocks) := by
  induction h with
  | nil => exact ⟨.refl _, hslots, .nil⟩
  | @cons slots slots' block blocks instructions compiled hcode _ ih =>
    rw [blocksSize_cons] at hslots
    obtain ⟨hkeeps, hfinal, hblocks⟩ := ih (slotsFor_behind hcode (hslots.mono (by omega)))
    obtain rfl := RefersCode.slots_eq hcode
    exact ⟨(RefersCode.keeps hcode).trans hkeeps, hfinal,
      .cons ⟨rfl, RefersCode.allotted hcode hkeeps⟩ hblocks⟩

end

/-- The code of a function with the slots that it has in the end. -/
structure FunctionCode (m : BytecodeModule) (function : IrFunction) (compiled : BytecodeFunction)
    (final : LocalSlots) : Prop where
  code : EndSlots m (function.params.map IrParam.name) (parameterSlots function.params)
    function.blocks compiled.blocks final
  params : compiled.params = function.params.map fun param => typeTag param.ty
  ids : ∀ i (block : IrBlock), function.blocks[i]? = some block → block.id = i
  length : function.blocks.length < 2 ^ 32

theorem length_le_blocksSize (blocks : List IrBlock) : blocks.length ≤ blocksSize blocks := by
  induction blocks with
  | nil => exact Nat.le_refl 0
  | cons block blocks ih =>
    rw [blocksSize_cons, List.length_cons]
    omega

def finalSlots (function : IrFunction) : LocalSlots :=
  blocksSlots (parameterSlots function.params) function.blocks

theorem compile_functionCode (program : Ast.Program)
    (hsize : irSize (lowerProgram program) ≤ 2 ^ 32) :
    List.Forall₂ (fun function compiled =>
        FunctionCode (compile (lowerProgram program)) function compiled (finalSlots function))
      (allFunctions (lowerProgram program)) (compile (lowerProgram program)).functions := by
  have hrefers := compile_refers (lowerProgram program) hsize
  refine List.Forall₂.imp ?_ ((List.forall₂_and_left _ _).mpr ⟨fun function hmem => hmem, hrefers⟩)
  rintro function compiled ⟨hmem, h⟩
  have hle := functionSize_le_irSize hmem
  have hlength := length_le_blocksSize function.blocks
  obtain ⟨_, hnumbering⟩ := lowerProgram_numbering program hmem
  unfold functionSize at hle
  have hslots := RefersBlocks.endSlots h.blocks (parameterSlots_slotsFor function.params (by omega))
  exact ⟨hslots, h.params, hnumbering.ids, by omega⟩

section

variable {ν : Type} {m : BytecodeModule} {function : IrFunction} {compiled : BytecodeFunction}
  {final : LocalSlots} {p q : Point ν}

structure Stands (m : BytecodeModule) (function : IrFunction) (compiled : BytecodeFunction)
    (final : LocalSlots) (p : Point ν) : Prop where
  runs : p.function = compiled
  code : List.Forall₂ (Allotted m final) (irCode function p) p.block.instructions

theorem FunctionCode.findBlock (h : FunctionCode m function compiled final) {target : UInt32}
    {block : BytecodeBlock} (hblock : findBlock compiled target = .ok block)
    (hruns : p.function = compiled) (hp : p.block = block) :
    Stands m function compiled final p ∧ p.block.id = target := by
  obtain ⟨hmem, hid⟩ := findBlock_eq_ok hblock
  obtain ⟨k, hk⟩ := List.getElem?_of_mem hmem
  obtain ⟨irBlock, hirBlock, hcompiledId, hcode⟩ := CompiledCode.forall₂_getElem? h.code.blocks hk
  have hlt := (List.getElem?_eq_some_iff.mp hirBlock).1
  have hlength := h.length
  have htoNat : p.block.id.toNat = k := by
    rw [hp, hcompiledId, h.ids k irBlock hirBlock, UInt32.toNat_ofNat']
    exact Nat.mod_eq_of_lt (by omega)
  refine ⟨⟨hruns, ?_⟩, by rw [hp, hid]⟩
  rw [irCode, htoNat, hirBlock, hp]
  exact hcode

theorem FunctionCode.begins (h : FunctionCode m function compiled final)
    (hp : Begins compiled p) :
    Stands m function compiled final p ∧ p.block.id = 0 ∧ p.pc = 0 ∧ p.frame.values = [] := by
  obtain ⟨block, args, machine, hblock, rfl⟩ := hp
  obtain ⟨hstands, hid⟩ := h.findBlock (p := entry compiled block args machine) hblock rfl rfl
  exact ⟨hstands, hid, rfl, rfl⟩

theorem Stands.instruction (h : Stands m function compiled final p) {compiledInstruction : Instruction}
    (hi : p.instruction = some compiledInstruction) :
    ∃ instruction, irInstruction function p = some instruction ∧
      Allotted m final instruction compiledInstruction :=
  CompiledCode.forall₂_getElem? h.code hi

variable [F64 ν] {host : HostEnvironment ν}

theorem Stands.flow (h : Stands m function compiled final p)
    (hcode : FunctionCode m function compiled final) (hflow : Flow m host p q) :
    Stands m function compiled final q := by
  cases hflow with
  | next hnext =>
    obtain ⟨hfunction, hblock⟩ := hnext.same
    refine ⟨hfunction.trans h.runs, ?_⟩
    rw [irCode, hblock]
    exact h.code
  | jump hexec hblock =>
    rw [h.runs] at hblock
    refine (hcode.findBlock hblock ?_ ?_).1
    · exact h.runs
    · rfl

omit [F64 ν] in
theorem Frame.storeLocal_self (frame : Frame ν) (slot : UInt32) (value : RuntimeValue ν) :
    (frame.storeLocal slot value).locals[slot.toNat]? = some value := by
  refine List.getElem?_set_self ?_
  by_cases hle : frame.locals.length ≤ slot.toNat
  · rw [if_pos hle, resize, List.length_append, List.length_take, List.length_replicate]
    omega
  · rw [if_neg hle]
    omega

omit [F64 ν] in
theorem Frame.storeLocal_ne {frame : Frame ν} {slot slot' : UInt32} (hne : slot' ≠ slot)
    (value : RuntimeValue ν) {found : RuntimeValue ν}
    (h : frame.locals[slot'.toNat]? = some found) :
    (frame.storeLocal slot value).locals[slot'.toNat]? = some found := by
  have hnat : slot.toNat ≠ slot'.toNat := fun heq => hne (UInt32.toNat_inj.mp heq.symm)
  have hlt := (List.getElem?_eq_some_iff.mp h).1
  refine (List.getElem?_set_ne hnat).trans ?_
  by_cases hle : frame.locals.length ≤ slot.toNat
  · rw [if_pos hle, resize, List.take_of_length_le (by omega), List.getElem?_append_left hlt]
    exact h
  · rw [if_neg hle]
    exact h

/-- The value that the instruction at `p` stores into a local. -/
def storedValue (p : Point ν) : Option (RuntimeValue ν) :=
  match p.instruction with
  | some instruction =>
    if instruction.opcode = .storeLocal then (operand instruction 1 >>= p.frame.value).toOption
    else none
  | none => none

omit [F64 ν] in
theorem storedValue_of_ne {instruction : Instruction} (hi : p.instruction = some instruction)
    (hop : instruction.opcode ≠ .storeLocal) : storedValue p = none := by
  rw [storedValue, hi]
  exact if_neg hop

/-- A step that stores no local leaves them as they are. -/
inductive Locals (p q : Point ν) : Prop where
  | same (hnone : storedValue p = none) (hlocals : q.frame.locals = p.frame.locals)
  | stored {instruction : Instruction} {slot : UInt32} {value : RuntimeValue ν}
      (hi : p.instruction = some instruction) (hop : instruction.opcode = .storeLocal)
      (hslot : instruction.operands[0]? = some slot) (hvalue : storedValue p = some value)
      (hframe : q.frame = p.frame.storeLocal slot value)

theorem Executes.locals {flow : ControlFlow ν} {frame : Frame ν} {machine : Machine ν}
    (h : Executes m host p flow frame machine) (hq : q.frame = frame) : Locals p q := by
  obtain ⟨instruction, fuel, hi, hexec⟩ := h
  by_cases hop : instruction.opcode = .storeLocal
  · obtain ⟨opcode, operands, tag, src⟩ := instruction
    obtain rfl : opcode = .storeLocal := hop
    simp only [executeInstruction, FailState.bind_eq_ok, FailState.pure_run, Prod.mk.injEq,
      Except.ok.injEq, FailState.lift_run] at hexec
    obtain ⟨value, _, ⟨hvalue, _⟩, slot, _, ⟨hslot, _⟩, ⟨_, rfl⟩, _⟩ := hexec
    have hstored : storedValue p = some value := by
      rw [storedValue, hi]
      dsimp only
      rw [if_pos rfl, hvalue]
      rfl
    exact .stored hi rfl (operand_eq_ok.mp hslot) hstored hq
  · refine .same (storedValue_of_ne hi hop) ?_
    have heffect := executeInstruction_effect hexec
    rw [hq]
    cases heffect with
    | storeLocal hstore => exact absurd hstore hop
    | _ => rfl

theorem Flow.locals (h : Flow m host p q) : Locals p q := by
  cases h with
  | next hnext =>
    obtain ⟨frame, machine, hexec, rfl⟩ := hnext
    exact Executes.locals hexec rfl
  | jump hexec _ => exact Executes.locals hexec rfl

end

end Tsvm.FunctionSlots
