import Tsvm.BytecodeVerifierFacts
import Tsvm.Compilation
import Tsvm.LoweringBlocks

set_option autoImplicit false

/-!
# What a compiled function looks like

The compiler keeps blocks and instructions in place: an instruction of the
bytecode stands where the instruction it comes from stands.
-/
namespace Tsvm.CompiledCode
open Bytecode BytecodeVerifier BytecodeVerifierFacts Ir Compilation LoweringCode LoweringBlocks

/-- `compiled` comes from `instruction`. -/
def Compiles (instruction : IrInstruction) (compiled : Instruction) : Prop :=
  ∃ s slots, compiled = (compileInstruction instruction s slots).1

def CompilesBlock (block : IrBlock) (compiled : BytecodeBlock) : Prop :=
  compiled.id = .ofNat block.id ∧
    List.Forall₂ Compiles block.instructions compiled.instructions

theorem compileInstructions_forall₂ (instructions : List IrInstruction) (s : Compiler)
    (slots : LocalSlots) :
    List.Forall₂ Compiles instructions (compileInstructions instructions s slots).1 := by
  induction instructions generalizing s slots with
  | nil => exact .nil
  | cons instruction instructions ih => exact .cons ⟨s, slots, rfl⟩ (ih _ _)

theorem compileBlocks_forall₂ (blocks : List IrBlock) (s : Compiler) (slots : LocalSlots) :
    List.Forall₂ CompilesBlock blocks (compileBlocks blocks s slots).1 := by
  induction blocks generalizing s slots with
  | nil => exact .nil
  | cons block blocks ih =>
    exact .cons ⟨rfl, compileInstructions_forall₂ block.instructions s slots⟩ (ih _ _)

theorem compileFunction_forall₂ (function : IrFunction) (s : Compiler) :
    List.Forall₂ CompilesBlock function.blocks (compileFunction function s).1.blocks :=
  compileBlocks_forall₂ function.blocks s _

theorem forall₂_getElem? {α β : Type} {R : α → β → Prop} {xs : List α} {ys : List β}
    (h : List.Forall₂ R xs ys) {k : ℕ} {y : β} (hy : ys[k]? = some y) :
    ∃ x, xs[k]? = some x ∧ R x y := by
  induction h generalizing k with
  | nil => cases hy
  | cons hxy _ ih =>
    cases k with
    | zero =>
      cases hy
      exact ⟨_, rfl, hxy⟩
    | succ k => exact ih hy

theorem Compiles.definesValue {instruction : IrInstruction} {compiled : Instruction}
    (h : Compiles instruction compiled) :
    BytecodeVerifier.definesValue compiled.opcode = produces instruction.kind := by
  obtain ⟨s, slots, rfl⟩ := h
  obtain ⟨kind, result, ty, span⟩ := instruction
  cases kind with
  | loadConst constant => cases constant <;> rfl
  | _ => rfl

theorem Compiles.definitions {instruction : IrInstruction} {compiled : Instruction}
    (h : Compiles instruction compiled) :
    BytecodeVerifierFacts.definitions [compiled] = results [instruction] := by
  simp [BytecodeVerifierFacts.definitions, results, h.definesValue]

/-- The blocks a compiled instruction may go to. -/
theorem Compiles.targets {instruction : IrInstruction} {compiled : Instruction}
    (h : Compiles instruction compiled) {target : UInt32}
    (htarget : compiled.opcode = .branch ∧
        (compiled.operands[1]? = some target ∨ compiled.operands[2]? = some target) ∨
      compiled.opcode = .jump ∧ compiled.operands[0]? = some target) :
    ∃ t ∈ LoweringCode.targets instruction.kind, target = .ofNat t := by
  obtain ⟨s, slots, rfl⟩ := h
  obtain ⟨kind, result, ty, span⟩ := instruction
  cases kind with
  | branch condition thenBlock elseBlock =>
    rcases htarget with ⟨_, hthen | helse⟩ | ⟨hop, _⟩
    · cases hthen
      exact ⟨thenBlock, List.mem_cons_self, rfl⟩
    · cases helse
      exact ⟨elseBlock, List.mem_cons_of_mem _ List.mem_cons_self, rfl⟩
    · cases hop
  | jump block =>
    rcases htarget with ⟨hop, _⟩ | ⟨_, hblock⟩
    · cases hop
    · cases hblock
      exact ⟨block, List.mem_cons_self, rfl⟩
  | loadConst constant =>
    cases constant <;> rcases htarget with ⟨hop, _⟩ | ⟨hop, _⟩ <;> cases hop
  | _ => rcases htarget with ⟨hop, _⟩ | ⟨hop, _⟩ <;> cases hop

end Tsvm.CompiledCode
