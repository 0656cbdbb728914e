import Tsvm.PointInvariants
import Tsvm.TypedSteps

set_option autoImplicit false

/-!
# Runs of typed code

A step leaves typed code typed: what it pushes is recorded behind it, and what it stores
has the types by which the code behind it reads the variable.
-/
namespace Tsvm.TypedRuns
open Ast Bytecode BytecodeVerifier Heap Interop Ir Lowering Compilation RuntimeValues Interpreter
  InterpreterSteps
open LoweringCode LoweringBlocks LoweredChecks CompiledOperands CompiledSlots CompiledValues
  FunctionSlots CodeTypes LoweredTypes StoreTypings TypedSteps

variable {ν : Type}

/-- What an instruction does to the frame, in the words of the lowered code. -/
inductive Outcome (final : LocalSlots) (kind : IrInstructionKind) (frame : Frame ν) :
    ControlFlow ν → Frame ν → Prop where
  | push (h : produces kind = true) (value : RuntimeValue ν) :
      Outcome final kind frame .continue (frame.pushValue value)
  | store {name : String} {v : ValueId} {slot : UInt32} {value : RuntimeValue ν}
      (hkind : kind = .storeLocal name v) (hslot : final.ids.lookup name = some slot)
      (hvalue : frame.value (.ofNat v) = .ok value) :
      Outcome final kind frame .continue (frame.storeLocal slot value)
  | member {object v : ValueId} {property : String} (hkind : kind = .storeMember object property v) :
      Outcome final kind frame .continue frame
  | jump {k : BlockId} (h : k ∈ targets kind) : Outcome final kind frame (.jump (.ofNat k)) frame
  | return (value : RuntimeValue ν) : Outcome final kind frame (.return value) frame

section

variable {typing : Typing} {m : BytecodeModule} {function : IrFunction}
  {compiled : BytecodeFunction} {final : LocalSlots} {p : Point ν} {instruction : IrInstruction}

theorem Allotted.outcome [F64 ν] {compiledInstruction : Instruction} {call : Call ν}
    {frame frame' : Frame ν} {flow : ControlFlow ν} {s t : Machine ν}
    (h : Allotted m final instruction compiledInstruction)
    (hexec : executeInstruction m call compiledInstruction frame s = (.ok (flow, frame'), t)) :
    Outcome final instruction.kind frame flow frame' := by
  obtain ⟨slots, hkeeps, hrefers⟩ := h.refers
  have heffect := executeInstruction_effect hexec
  obtain ⟨opcode, operands, tag, src⟩ := compiledInstruction
  generalize instruction.kind = kind at hkeeps hrefers
  cases hrefers with
  | @storeLocal name v =>
    simp only [executeInstruction, FailState.bind_eq_ok, FailState.pure_run, Prod.mk.injEq,
      Except.ok.injEq, FailState.lift_run] at hexec
    obtain ⟨value, _, ⟨hvalue, _⟩, slot, _, ⟨hslot, _⟩, ⟨rfl, rfl⟩, _⟩ := hexec
    cases hslot
    exact .store rfl (hkeeps name _ (localId_lookup name slots)) hvalue
  | storeMember =>
    cases heffect with
    | push hop => cases hop
    | storeMember => exact .member rfl
    | storeLocal hop | branch hop | jump hop | «return» hop => cases hop
  | branch =>
    cases heffect with
    | push hop => cases hop
    | branch hop htarget =>
      rcases htarget with htarget | htarget
      · cases htarget
        exact .jump List.mem_cons_self
      · cases htarget
        exact .jump (List.mem_cons_of_mem _ List.mem_cons_self)
    | storeLocal hop | storeMember hop | jump hop | «return» hop => cases hop
  | jump =>
    cases heffect with
    | push hop => cases hop
    | jump hop htarget =>
      cases htarget
      exact .jump List.mem_cons_self
    | storeLocal hop | storeMember hop | branch hop | «return» hop => cases hop
  | «return» =>
    cases heffect with
    | push hop => cases hop
    | «return» hop value => exact .return value
    | storeLocal hop | storeMember hop | branch hop | jump hop => cases hop
  | literal | object | array | loadLocal | loadMember | binary | call =>
    cases heffect with
    | push hop value => exact .push rfl value
    | storeLocal hop | storeMember hop | branch hop | jump hop | «return» hop => cases hop

theorem irCode_after (frame : Frame ν) (t : Machine ν) :
    irCode function (p.after frame t) = irCode function p := rfl

theorem take_after (hi : irInstruction function p = some instruction) :
    (irCode function p).take (p.pc + 1) = (irCode function p).take p.pc ++ [instruction] := by
  rw [List.take_add_one, show (irCode function p)[p.pc]? = some instruction from hi]
  rfl

theorem recordedTypes_after (hi : irInstruction function p = some instruction) (frame : Frame ν)
    (t : Machine ν) :
    recordedTypes function (p.after frame t) = recordedTypes function p ++ resultTypes [instruction] := by
  rw [recordedTypes, irCode_after]
  change resultTypes ((irCode function p).take (p.pc + 1)) = _
  rw [take_after hi, resultTypes_append]
  rfl

theorem assigned_after (hi : irInstruction function p = some instruction) {frame : Frame ν}
    {t : Machine ν} {name : String} :
    Assigned function (p.after frame t) name ↔
      Assigned function p name ∨ storesTo name instruction.kind = true := by
  rw [Assigned, irCode_after]
  change _ ∨ StoresName name ((irCode function p).take (p.pc + 1)) ↔ _
  rw [take_after hi, storesName_append, storesName_cons, Assigned, or_assoc]
  have hnil : ¬ StoresName name [] := by
    rintro ⟨_, hmem, _⟩
    exact List.not_mem_nil hmem
  simp only [hnil, or_false]

/-- What is still to be read behind an instruction that neither stores the variable nor
    leaves the block. -/
theorem pendingReads_after (hi : irInstruction function p = some instruction) {name : String}
    (hstore : storesTo name instruction.kind = false) (htargets : targets instruction.kind = [])
    (hends : terminates instruction.kind = false) {frame : Frame ν} {t : Machine ν} {ty : IrType}
    (h : ty ∈ pendingReads function (p.after frame t) name) : ty ∈ pendingReads function p name := by
  rw [pendingReads] at h ⊢
  by_cases hzero : p.block.id = 0
  · have hlt := (List.getElem?_eq_some_iff.mp hi).1
    have hget := (List.getElem?_eq_some_iff.mp hi).2
    change ty ∈ if p.block.id = 0 then
      readTypes name (laterReads function.blocks name) ((irCode function p).drop (p.pc + 1)) else _ at h
    rw [if_pos hzero] at h ⊢
    rw [List.drop_eq_getElem_cons hlt, hget, readTypes]
    by_cases hload : instruction.kind = .loadLocal name
    · rw [if_pos hload]
      exact List.mem_cons_of_mem _ h
    · simp only [if_neg hload, hstore, htargets, hends, Bool.false_eq_true, if_false, ne_eq,
        not_true_eq_false]
      exact h
  · change ty ∈ if p.block.id = 0 then _ else laterReads function.blocks name at h
    rw [if_neg hzero] at h ⊢
    exact h

theorem produces_quiet {kind : IrInstructionKind} (h : produces kind = true) (name : String) :
    storesTo name kind = false ∧ targets kind = [] ∧ terminates kind = false := by
  cases kind with
  | storeLocal | storeMember | branch | jump | «return» => cases h
  | _ => exact ⟨rfl, rfl, rfl⟩

theorem TypedAt.pushed (hat : TypedAt typing function final p)
    (hi : irInstruction function p = some instruction) (hproduces : produces instruction.kind = true)
    {value : RuntimeValue ν} {t : Machine ν} (hheap : Conforms typing t.heap)
    (hvalue : HasType typing instruction.ty value) :
    TypedAt typing function final (p.after (p.frame.pushValue value) t) where
  heap := hheap
  values := by
    intro hzero
    rw [recordedTypes_after hi, resultTypes_of_produces hproduces]
    exact List.rel_append (hat.values hzero) (.cons hvalue .nil)
  locals := by
    intro name hassigned
    obtain ⟨hstore, htargets, hends⟩ := produces_quiet hproduces name
    have hbefore := ((assigned_after hi).mp hassigned).resolve_right (by rw [hstore]; exact nofun)
    obtain ⟨slot, found, hslot, hfound, htypes⟩ := hat.locals name hbefore
    exact ⟨slot, found, hslot, hfound,
      fun ty hty => htypes ty (pendingReads_after hi hstore htargets hends hty)⟩

theorem TypedAt.member (hat : TypedAt typing function final p)
    (hi : irInstruction function p = some instruction) {object v : ValueId} {property : String}
    (hkind : instruction.kind = .storeMember object property v) {t : Machine ν}
    (hheap : Conforms typing t.heap) : TypedAt typing function final (p.after p.frame t) where
  heap := hheap
  values := by
    intro hzero
    rw [recordedTypes_after hi, resultTypes_of_not_produces (by rw [hkind]; rfl), List.append_nil]
    exact hat.values hzero
  locals := by
    intro name hassigned
    have hstore : storesTo name instruction.kind = false := by rw [hkind]; rfl
    have hbefore := ((assigned_after hi).mp hassigned).resolve_right (by rw [hstore]; exact nofun)
    obtain ⟨slot, found, hslot, hfound, htypes⟩ := hat.locals name hbefore
    refine ⟨slot, found, hslot, hfound, fun ty hty => htypes ty ?_⟩
    exact pendingReads_after hi hstore (by rw [hkind]; rfl) (by rw [hkind]; rfl) hty

theorem Translation.first (h : Translation m function compiled final)
    (hi : irInstruction function p = some instruction) (hvalues : values instruction.kind ≠ []) :
    p.block.id = 0 := by
  obtain ⟨block, hblock, hcode⟩ := irBlock_of_instruction hi
  by_contra hne
  have hnat : p.block.id.toNat ≠ 0 := fun hnat => hne (UInt32.toNat_inj.mp hnat)
  refine hvalues (h.leaf _ block hnat hblock instruction ?_)
  rw [← hcode]
  exact List.mem_of_getElem? hi

theorem TypedAt.stored (htranslation : Translation m function compiled final)
    (hslots : SlotsFor (function.params.map IrParam.name) 0 final)
    (hat : TypedAt typing function final p) (hi : irInstruction function p = some instruction)
    {name : String} {v : ValueId} (hkind : instruction.kind = .storeLocal name v) {slot : UInt32}
    (hslot : final.ids.lookup name = some slot) {value : RuntimeValue ν}
    (hvalue : p.frame.value (.ofNat v) = .ok value) (hfits : StoreFits typing function p)
    {t : Machine ν} (hheap : Conforms typing t.heap) :
    TypedAt typing function final (p.after (p.frame.storeLocal slot value) t) where
  heap := hheap
  values := by
    intro hzero
    rw [recordedTypes_after hi, resultTypes_of_not_produces (by rw [hkind]; rfl), List.append_nil]
    exact hat.values hzero
  locals := by
    intro name' hassigned
    obtain ⟨types, hcontext⟩ := htranslation.context hat hi
    have hmem : v ∈ values instruction.kind := by
      rw [hkind]
      exact List.mem_cons_self
    by_cases hname : name' = name
    · rw [hname]
      refine ⟨slot, value, hslot, Frame.storeLocal_self p.frame slot value, fun ty hty => ?_⟩
      have hzero := Translation.first htranslation hi (List.ne_nil_of_mem hmem)
      change ty ∈ if p.block.id = 0 then
        readTypes name (laterReads function.blocks name) (codeBehind function p) else _ at hty
      rw [if_pos hzero] at hty
      exact hcontext.supplies hmem (hcontext.operand v hmem value hvalue)
        (hfits instruction hi (name, v) (by rw [hkind]; rfl) ty hty)
    · have hstore : storesTo name' instruction.kind = false := by
        rw [hkind]
        exact decide_eq_false fun hsame => hname hsame.symm
      have hbefore := ((assigned_after hi).mp hassigned).resolve_right (by rw [hstore]; exact nofun)
      obtain ⟨slot', found, hslot', hfound, htypes⟩ := hat.locals name' hbefore
      have hne : slot' ≠ slot := fun hsame => hname (hslots.unique _ _ slot (hsame ▸ hslot') hslot)
      refine ⟨slot', found, hslot', Frame.storeLocal_ne hne value hfound, fun ty hty => htypes ty ?_⟩
      exact pendingReads_after hi hstore (by rw [hkind]; rfl) (by rw [hkind]; rfl) hty

/-- A jump leaves block 0 for good, with the variables that the other blocks read. -/
theorem TypedAt.jumped (hat : TypedAt typing function final p)
    (hi : irInstruction function p = some instruction) {k : BlockId} (hk : k ∈ targets instruction.kind)
    {q : Point ν} (hframe : q.frame = p.frame) (hmachine : Conforms typing q.machine.heap)
    (hpc : q.pc = 0) (hne : q.block.id ≠ 0) : TypedAt typing function final q where
  heap := hmachine
  values := fun hzero => absurd hzero hne
  locals := by
    intro name hassigned
    have hparam : name ∈ function.params.map IrParam.name := by
      refine hassigned.resolve_right ?_
      rw [hpc, List.take_zero]
      exact fun ⟨_, hmem, _⟩ => List.not_mem_nil hmem
    obtain ⟨slot, found, hslot, hfound, htypes⟩ := hat.locals name (.inl hparam)
    refine ⟨slot, found, hslot, by rw [hframe]; exact hfound, fun ty hty => htypes ty ?_⟩
    rw [pendingReads, if_neg hne] at hty
    rw [pendingReads]
    by_cases hzero : p.block.id = 0
    · have hlt := (List.getElem?_eq_some_iff.mp hi).1
      have hget := (List.getElem?_eq_some_iff.mp hi).2
      have htargets : targets instruction.kind ≠ [] := List.ne_nil_of_mem hk
      rw [if_pos hzero, List.drop_eq_getElem_cons hlt, hget, readTypes]
      have hload : instruction.kind ≠ .loadLocal name := by
        intro hload
        rw [hload] at hk
        cases hk
      have hstore : storesTo name instruction.kind ≠ true := by
        intro hstore
        cases hkind : instruction.kind with
        | branch => rw [hkind] at hstore; cases hstore
        | jump => rw [hkind] at hstore; cases hstore
        | _ => rw [hkind] at hk; cases hk
      rw [if_neg hload, if_neg hstore, if_pos htargets]
      exact hty
    · rw [if_neg hzero]
      exact hty

end

end Tsvm.TypedRuns
