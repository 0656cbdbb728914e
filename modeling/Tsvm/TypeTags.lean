import Tsvm.TypedRuns
import Tsvm.VariableReads

set_option autoImplicit false

/-!
# Type tags of compiled sources

Every point of a run of a compiled source is typed when the run respects the types that
the lowerer assumes, and then the tag of each value that is pushed is true of the value.
-/
namespace Tsvm.TypeTags
open Ast Bytecode BytecodeVerifier Heap Interop Ir Lowering Compilation Semantic Pipeline
  RuntimeValues Interpreter InterpreterSteps SourceChecks
open Parsing (parseSource)
open LoweringCode LoweringBlocks LoweredChecks CompiledOperands CompiledSlots CompiledValues
  CompilerAcceptance FunctionSlots VariableReads CodeTypes LoweredTypes StoreTypings TypedSteps
  TypedRuns PointInvariants

def CompiledTo (program : Program) (function : IrFunction) (compiled : BytecodeFunction) : Prop :=
  ∃ i : ℕ, (allFunctions (lowerProgram program))[i]? = some function ∧
    (compile (lowerProgram program)).functions[i]? = some compiled

theorem checkCode_known {code : List IrInstruction} {known known' : List String}
    (h : checkCode code known = some known') {k : ℕ} {i : IrInstruction} (hi : code[k]? = some i)
    {name : String} (hkind : i.kind = .loadLocal name) :
    name ∈ known ∨ StoresName name (code.take k) := by
  induction code generalizing known k with
  | nil => cases hi
  | cons first code ih =>
    obtain ⟨next, hnext, hrest⟩ := Option.bind_eq_some_iff.mp h
    rw [checkInstruction] at hnext
    cases k with
    | zero =>
      cases hi
      rw [hkind] at hnext
      by_cases hmem : name ∈ known
      · exact .inl hmem
      · simp only [if_neg hmem] at hnext
        cases hnext
    | succ k =>
      rw [List.take_succ_cons, storesName_cons]
      rcases ih hrest hi with hmem | hstores
      · by_cases hstore : storesTo name first.kind = true
        · exact .inr (.inl hstore)
        · refine .inl ?_
          -- Only a store makes a name known.
          generalize first.kind = kind at hnext hstore
          cases kind with
          | storeLocal found v =>
            cases hnext
            refine (List.mem_cons.mp hmem).resolve_left fun hname => hstore ?_
            exact decide_eq_true hname.symm
          | loadLocal found =>
            by_cases hfound : found ∈ known
            · simp only [if_pos hfound] at hnext
              cases hnext
              exact hmem
            · simp only [if_neg hfound] at hnext
              cases hnext
          | binary op left right =>
            by_cases hunknown : first.ty.isUnknown = true
            · simp only [if_pos hunknown] at hnext
              cases hnext
            · simp only [if_neg hunknown] at hnext
              cases hnext
              exact hmem
          | _ =>
            cases hnext
            exact hmem
      · exact .inr (.inr hstores)

theorem codeSize_le_blocksSize {blocks : List IrBlock} {block : IrBlock} (h : block ∈ blocks) :
    codeSize block.instructions ≤ blocksSize blocks := by
  induction blocks with
  | nil => cases h
  | cons first blocks ih =>
    rw [blocksSize_cons]
    rcases List.mem_cons.mp h with rfl | h
    · omega
    · have hle := ih h
      omega

theorem lowerProgram_translation (program : Program)
    (hsize : irSize (lowerProgram program) < 2 ^ 32) (hverifiable : Verifiable program = true)
    {function : IrFunction} {compiled : BytecodeFunction}
    (h : CompiledTo program function compiled) :
    ∃ final, Translation (compile (lowerProgram program)) function compiled final := by
  obtain ⟨i, hi, hcompiled⟩ := h
  have hfunction := List.mem_of_getElem? hi
  have hcode := (verifiable_iff program).mp hverifiable
  obtain ⟨function', hi', hfinal⟩ :=
    CompiledCode.forall₂_getElem? (compile_functionCode program (Nat.le_of_lt hsize)) hcompiled
  rw [hi] at hi'
  cases hi'
  obtain ⟨offset, hnumbering⟩ := lowerProgram_numbering program hfunction
  have hle := functionSize_le_irSize hfunction
  unfold functionSize at hle
  refine ⟨finalSlots function, hfinal, lowerProgram_typed program hcode hfunction, ?_, ?_, ?_, ?_, ?_⟩
  · intro j block hj hblock instruction hmem
    exact ((hcode function hfunction).1.rest j block hj hblock instruction hmem).1
  · cases hblock : function.blocks[0]? with
    | none =>
      rw [firstCode, hblock]
      trivial
    | some block =>
      have hnumbered := hnumbering.numbered 0 block hblock
      rw [hnumbering.first] at hnumbered
      rw [firstCode, hblock]
      exact hnumbered
  · intro block hmem
    have hblock := codeSize_le_blocksSize hmem
    omega
  · intro block hmem instruction hinstruction k hk
    obtain ⟨j, hj⟩ := List.getElem?_of_mem hmem
    exact (hnumbering.edges j block hj instruction hinstruction k hk).1
  · intro j block hblock k instruction name hk hkind
    by_cases hj : j = 0
    · rw [hj] at hblock
      obtain ⟨known, hknown⟩ := Option.isSome_iff_exists.mp
        ((hcode function hfunction).1.first block hblock)
      exact checkCode_known hknown hk hkind
    · exact .inl (((hcode function hfunction).1.rest j block hj hblock instruction
        (List.mem_of_getElem? hk)).2 name hkind)

theorem dispatch_heap {ν : Type} {m : BytecodeModule} (name : String) (args : List (RuntimeValue ν)) (s : Machine ν) :
    (dispatch m .new name args s).2.heap = s.heap := by
  have hhost : (callHost .new name args s).2 = s ∧
      ∀ result t, callHost .new name args s = (.ok result, t) → result = none := by
    unfold callHost
    cases hargs : (args.mapM fun value => do
        let value ← materialize s.heap value
        pure (interopFromValue value)) with
    | error e =>
      rw [FailState.bind_ok (FailState.read_run s), hargs,
        FailState.bind_error (FailState.lift_run _ _)]
      exact ⟨rfl, nofun⟩
    | ok values =>
      rw [FailState.bind_ok (FailState.read_run s), hargs,
        FailState.bind_ok (FailState.lift_run _ _)]
      refine ⟨rfl, fun result t h => ?_⟩
      cases h
      rfl
  unfold dispatch
  by_cases hconsole : name = "console.log"
  · rw [if_pos hconsole]
    rfl
  · rw [if_neg hconsole]
    cases hcall : callHost .new name args s with
    | mk result t =>
      rw [hcall] at hhost
      obtain ⟨rfl, hnone⟩ := hhost
      cases result with
      | error e => rw [FailState.bind_error hcall]
      | ok result =>
        rw [FailState.bind_ok hcall, hnone result _ rfl]
        cases findFunction m name with
        | error e => rfl
        | ok function => rfl

theorem typeIn_param {params : List IrParam} (hnodup : (params.map IrParam.name).Nodup) {i : ℕ}
    {param : IrParam} (hi : params[i]? = some param) :
    typeIn (params.map fun param => (param.name, param.ty)).reverse param.name = param.ty := by
  obtain ⟨hlt, hparam⟩ := List.getElem?_eq_some_iff.mp hi
  have hsplit : params = params.take i ++ param :: params.drop (i + 1) := by
    rw [← hparam, List.getElem_cons_drop, List.take_append_drop]
  rw [hsplit, List.map_append, List.map_cons, List.nodup_append, List.nodup_cons] at hnodup
  have hbehind : ∀ other ∈ params.drop (i + 1), param.name ≠ other.name := fun other hmem hname =>
    hnodup.2.1.1 (hname ▸ List.mem_map_of_mem hmem)
  have hlookup : (params.map fun param => (param.name, param.ty)).reverse.lookup param.name =
      some param.ty := by
    refine List.lookup_eq_some_iff.mpr
      ⟨((params.drop (i + 1)).map fun param => (param.name, param.ty)).reverse,
        ((params.take i).map fun param => (param.name, param.ty)).reverse, ?_, ?_⟩
    · conv_lhs => rw [hsplit]
      simp
    · intro entry hmem
      obtain ⟨other, hother, rfl⟩ := List.mem_map.mp (List.mem_reverse.mp hmem)
      exact bne_iff_ne.mpr (hbehind other hother)
  rw [typeIn, hlookup]
  rfl

section

variable {ν : Type} {typing : Typing} {m : BytecodeModule} {function : IrFunction}
  {compiled : BytecodeFunction} {final : LocalSlots} {p : Point ν}

theorem Translation.enters (h : Translation m function compiled final)
    (hnodup : (function.params.map IrParam.name).Nodup) (hbegins : Begins compiled p)
    (hheap : Conforms typing p.machine.heap) (harguments : ArgumentsFit typing function p) :
    Stands m function compiled final p ∧ TypedAt typing function final p := by
  obtain ⟨hstands, hzero, hpc, hvalues⟩ := h.code.begins hbegins
  refine ⟨hstands, hheap, fun _ => ?_, fun name hassigned => ?_⟩
  · rw [recordedTypes, hpc, List.take_zero, hvalues]
    exact .nil
  · have hparam : name ∈ function.params.map IrParam.name := by
      refine hassigned.resolve_right ?_
      rw [hpc, List.take_zero]
      rintro ⟨_, hmem, _⟩
      exact List.not_mem_nil hmem
    obtain ⟨id, hid⟩ := Option.ne_none_iff_exists'.mp
      ((parameterSlots_knows function.params name).mp hparam)
    obtain ⟨i, hi, rfl⟩ := parameterSlots_lookup hid
    rw [List.getElem?_map, Option.map_eq_some_iff] at hi
    obtain ⟨param, hi, rfl⟩ := hi
    have hlt := (List.getElem?_eq_some_iff.mp hi).1
    have hlocals : p.frame.locals.length = function.params.length := by
      obtain ⟨block, args, machine, _, rfl⟩ := hbegins
      change (resize args compiled.params.length).length = _
      rw [VerifiedReferences.resize_length, h.code.params, List.length_map]
    have hcount := h.code.code.slots.count
    have hroom := h.code.code.slots.room
    rw [List.length_map] at hcount
    have htoNat : (UInt32.ofNat i).toNat = i := UInt32.toNat_ofNat_of_lt' (by
      change i < 2 ^ 32
      omega)
    obtain ⟨value, hlocal⟩ : ∃ value, p.frame.locals[i]? = some value :=
      ⟨_, List.getElem?_eq_getElem (by omega)⟩
    refine ⟨_, value, h.code.code.keeps _ _ hid, by rw [htoNat]; exact hlocal, fun ty hty => ?_⟩
    rw [pendingReads, if_pos hzero, hpc, List.drop_zero, irCode_first hzero] at hty
    rw [h.typed.reads param.name ty hty, typeIn_param hnodup hi]
    refine harguments hzero hpc (param, value) ?_
    refine List.mem_of_getElem? (i := i) ?_
    rw [List.getElem?_zip_eq_some]
    exact ⟨hi, hlocal⟩

theorem weak_of_call {types : List IrType} {rest : List IrInstruction} {callee : String}
    {args : List ValueId} {ty : IrType} (h : Tagged types rest (.call callee args) ty) :
    weak ty = true := by
  cases h with
  | silent h => cases h
  | weak h _ => exact h

theorem Allotted.call {instruction : IrInstruction} {compiledInstruction : Instruction}
    (h : Allotted m final instruction compiledInstruction)
    (hop : compiledInstruction.opcode = .call) :
    ∃ callee args, instruction.kind = .call callee args := by
  obtain ⟨slots, _, hrefers⟩ := h.refers
  generalize instruction.kind = kind at hrefers
  generalize compiledInstruction.operands = operands at hrefers
  rw [hop] at hrefers
  cases hrefers with
  | call => exact ⟨_, _, rfl⟩

theorem Translation.called (h : Translation m function compiled final)
    (hat : TypedAt typing function final p) {instruction : IrInstruction}
    {compiledInstruction : Instruction} (hi : irInstruction function p = some instruction)
    (hallotted : Allotted m final instruction compiledInstruction)
    (hop : compiledInstruction.opcode = .call) :
    produces instruction.kind = true ∧ weak instruction.ty = true := by
  obtain ⟨types, hcontext⟩ := h.context hat hi
  obtain ⟨rest, htagged, _⟩ := hcontext.tagged
  obtain ⟨callee, args, hkind⟩ := Allotted.call hallotted hop
  rw [hkind] at htagged ⊢
  exact ⟨rfl, weak_of_call htagged⟩

theorem Translation.after (h : Translation m function compiled final)
    (hat : TypedAt typing function final p) (hrespects : Respects typing function p)
    {instruction : IrInstruction} (hi : irInstruction function p = some instruction)
    {frame : Frame ν} {t : Machine ν}
    (houtcome : Outcome final instruction.kind p.frame .continue frame)
    (hleaves : Leaves typing p.frame instruction.ty frame t) :
    TypedAt typing function final (p.after frame t) := by
  cases houtcome with
  | push hproduces value =>
    exact TypedAt.pushed hat hi hproduces hleaves.heap (hleaves.value value rfl)
  | store hkind hslot hvalue =>
    exact TypedAt.stored h h.code.code.slots hat hi hkind hslot hvalue hrespects.store hleaves.heap
  | member hkind => exact TypedAt.member hat hi hkind hleaves.heap

theorem Translation.jump (h : Translation m function compiled final)
    (hstands : Stands m function compiled final p) (hat : TypedAt typing function final p)
    {instruction : IrInstruction} (hi : irInstruction function p = some instruction)
    {frame : Frame ν} {t : Machine ν} {target : UInt32} {block : BytecodeBlock}
    (houtcome : Outcome final instruction.kind p.frame (.jump target) frame)
    (hheap : Conforms typing t.heap) (hblock : findBlock p.function target = .ok block) :
    let q : Point ν := ⟨p.function, block, 0, frame, t⟩
    Stands m function compiled final q ∧ TypedAt typing function final q := by
  intro q
  rw [hstands.runs] at hblock
  obtain ⟨hstandsQ, hid⟩ := h.code.findBlock (p := q) hblock hstands.runs rfl
  cases houtcome with
  | @jump k hk =>
    refine ⟨hstandsQ, TypedAt.jumped hat hi hk rfl hheap rfl ?_⟩
    obtain ⟨irBlock, hirBlock, hcode⟩ := irBlock_of_instruction hi
    have hmem : instruction ∈ irBlock.instructions := by
      rw [← hcode]
      exact List.mem_of_getElem? hi
    have hlt := h.inside irBlock (List.mem_of_getElem? hirBlock) instruction hmem k hk
    have hzero := (h.typed.blocks _ irBlock hirBlock instruction hmem).2
    have hlength := h.code.length
    intro hqzero
    have hnat : (UInt32.ofNat k).toNat = 0 := by
      rw [← hid, hqzero]
      rfl
    rw [UInt32.toNat_ofNat_of_lt' (Nat.lt_trans hlt hlength)] at hnat
    rw [hnat] at hk
    exact hzero hk

end

section

variable {ν : Type} [F64 ν] (typing : Typing) {program : Program}

def typedRuns (hsize : irSize (lowerProgram program) < 2 ^ 32)
    (hverifiable : Verifiable program = true)
    (hparams : ∀ function ∈ allFunctions (lowerProgram program),
      (function.params.map IrParam.name).Nodup) :
    PointInvariant (compile (lowerProgram program)) (.new : HostEnvironment ν) where
  Holds s := Conforms typing s.heap
  At p := ∃ function compiled final, CompiledTo program function compiled ∧
    Translation (compile (lowerProgram program)) function compiled final ∧
    Stands (compile (lowerProgram program)) function compiled final p ∧
    TypedAt typing function final p
  Condition p := ∀ function, CompiledTo program function p.function → Respects typing function p
  machine := fun ⟨_, _, _, _, _, _, hat⟩ => hat.heap
  dispatch := by
    intro name args s t result hholds hdispatch
    have hheap := dispatch_heap (m := compile (lowerProgram program)) name args s
    rw [hdispatch] at hheap
    rw [hheap]
    exact hholds
  starts := by
    rintro p ⟨compiled, hmem, hbegins⟩ hholds hcondition
    obtain ⟨i, hcompiled⟩ := List.getElem?_of_mem hmem
    obtain ⟨function, hi, hcode⟩ :=
      CompiledCode.forall₂_getElem? (compile_functionCode program (Nat.le_of_lt hsize)) hcompiled
    have hto : CompiledTo program function compiled := ⟨i, hi, hcompiled⟩
    obtain ⟨final, htranslation⟩ := lowerProgram_translation program hsize hverifiable hto
    obtain ⟨block, args, machine, hblock, rfl⟩ := hbegins
    have hrespects := hcondition function hto
    obtain ⟨hstands, hat⟩ := Translation.enters htranslation
      (hparams function (List.mem_of_getElem? hi)) ⟨block, args, machine, hblock, rfl⟩ hholds
      hrespects.arguments
    exact ⟨function, compiled, final, hto, htranslation, hstands, hat⟩
  step := by
    rintro p compiledInstruction call flow frame t ⟨function, compiled, final, hto, h, hstands, hat⟩
      hcondition hi hop hexec
    obtain ⟨instruction, hinstruction, hallotted⟩ := hstands.instruction hi
    have hrespects := hcondition function (hstands.runs.symm ▸ hto)
    have hleaves := executes_leaves h hat hrespects hinstruction hallotted hop hexec
    have houtcome := Allotted.outcome hallotted hexec
    refine ⟨hleaves.heap, ?_, ?_⟩
    · rintro rfl
      exact ⟨function, compiled, final, hto, h, ⟨hstands.runs, hstands.code⟩,
        Translation.after h hat hrespects hinstruction houtcome hleaves⟩
    · rintro target block rfl hblock
      obtain ⟨hstandsQ, hatQ⟩ :=
        Translation.jump h hstands hat hinstruction houtcome hleaves.heap hblock
      exact ⟨function, compiled, final, hto, h, hstandsQ, hatQ⟩
  returns := by
    rintro p name args value t ⟨function, compiled, final, hto, h, hstands, hat⟩
      ⟨compiledInstruction, hi, hop, _⟩ hholds
    obtain ⟨instruction, hinstruction, hallotted⟩ := hstands.instruction hi
    obtain ⟨hproduces, hweak⟩ := Translation.called h hat hinstruction hallotted hop
    exact ⟨function, compiled, final, hto, h, ⟨hstands.runs, hstands.code⟩,
      TypedAt.pushed hat hinstruction hproduces hholds (weak_hasType hweak value)⟩

end

def IsOfKind {ν : Type} : TypeTag → RuntimeValue ν → Prop
  | .number, value => ∃ n, value = .number n
  | .string, value => ∃ text, value = .string text
  | .boolean, value => ∃ b, value = .boolean b
  | _, _ => True

theorem HasType.isOfKind {ν : Type} {typing : Typing} {ty : IrType} {value : RuntimeValue ν}
    (h : HasType typing ty value) : IsOfKind (Compilation.typeTag ty) value := by
  cases ty with
  | number => exact hasType_number.mp h
  | string => exact hasType_string.mp h
  | boolean => exact hasType_boolean.mp h
  | _ => trivial

theorem weak_isOfKind {ν : Type} {ty : IrType} (h : weak ty = true) (value : RuntimeValue ν) :
    IsOfKind (Compilation.typeTag ty) value := by
  cases ty with
  | number | string | boolean | object => cases h
  | _ => trivial

section

variable {ν : Type} [F64 ν]

/-- Whatever the instruction at `p` pushes is of the kind that its tag says. -/
def Truthful (m : BytecodeModule) (host : HostEnvironment ν) (p : Point ν) : Prop :=
  ∀ instruction ∈ p.instruction, ∀ value t,
    Executes m host p .continue (p.frame.pushValue value) t → IsOfKind instruction.typeTag value

theorem truthful_of_typed {typing : Typing} {m : BytecodeModule} {host : HostEnvironment ν}
    {function : IrFunction} {compiled : BytecodeFunction} {final : LocalSlots} {p : Point ν}
    (h : Translation m function compiled final) (hstands : Stands m function compiled final p)
    (hat : TypedAt typing function final p) (hrespects : Respects typing function p) :
    Truthful m host p := by
  rintro compiledInstruction hi value t ⟨executed, fuel, hexecuted, hexec⟩
  rw [hi] at hexecuted
  cases hexecuted
  obtain ⟨instruction, hinstruction, hallotted⟩ := hstands.instruction hi
  rw [hallotted.typeTag]
  by_cases hop : compiledInstruction.opcode = .call
  · exact weak_isOfKind (Translation.called h hat hinstruction hallotted hop).2 value
  · have hleaves := executes_leaves h hat hrespects hinstruction hallotted hop hexec
    exact HasType.isOfKind (hleaves.value value rfl)

/-- In every run, without functions of the host, of a source without diagnostics whose
    module passes the verifier: when the run respects the types that the lowerer assumes,
    the tags are true. -/
theorem compiledSource_truthful (order : IterationOrder) (source : String) {m : BytecodeModule}
    (hcompiled : (compileSource order source).module = some m)
    (hsize : irSize (lowerProgram (parseSource source).program) < 2 ^ 32)
    (hverified : verifyModule m = .ok ()) (typing : Typing) {name : String}
    {args : List (RuntimeValue ν)} {s : Machine ν} (hheap : Conforms typing s.heap)
    (hrespects : ∀ p, Passes m .new name args s p → ∀ function,
      CompiledTo (parseSource source).program function p.function → Respects typing function p)
    {p : Point ν} (hp : Passes m .new name args s p) : Truthful m .new p := by
  have hverifiable := (compileSource_accepted_iff order source hcompiled hsize).mp hverified
  have hparams : ∀ function ∈ allFunctions (lowerProgram (parseSource source).program),
      (function.params.map IrParam.name).Nodup := by
    have hquiet : (analyzeSource order source).diagnostics = [] := by
      unfold compileSource lowerSource at hcompiled
      by_cases hempty : (analyzeSource order source).diagnostics.isEmpty = true
      · exact List.isEmpty_iff.mp hempty
      · rw [if_neg hempty] at hcompiled
        cases hcompiled
    intro function hmem
    obtain ⟨i, hi⟩ := List.getElem?_of_mem hmem
    have hmarked := programMarks_marked order hquiet
    have hlt := (List.getElem?_eq_some_iff.mp hi).1
    rw [hmarked.length_eq] at hlt
    obtain ⟨function', hi', hfound⟩ :=
      CompiledCode.forall₂_getElem? hmarked (List.getElem?_eq_getElem hlt)
    rw [hi] at hi'
    cases hi'
    exact hfound.params
  rw [compileSource_module hcompiled] at hrespects hp ⊢
  have hat := @passes_at ν _ _ _ (typedRuns typing hsize hverifiable hparams) _ _ _ hheap hrespects _ hp
  obtain ⟨function, compiled, final, hto, htranslation, hstands, hat⟩ := hat
  exact truthful_of_typed htranslation hstands hat
    (hrespects p hp function (hstands.runs.symm ▸ hto))

variable (m : BytecodeModule) (host : HostEnvironment ν)

def firstPoint (name : String) (args : List (RuntimeValue ν)) (s : Machine ν) :
    Option (Point ν) :=
  match dispatch m host name args s with
  | (.ok (.inr function), t) =>
    (findBlock function 0).toOption.map fun block => entry function block args t
  | _ => none

def pointBehind : ℕ → Point ν → Option (Point ν)
  | 0, p => some p
  | k + 1, p => (advance m host p).bind (pointBehind k)

/-- `check` holds from `p` to the `return` of its block, without a call in between. -/
def covered (check : Point ν → Bool) : ℕ → Point ν → Bool
  | 0, _ => false
  | k + 1, p => check p && match p.instruction with
    | none => true
    | some instruction => instruction.opcode ≠ .call && match advance m host p with
      | some q => covered check k q
      | none => instruction.opcode = .return

variable {m host}

omit [F64 ν] in
theorem firstPoint_enters {name : String} {args : List (RuntimeValue ν)} {s : Machine ν}
    {start p : Point ν} (hstart : firstPoint m host name args s = some start)
    (h : Enters m host name args s p) : p = start := by
  obtain ⟨function, block, t, hdispatch, hblock, rfl⟩ := h
  rw [firstPoint, hdispatch] at hstart
  dsimp only at hstart
  rw [hblock] at hstart
  exact Option.some.inj hstart

omit [F64 ν] in
theorem enters_firstPoint {name : String} {args : List (RuntimeValue ν)} {s : Machine ν}
    {start : Point ν} (hstart : firstPoint m host name args s = some start) :
    Enters m host name args s start := by
  unfold firstPoint at hstart
  split at hstart
  · rename_i function t hdispatch
    obtain ⟨block, hblock, rfl⟩ := Option.map_eq_some_iff.mp hstart
    refine ⟨function, block, t, hdispatch, ?_, rfl⟩
    cases hfound : findBlock function 0 with
    | error e =>
      rw [hfound] at hblock
      cases hblock
    | ok found =>
      rw [hfound] at hblock
      cases hblock
      rfl
  · cases hstart

theorem pointBehind_reaches (k : ℕ) {p q : Point ν} (h : pointBehind m host k p = some q) :
    Reaches m host p q := by
  induction k generalizing p with
  | zero =>
    cases h
    exact .refl
  | succ k ih =>
    obtain ⟨next, hnext, hrest⟩ := Option.bind_eq_some_iff.mp h
    cases advance_flow m host hnext with
    | next hstep => exact .head hstep.step (ih hrest)
    | jump hexec hblock => exact .head (.jump hexec hblock) (ih hrest)

theorem flow_instruction {p q : Point ν} (h : Flow m host p q) :
    ∃ instruction, p.instruction = some instruction ∧ instruction.opcode ≠ .return := by
  cases h with
  | next hnext =>
    obtain ⟨frame, t, hexec, rfl⟩ := hnext
    obtain ⟨instruction, hi, heffect⟩ := hexec.effect
    refine ⟨instruction, hi, fun hop => ?_⟩
    cases heffect with
    | push hdefines =>
      rw [hop] at hdefines
      cases hdefines
    | storeLocal hstore | storeMember hstore =>
      rw [hop] at hstore
      cases hstore
  | jump hexec _ =>
    obtain ⟨instruction, hi, heffect⟩ := hexec.effect
    refine ⟨instruction, hi, fun hop => ?_⟩
    cases heffect with
    | branch hjump | jump hjump =>
      rw [hop] at hjump
      cases hjump

theorem covered_reaches {check : Point ν → Bool} (k : ℕ) {p q : Point ν}
    (h : covered m host check k p = true) (hreach : Reaches m host p q) : check q = true := by
  induction k generalizing p with
  | zero => cases h
  | succ k ih =>
    rw [covered, Bool.and_eq_true] at h
    obtain ⟨hcheck, hrest⟩ := h
    rcases Relation.ReflTransGen.cases_head hreach with rfl | ⟨r, hstep, hreach⟩
    · exact hcheck
    have hflow (flow : Flow m host p r) : covered m host check k r = true := by
      obtain ⟨instruction, hi, hop⟩ := flow_instruction flow
      rw [hi] at hrest
      dsimp only at hrest
      rw [Bool.and_eq_true] at hrest
      cases hnext : advance m host p with
      | none =>
        rw [hnext] at hrest
        exact absurd (of_decide_eq_true hrest.2) hop
      | some next =>
        rw [hnext] at hrest
        rw [flow.unique (advance_flow m host hnext)]
        exact hrest.2
    cases hstep with
    | next hnext => exact ih (hflow (.next hnext)) hreach
    | jump hexec hblock => exact ih (hflow (.jump hexec hblock)) hreach
    | call hcalls _ =>
      obtain ⟨instruction, hi, hop, _⟩ := hcalls
      rw [hi] at hrest
      dsimp only at hrest
      rw [Bool.and_eq_true] at hrest
      exact absurd hop (of_decide_eq_true hrest.1)

theorem passes_covered {check : Point ν → Bool} {name : String} {args : List (RuntimeValue ν)}
    {s : Machine ν} {k : ℕ}
    (h : ∃ start ∈ firstPoint m host name args s, covered m host check k start = true) {p : Point ν}
    (hp : Passes m host name args s p) : check p = true := by
  obtain ⟨start, hstart, hcovered⟩ := h
  obtain ⟨first, henter, hreach⟩ := hp
  rw [firstPoint_enters hstart henter] at hreach
  exact covered_reaches k hcovered hreach

/-- A string behind an instruction that is tagged as a number. -/
theorem not_truthful {p q : Point ν} (hnext : advance m host p = some q) {text : String}
    (hvalue : q.frame.values.getLast? = some (.string text))
    (hinstruction : p.instruction.map (fun instruction => (instruction.opcode, instruction.typeTag)) =
      some (.binary, .number)) : ¬ Truthful m host p := by
  intro htruthful
  obtain ⟨instruction, hi, hpair⟩ := Option.map_eq_some_iff.mp hinstruction
  obtain ⟨hop, htag⟩ := Prod.mk.inj hpair
  have hexecutes : ∃ frame t, Executes m host p .continue frame t ∧ q.frame = frame := by
    rw [advance, hi] at hnext
    dsimp only [Option.bind_eq_bind, Option.bind_some] at hnext
    split at hnext
    · rename_i frame t hexec
      cases hnext
      exact ⟨frame, t, ⟨instruction, 0, hi, hexec⟩, rfl⟩
    · cases hnext
  obtain ⟨frame, t, hexec, hframe⟩ := hexecutes
  obtain ⟨found, hfound, heffect⟩ := hexec.effect
  rw [hi] at hfound
  cases hfound
  cases heffect with
  | push hdefines value =>
    rw [hframe, Frame.pushValue, List.getLast?_concat] at hvalue
    cases hvalue
    have hkind := htruthful instruction hi _ _ hexec
    rw [htag] at hkind
    obtain ⟨n, hn⟩ := hkind
    cases hn
  | storeLocal hstore | storeMember hstore =>
    rw [hop] at hstore
    cases hstore

end

/-- An object whose member is stored and read. -/
theorem memberSource_truthful :
    let source := "let o = { a: 1 }; o.a = 2; let x = o.a + 1; let b = x < 3;"
    let m := compile (lowerProgram (parseSource source).program)
    (compileSource .listed source).module = some m ∧ verifyModule m = .ok () ∧
      ∀ p : Point Int, Passes m .new "__entry" [] .new p → Truthful m .new p := by
  intro source m
  have hcompiled : (compileSource .listed source).module = some m :=
    compileSource_eq_some (by decide +kernel)
  have hverified : verifyModule m = .ok () := by decide +kernel
  have hfunctions : (lowerProgram (parseSource source).program).functions = [] :=
    List.isEmpty_iff.mp (by decide +kernel)
  have hcovered : ∃ start ∈ firstPoint m .new "__entry" [] (.new : Machine Int),
      covered m .new (fun p => decide (Respects (fun _ => [[("a", .number)]])
        (lowerProgram (parseSource source).program).entry p)) 20 start = true := by decide +kernel
  refine ⟨hcompiled, hverified, fun p hp => ?_⟩
  refine compiledSource_truthful .listed source hcompiled (by decide +kernel) hverified
    (fun _ => [[("a", .number)]]) (conforms_new _) (fun q hq function hfunction => ?_) hp
  obtain ⟨i, hi, _⟩ := hfunction
  have hmem := List.mem_of_getElem? hi
  rw [allFunctions, hfunctions, List.nil_append, List.mem_singleton] at hmem
  rw [hmem]
  exact of_decide_eq_true (passes_covered hcovered hq)

/-- Two strings are added under the tag of a number. -/
theorem joinedSource_not_truthful :
    let source := "let s = \"a\" + \"b\";"
    ∃ m, (compileSource .listed source).module = some m ∧ verifyModule m = .ok () ∧
      irSize (lowerProgram (parseSource source).program) < 2 ^ 32 ∧
      ∃ p : Point Int, Passes m .new "__entry" [] .new p ∧ ¬ Truthful m .new p := by
  intro source
  have hcomputed : ∃ start ∈ firstPoint (compile (lowerProgram (parseSource source).program)) .new
      "__entry" [] (.new : Machine Int),
      ∃ p ∈ pointBehind (compile (lowerProgram (parseSource source).program)) .new 2 start,
      ∃ q ∈ advance (compile (lowerProgram (parseSource source).program)) .new p,
        q.frame.values.getLast? = some (.string "ab") ∧
        p.instruction.map (fun instruction => (instruction.opcode, instruction.typeTag)) =
          some (.binary, .number) := by decide +kernel
  obtain ⟨start, hstart, p, hp, q, hq, hvalue, hinstruction⟩ := hcomputed
  exact ⟨_, compileSource_eq_some (by decide +kernel), by decide +kernel, by decide +kernel, p,
    ⟨start, enters_firstPoint hstart, pointBehind_reaches 2 hp⟩, not_truthful hq hvalue hinstruction⟩

end Tsvm.TypeTags
