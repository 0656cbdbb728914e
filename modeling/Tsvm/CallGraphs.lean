import Tsvm.ActivationPoints
import Tsvm.BlockVisits
import Tsvm.Budgets
import Tsvm.MeaningPreservation
import Tsvm.ObjectGraphs
import Tsvm.StoreTypings

set_option autoImplicit false

/-!
# Programs without recursion

The interpreter has no bound on the depth of the calls, and none on the jumps of an
activation. Where neither the functions of a module nor the blocks of a function form a
circle, no call uses up a budget that is fixed by the module, whatever the host answers. What
is left is the recursion through a cyclic object, which ends where no store makes a cycle.
Of a source only the calls have to be looked at.
-/
namespace Tsvm.CallGraphs
open Ast Bytecode BytecodeVerifier Interop Lowering RuntimeValues Interpreter InterpreterSteps
  RuntimeFailures EntryOrders BlockVisits Relation
open Parsing Pipeline Compilation Semantic SourceMeaning ExpressionRuns MeaningPreservation
  StoreTypings LoweringBlocks CompiledOperands FunctionSlots ActivationPoints BlockGraphs
  TopLevelFunctions
open FailState (Avoids Extends)
open ObjectGraphs (layered callFunction_acyclic execute_acyclic call_acyclic)
open RunInvariants (CallStoresAllowed HeapInvariant)

variable {ν : Type}

theorem HeapFailure.ne_outOfFuel {e : Stop} (h : HeapFailure e) : e ≠ .outOfFuel := by
  cases h <;> exact fun he => nomatch he

theorem Except.bind_ne {ε α β : Type} {e₀ : ε} {x : Except ε α} {f : α → Except ε β}
    (hx : x ≠ .error e₀) (hf : ∀ a, f a ≠ .error e₀) : (x >>= f) ≠ .error e₀ := by
  intro h
  rcases Except.bind_eq_error h with h | ⟨a, _, h⟩
  · exact hx h
  · exact hf a h

theorem operand_ne (instruction : Instruction) (index : ℕ) :
    operand instruction index ≠ .error .outOfFuel := by
  unfold operand
  split <;> exact fun h => nomatch h

theorem symbolName_ne (constant : Constant) : symbolName constant ≠ .error .outOfFuel := by
  unfold symbolName
  split <;> exact fun h => nomatch h

theorem constant_ne (m : BytecodeModule) (index : UInt32) :
    constant m index ≠ .error .outOfFuel := by
  unfold constant
  split <;> exact fun h => nomatch h

theorem symbol_ne (m : BytecodeModule) (index : UInt32) : symbol m index ≠ .error .outOfFuel :=
  Except.bind_ne (constant_ne m index) symbolName_ne

section

variable (frame : Frame ν)

theorem loadLocal_ne (index : UInt32) : frame.loadLocal index ≠ .error .outOfFuel := by
  unfold Frame.loadLocal
  split <;> exact fun h => nomatch h

theorem value_ne (index : UInt32) : frame.value index ≠ .error .outOfFuel := by
  unfold Frame.value
  split <;> exact fun h => nomatch h

theorem frameValues_ne (operands : List UInt32) :
    frameValues frame operands ≠ .error .outOfFuel := by
  intro h
  obtain ⟨index, _, h⟩ := Except.mapM_eq_error h
  exact value_ne frame index h

theorem objectFields_ne (m : BytecodeModule) (instruction : Instruction) (indices : List ℕ)
    (object : Std.TreeMap String (RuntimeValue ν)) :
    objectFields m instruction frame indices object ≠ .error .outOfFuel := by
  induction indices generalizing object with
  | nil => exact fun h => nomatch h
  | cons index indices ih =>
    refine Except.bind_ne ?_ fun field => ih _
    refine Except.bind_ne (operand_ne _ _) fun nameIndex => ?_
    refine Except.bind_ne (constant_ne m nameIndex) fun nameConstant => ?_
    refine Except.bind_ne (operand_ne _ _) fun valueId => ?_
    refine Except.bind_ne (symbolName_ne nameConstant) fun name => ?_
    exact Except.bind_ne (value_ne frame valueId) fun value h => nomatch h

theorem callOperands_ne (m : BytecodeModule) (instruction : Instruction) :
    callOperands m instruction frame ≠ .error .outOfFuel := by
  refine Except.bind_ne (Except.bind_ne (operand_ne _ _) (symbol_ne m)) fun callee => ?_
  refine Except.bind_ne (operand_ne _ _) fun argc => ?_
  exact Except.bind_ne (frameValues_ne frame _) fun args h => nomatch h

end

theorem allocate_avoids (value : HeapValue ν) : Avoids .outOfFuel (allocate value) :=
  fun _ h => nomatch h

theorem loadMember_ne (heap : Store ν) (object : RuntimeValue ν) (property : String) :
    loadMember heap object property ≠ .error .outOfFuel := by
  intro h
  rcases loadMember_error h with h | h
  · exact HeapFailure.ne_outOfFuel h rfl
  · cases h

theorem storeMember_ne (heap : Store ν) (object : RuntimeValue ν) (property : String)
    (value : RuntimeValue ν) : storeMember heap object property value ≠ .error .outOfFuel := by
  intro h
  rcases storeMember_error h with h | h
  · exact HeapFailure.ne_outOfFuel h rfl
  · cases h

theorem loadRun_avoids (object : RuntimeValue ν) (property : String) :
    Avoids .outOfFuel (loadRun object property) :=
  .bind .read fun s => .lift (loadMember_ne s.heap object property)

theorem storeRun_avoids (object : RuntimeValue ν) (property : String) (value : RuntimeValue ν) :
    Avoids .outOfFuel (storeRun object property value) :=
  .bind .read fun s => .bind (.lift (storeMember_ne s.heap object property value))
    fun _ => .modify _

theorem callHost_avoids (host : HostEnvironment ν) (name : String) (args : List (RuntimeValue ν)) :
    Avoids .outOfFuel (callHost host name args) := by
  refine .bind .read fun s => .bind (.lift ?_) fun values => ?_
  · intro h
    obtain ⟨value, _, h⟩ := Except.mapM_eq_error h
    rcases Except.bind_eq_error h with h | ⟨_, _, h⟩
    · exact HeapFailure.ne_outOfFuel (materialize_error h) rfl
    · cases h
  · cases host.call s.hostCalls name values with
    | none => exact .pure _
    | some answer =>
      refine .bind (.modify _) fun _ => ?_
      cases answer with
      | error error => exact .fail fun h => nomatch h
      | ok value => exact .bind (.modify _) fun _ => .pure _

/-- The console and the host answer by themselves. -/
theorem answer_avoids {host : HostEnvironment ν} {name : String} {args : List (RuntimeValue ν)}
    {rest : Run ν (RuntimeValue ν)} (h : Avoids .outOfFuel rest) :
    Avoids .outOfFuel (if name = "console.log" then do
        FailState.modify fun s => { s with console := s.console ++ args }
        pure .undefined
      else do
        match ← callHost host name args with
        | some result => pure result
        | none => rest) := by
  by_cases hconsole : name = "console.log"
  · rw [if_pos hconsole]
    exact .bind (.modify _) fun _ => .pure _
  · rw [if_neg hconsole]
    refine (callHost_avoids host name args).bind fun answer => ?_
    cases answer with
    | some result => exact .pure _
    | none => exact h

section

variable [F64 ν]

theorem valueFromConstant_ne (constant : Constant) :
    (valueFromConstant constant : Except Stop (RuntimeValue ν)) ≠ .error .outOfFuel := by
  cases constant with
  | number text =>
    rw [valueFromConstant]
    intro h
    split at h
    · cases h
    · cases h
  | _ =>
    intro h
    cases h

theorem binary_ne (op : UInt32) (heap : Store ν) (left right : RuntimeValue ν) :
    binary op heap left right ≠ .error .outOfFuel := by
  intro h
  rcases binary_error h with h | h | ⟨_, h⟩
  · exact HeapFailure.ne_outOfFuel h rfl
  · cases h
  · cases h

def calledNames (m : BytecodeModule) (function : BytecodeFunction) : List String :=
  (function.blocks.flatMap BytecodeBlock.instructions).filterMap fun instruction =>
    match instruction.opcode with
    | .call => (operand instruction 0 >>= symbol m).toOption
    | _ => none

def Calls (m : BytecodeModule) (f g : BytecodeFunction) : Prop :=
  f ∈ m.functions ∧ ∃ name ∈ calledNames m f, findFunction m name = .ok g

/-- Neither the blocks of a function nor the functions lead back to where they start. -/
structure WithoutRecursion (m : BytecodeModule) : Prop where
  blocks : ∀ function ∈ m.functions, Acyclic (Jumps function)
  calls : Acyclic (Calls m)

/-- One unit for each function, and what the longest of them needs for its blocks. -/
def sufficientFuel (m : BytecodeModule) : ℕ :=
  (m.functions.map fun function => function.blocks.length).foldr max 0 + m.functions.length + 1

variable {m : BytecodeModule} {call : Call ν} {function : BytecodeFunction}
  {host : HostEnvironment ν}

theorem executeInstruction_avoids {instruction : Instruction}
    (hcall : instruction.opcode = .call → ∀ name,
      (operand instruction 0 >>= symbol m) = .ok name → ∀ args, Avoids .outOfFuel (call name args))
    (frame : Frame ν) : Avoids .outOfFuel (executeInstruction m call instruction frame) := by
  obtain ⟨opcode, operands, tag, src⟩ := instruction
  have hvalue (index : ℕ) :
      Avoids .outOfFuel (FailState.lift (operand ⟨opcode, operands, tag, src⟩ index >>=
        frame.value) : Run ν (RuntimeValue ν)) :=
    .lift (Except.bind_ne (operand_ne _ _) (value_ne frame))
  have hsymbol (index : ℕ) :
      Avoids .outOfFuel (FailState.lift (operand ⟨opcode, operands, tag, src⟩ index >>=
        symbol m) : Run ν String) :=
    .lift (Except.bind_ne (operand_ne _ _) (symbol_ne m))
  cases opcode with
  | loadConst =>
    refine .bind (.lift (Except.bind_ne (operand_ne _ _) (constant_ne m))) fun constant => ?_
    exact .bind (.lift (valueFromConstant_ne constant)) fun value => .pure _
  | buildObject =>
    refine .bind (.lift (operand_ne _ _)) fun count => ?_
    refine .bind (.lift (objectFields_ne frame m _ _ _)) fun object => ?_
    exact .bind (allocate_avoids _) fun handle => .pure _
  | buildArray =>
    refine .bind (.lift (operand_ne _ _)) fun count => ?_
    refine .bind (.lift (frameValues_ne frame _)) fun values => ?_
    exact .bind (allocate_avoids _) fun handle => .pure _
  | loadLocal =>
    exact .bind (.lift (Except.bind_ne (operand_ne _ _) (loadLocal_ne frame)))
      fun value => .pure _
  | storeLocal =>
    exact .bind (hvalue 1) fun value => .bind (.lift (operand_ne _ _)) fun slot => .pure _
  | loadMember =>
    refine .bind (hvalue 0) fun object => .bind (hsymbol 1) fun property => ?_
    exact (loadRun_avoids object property).bind fun value => .pure _
  | storeMember =>
    refine .bind (hvalue 0) fun object => .bind (hsymbol 1) fun property => ?_
    refine .bind (hvalue 2) fun value => ?_
    refine .bind .read fun s => .bind (.lift ?_) fun heap => .bind (.modify _) fun _ => .pure _
    exact storeMember_ne s.heap object property value
  | binary =>
    refine .bind (hvalue 1) fun left => .bind (hvalue 2) fun right => ?_
    refine .bind (.lift (operand_ne _ _)) fun op => .bind .read fun s => ?_
    exact .bind (.lift (binary_ne op s.heap left right)) fun value => .pure _
  | call =>
    refine .bind_of (.lift (callOperands_ne frame m _)) ?_
    rintro s ⟨name, args⟩ t hoperands
    obtain ⟨callee, hcallee, hrest⟩ := Except.bind_eq_ok.mp (congrArg Prod.fst hoperands)
    obtain ⟨argc, _, hrest⟩ := Except.bind_eq_ok.mp hrest
    obtain ⟨values, _, hrest⟩ := Except.bind_eq_ok.mp hrest
    cases hrest
    exact (hcall rfl name hcallee args).bind (fun value => .pure _) t
  | branch =>
    exact .bind (hvalue 0) fun condition => .bind (.lift (operand_ne _ _)) fun target => .pure _
  | jump => exact .bind (.lift (operand_ne _ _)) fun target => .pure _
  | «return» =>
    cases operands with
    | nil => exact .pure _
    | cons value rest => exact .bind (.lift (value_ne frame value)) fun value => .pure _

def Answers (m : BytecodeModule) (call : Call ν) (function : BytecodeFunction) : Prop :=
  ∀ name ∈ calledNames m function, ∀ args, Avoids .outOfFuel (call name args)

theorem executeBlock_avoids (hcall : Answers m call function) {code : List Instruction}
    (hcode : code ⊆ function.blocks.flatMap BytecodeBlock.instructions) (frame : Frame ν) :
    Avoids .outOfFuel (executeBlock m call code frame) := by
  induction code generalizing frame with
  | nil => exact .pure _
  | cons instruction rest ih =>
    obtain ⟨hmem, hrest⟩ := List.cons_subset.mp hcode
    refine .bind (executeInstruction_avoids ?_ frame) ?_
    · intro hop name hname
      refine hcall name (List.mem_filterMap.mpr ⟨instruction, hmem, ?_⟩)
      rw [hop, hname]
      rfl
    · rintro ⟨flow, after⟩
      cases flow with
      | «continue» => exact ih hrest after
      | jump target => exact .pure _
      | «return» value => exact .pure _

theorem visited_of_outOfFuel (hcall : Answers m call function) {turns : ℕ} {id : UInt32}
    {frame : Frame ν} {s : Machine ν}
    (h : (executeFrame m call function turns id frame s).1 = .error .outOfFuel) :
    (visited m call function turns id frame s).length = turns := by
  induction turns generalizing id frame s with
  | zero => rfl
  | succ turns ih =>
    cases hturn : turn m call function id frame s with
    | some after =>
      obtain ⟨next, frame', s'⟩ := after
      rw [executeFrame_of_turn hturn] at h
      rw [visited, hturn, List.length_cons, ih h]
    | none =>
      exfalso
      rw [executeFrame] at h
      cases hblock : findBlock function id with
      | error e =>
        rw [hblock, FailState.bind_error (FailState.lift_run _ _)] at h
        rw [(findBlock_error hblock).1] at h
        cases h
      | ok block =>
        have hcode : block.instructions ⊆ function.blocks.flatMap BytecodeBlock.instructions :=
          fun _ hmem => List.mem_flatMap.mpr ⟨block, (findBlock_eq_ok hblock).1, hmem⟩
        have havoids := executeBlock_avoids hcall hcode frame s
        rw [hblock, FailState.bind_ok (FailState.lift_run _ _)] at h
        unfold turn at hturn
        simp only [hblock] at hturn
        cases hexec : executeBlock m call block.instructions frame s with
        | mk result t =>
          rw [hexec] at havoids
          simp only [hexec] at hturn
          cases result with
          | error e =>
            rw [FailState.bind_error hexec] at h
            exact havoids (congrArg Except.error (Except.error.inj h))
          | ok done =>
            obtain ⟨flow, last⟩ := done
            rw [FailState.bind_ok hexec] at h
            cases flow with
            | «continue» => cases h
            | «return» value => cases h
            | jump next => simp only [reduceCtorEq] at hturn

theorem executeFrame_avoids (hacyclic : Acyclic (Jumps function)) (hcall : Answers m call function)
    {turns : ℕ} (hturns : function.blocks.length + 1 < turns) (frame : Frame ν) :
    Avoids .outOfFuel (executeFrame m call function turns 0 frame) := by
  intro s h
  have hlength := visited_of_outOfFuel hcall h
  have hwalk : (visited m call function turns 0 frame s).IsChain (Jumps function) :=
    (visited_walk turns 0 frame s).1
  -- Only the last block of the walk need not be there.
  have hinside : (visited m call function turns 0 frame s).dropLast ⊆ blockIds function := by
    intro a hmem
    obtain ⟨b, block, hblock, _⟩ := walk_dropLast hwalk a hmem
    obtain ⟨hmem, hid⟩ := findBlock_eq_ok hblock
    exact List.mem_map.mpr ⟨block, hmem, hid⟩
  have hle := hacyclic.length_le hwalk.dropLast hinside
  rw [List.length_dropLast, blockIds, List.length_map] at hle
  omega

theorem blocks_le_foldr {functions : List BytecodeFunction} (hmem : function ∈ functions) :
    function.blocks.length ≤
      (functions.map fun function => function.blocks.length).foldr max 0 := by
  induction functions with
  | nil => cases hmem
  | cons first rest ih =>
    rw [List.map_cons, List.foldr_cons]
    rcases List.mem_cons.mp hmem with rfl | hmem
    · exact Nat.le_max_left _ _
    · exact Nat.le_trans (ih hmem) (Nat.le_max_right _ _)

theorem callFunction_avoids {fuel : ℕ} {name : String}
    (h : ∀ function, findFunction m name = .ok function → ∀ args, Avoids .outOfFuel
      (executeFrame m (callFunction m host fuel) function (fuel + 1) 0 (.new function args)))
    (args : List (RuntimeValue ν)) :
    Avoids .outOfFuel (callFunction m host (fuel + 1) name args) := by
  rw [callFunction_eq]
  refine answer_avoids (.bind_of (.lift ?_) ?_)
  · unfold findFunction
    split <;> exact fun h => nomatch h
  · intro s function t hfound
    exact h function (congrArg Prod.fst hfound) args t

theorem WithoutRecursion.avoids (h : WithoutRecursion m) {fuel : ℕ}
    (hfuel : sufficientFuel m ≤ fuel) (name : String) (args : List (RuntimeValue ν)) :
    Avoids .outOfFuel (callFunction m host fuel name args) := by
  obtain ⟨n, rfl⟩ : ∃ n, fuel = n + 1 := ⟨fuel - 1, by unfold sufficientFuel at hfuel; omega⟩
  refine callFunction_avoids (fun function hfound args => ?_) args
  refine h.calls.enough m.functions _
    (P := fun n function => ∀ args, Avoids .outOfFuel
      (executeFrame m (callFunction m host n) function (n + 1) 0 (.new function args)))
    (fun f g hcalls => ?_) (fun n f hn hmem hcallees args => ?_) (findFunction_mem hfound)
    (Nat.le_of_succ_le_succ hfuel) args
  · obtain ⟨_, name, _, hfound⟩ := hcalls
    exact findFunction_mem hfound
  · have hblocks := blocks_le_foldr hmem
    refine executeFrame_avoids (h.blocks f hmem) (fun name hname args => ?_) (by omega) _
    exact callFunction_avoids (fun g hg args => hcallees g ⟨hmem, name, hname, hg⟩ args) args

/-- Whatever is called, the budget is not used up, and a larger one changes nothing. -/
structure Suffices (m : BytecodeModule) (host : HostEnvironment ν) (fuel : ℕ) : Prop where
  calls : ∀ name args, Avoids .outOfFuel (callFunction m host fuel name args)
  same : ∀ more, fuel ≤ more → callFunction m host more = callFunction m host fuel
  callsFromHost : ∀ name args,
    Avoids .outOfFuel (callFunction m host fuel name args >>= returnToHost)
  runs : Avoids .outOfFuel (execute m host fuel)
  sameRuns : ∀ more, fuel ≤ more → execute m host more = execute m host fuel

/-- Neither a budget was used up, nor did a recursion through the heap go on for ever. -/
def Ended {α : Type} (result : Except Stop α) : Prop :=
  result ≠ .error .outOfFuel ∧ result ≠ .error .stackOverflow

/-- The budget suffices, and a run in which no store makes a cycle of objects has ended. -/
structure EndsWithin (m : BytecodeModule) (host : HostEnvironment ν) (fuel : ℕ) : Prop where
  budget : Suffices m host fuel
  callEnds : ∀ name args,
    CallStoresAllowed (layered ν) m host name (runtimeArguments args).1 (runtimeArguments args).2 →
      Ended ((callFunction m host fuel name (runtimeArguments args).1 >>= returnToHost)
        (runtimeArguments args).2).1
  runEnds : CallStoresAllowed (layered ν) m host "__entry" [] .new →
    Ended (execute m host fuel .new).1

omit [F64 ν] in
theorem materialize_ne (heap : Store ν) (value : RuntimeValue ν) :
    materialize heap value ≠ .error .outOfFuel :=
  fun h => HeapFailure.ne_outOfFuel (materialize_error h) rfl

theorem Suffices.of_calls {fuel : ℕ}
    (h : ∀ name args, Avoids .outOfFuel (callFunction m host fuel name args)) :
    Suffices m host fuel := by
  have hsame (more : ℕ) (hle : fuel ≤ more) : callFunction m host more = callFunction m host fuel :=
    funext fun name => funext fun args =>
      (callFunction_extends m host hle name args).of_avoids (h name args)
  refine ⟨h, hsame, fun name args => (h name args).bind fun result => ?_, ?_, fun more hle => ?_⟩
  · refine .bind .read fun s => .bind (.modify _) fun _ => ?_
    exact .bind (.lift (materialize_ne _ _)) fun value => .pure _
  · refine (h "__entry" []).bind fun result => .bind .read fun s => .bind (.modify _) fun _ => ?_
    refine .bind (.lift fun herror => ?_) fun console => ?_
    · obtain ⟨value, _, herror⟩ := Except.mapM_eq_error herror
      exact materialize_ne _ _ herror
    · exact .bind (.lift (materialize_ne _ _)) fun value => .pure _
  · unfold execute
    rw [hsame more hle]

theorem Suffices.ends {fuel : ℕ} (h : Suffices m host fuel) : EndsWithin m host fuel where
  budget := h
  callEnds := fun name args hstores => ⟨h.callsFromHost name (runtimeArguments args).1 _,
    fun herror => FailState.wp_error (call_acyclic hstores fuel) (Prod.ext herror rfl) rfl⟩
  runEnds := fun hstores => ⟨h.runs _,
    fun herror => FailState.wp_error (execute_acyclic hstores fuel) (Prod.ext herror rfl) rfl⟩

/-- A module without recursion uses up no budget, and ends unless a store makes a cycle of
    objects. -/
theorem WithoutRecursion.endsWithin (h : WithoutRecursion m) (host : HostEnvironment ν) :
    EndsWithin m host (sufficientFuel m) :=
  (Suffices.of_calls (h.avoids (Nat.le_refl _))).ends

def storesNothing (m : BytecodeModule) : Bool :=
  m.functions.all fun function => function.blocks.all fun block =>
    block.instructions.all fun instruction => instruction.opcode != .storeMember

theorem storesAllowed_of_storesNothing (h : storesNothing m = true) (inv : HeapInvariant ν)
    (name : String) (args : List (RuntimeValue ν)) (s : Machine ν) :
    CallStoresAllowed inv m host name args s := by
  rintro p ⟨start, henter, hreach⟩ instruction handle property value hi hstore
  have hreachable : Reachable m host p := ⟨start, henter.starts, hreach⟩
  obtain ⟨hfunction, hblock⟩ := hreachable.inside
  have hop := List.all_eq_true.mp (List.all_eq_true.mp (List.all_eq_true.mp h p.function
    hfunction) p.block hblock) instruction (List.mem_of_getElem? hi)
  rw [hstore.opcode] at hop
  cases hop

end

def growsAlongCalls (m : BytecodeModule) (rank : String → ℕ) : Bool :=
  m.functions.all fun f => (calledNames m f).all fun name =>
    match findFunction m name with
    | .ok g => rank f.name < rank g.name
    | .error _ => true

theorem calls_acyclic {m : BytecodeModule} {rank : String → ℕ}
    (h : growsAlongCalls m rank = true) : Acyclic (Calls m) := by
  refine acyclic_of_rank (fun f => rank f.name) fun f g hcalls => ?_
  obtain ⟨hmem, name, hname, hfound⟩ := hcalls
  have hgrows := List.all_eq_true.mp (List.all_eq_true.mp h f hmem) name hname
  simp only [hfound, decide_eq_true_eq] at hgrows
  exact hgrows

theorem compiled_acyclicCode (program : Program) (hsize : irSize (lowerProgram program) ≤ 2 ^ 32) :
    ∀ function ∈ (compile (lowerProgram program)).functions, AcyclicCode function := by
  intro compiled hmem
  obtain ⟨i, hi⟩ := List.getElem?_of_mem hmem
  obtain ⟨function, c, hfunction, rfl⟩ := compileFunctions_getElem? hi
  have hlowered : function ∈ allFunctions (lowerProgram program) := List.mem_of_getElem? hfunction
  obtain ⟨count, hbuilt⟩ : ∃ count, Built function count := by
    rw [allFunctions, lowerProgram_functions] at hlowered
    rcases List.mem_append.mp hlowered with hplain | hentry
    · obtain ⟨binding, _, rfl⟩ := List.mem_map.mp hplain
      exact ⟨_, lowerFunction_built _ _⟩
    · rw [List.mem_singleton.mp hentry]
      exact ⟨_, entry_built program⟩
  refine acyclicCode hbuilt ?_ c
  have hle := functionSize_le_irSize hlowered
  have hblocks := length_le_blocksSize function.blocks
  have hlength := hbuilt.length
  unfold functionSize at hle
  omega

/-- Three levels of functions, the last one called from two places. -/
def leveledSource : String := "function half(x: number): number { return x / 2; }
function over(x: number): boolean { return half(x) > 4; }
function warn() { console.log(half(8)); return; }
function check(x: number) { if (over(x)) { warn(); } }
check(7); check(9);"

def level (name : String) : ℕ :=
  if name = "half" then 3 else if name = "over" ∨ name = "warn" then 2
  else if name = "check" then 1 else 0

theorem leveledModule_endsWithin :
    let m := compile (lowerProgram (parseSource leveledSource).program)
    EndsWithin m (.new : HostEnvironment Int) 10 ∧
      Ended (execute m (.new : HostEnvironment Int) 10 .new).1 := by
  intro m
  have hcomputed : irSize (lowerProgram (parseSource leveledSource).program) ≤ 2 ^ 32 ∧
      growsAlongCalls m level = true ∧ sufficientFuel m = 10 ∧ storesNothing m = true := by
    decide +kernel
  obtain ⟨hsize, hgrows, hfuel, hnothing⟩ := hcomputed
  have hwithout : WithoutRecursion m :=
    ⟨fun function hmem => (compiled_acyclicCode _ hsize function hmem).acyclic,
      calls_acyclic hgrows⟩
  have hends := hwithout.endsWithin (.new : HostEnvironment Int)
  rw [hfuel] at hends
  exact ⟨hends, hends.runEnds (storesAllowed_of_storesNothing hnothing _ _ _ _)⟩

mutual

def calledIn : Expression → List String
  | .object properties _ => calledInProperties properties
  | .array elements _ => calledInAll elements
  | .member object _ _ => calledIn object
  | .call callee arguments _ => calledInAll arguments ++ [calleeName callee]
  | .binary left _ right _ => calledIn left ++ calledIn right
  | .assignment left _ right _ =>
    match left with
    | .member object _ _ => calledIn object ++ calledIn right
    | _ => calledIn right
  | .unary _ argument _ => calledIn argument
  | .identifier _ _ | .number _ _ | .string _ _ | .boolean _ _ | .null _ | .undefined _
  | .error _ => []

def calledInAll : List Expression → List String
  | [] => []
  | expression :: expressions => calledIn expression ++ calledInAll expressions

def calledInProperties : List ObjectProperty → List String
  | [] => []
  | .mk _ value _ :: properties => calledIn value ++ calledInProperties properties

end

mutual

def calledInStatement : Statement → List String
  | .variable declaration _ => (declaration.initializer.map calledIn).getD []
  | .return value _ => (value.map calledIn).getD []
  | .expression value _ | .throw value _ => calledIn value
  | .if test consequent alternate _ =>
    calledIn test ++ calledInStatement consequent ++ calledInAlternate alternate
  | .block body _ => calledInStatements body
  | .export inner _ => calledInStatement inner
  | .interface _ _ | .typeAlias _ _ | .class _ _ | .function _ _ | .import _ _ | .empty _
  | .error _ | .while _ _ _ | .for _ _ _ _ _ => []

def calledInAlternate : Option Statement → List String
  | some alternate => calledInStatement alternate
  | none => []

def calledInStatements : List Statement → List String
  | [] => []
  | statement :: statements => calledInStatement statement ++ calledInStatements statements

end

def SourceCalls (program : Program) (f g : SourceFunction) : Prop :=
  f ∈ sourceFunctions program ∧ ∃ name ∈ calledInStatements f.body, findSource program name = .ok g

def growsAlongSource (program : Program) (rank : String → ℕ) : Bool :=
  (sourceFunctions program).all fun f => (calledInStatements f.body).all fun name =>
    match findSource program name with
    | .ok g => rank f.name < rank g.name
    | .error _ => true

theorem sourceCalls_acyclic {program : Program} {rank : String → ℕ}
    (h : growsAlongSource program rank = true) : Acyclic (SourceCalls program) := by
  refine acyclic_of_rank (fun f => rank f.name) fun f g hcalls => ?_
  obtain ⟨hmem, name, hname, hfound⟩ := hcalls
  have hgrows := List.all_eq_true.mp (List.all_eq_true.mp h f hmem) name hname
  simp only [hfound, decide_eq_true_eq] at hgrows
  exact hgrows

section

variable [F64 ν] {call : Call ν}

/-- The calls of these names do not run out of budget. -/
def AnswersAll (call : Call ν) (names : List String) : Prop :=
  ∀ name ∈ names, ∀ args, Avoids .outOfFuel (call name args)

omit [F64 ν] in
theorem AnswersAll.split {names more : List String} (h : AnswersAll call (names ++ more)) :
    AnswersAll call names ∧ AnswersAll call more :=
  List.forall_mem_append.mp h

theorem constant_avoids (constant : Constant) (env : Environment ν) :
    Avoids .outOfFuel (evaluateConstant constant env) :=
  .bind (.lift (valueFromConstant_ne constant)) fun _ => .pure _

theorem binaryRun_avoids (op : Ir.IrBinaryOp) (left right : RuntimeValue ν) :
    Avoids .outOfFuel (binaryRun op left right) :=
  .bind .read fun s => .lift (binary_ne _ s.heap left right)

theorem memberStoreRun_avoids (object : RuntimeValue ν) (property : String)
    (operator : AssignmentOperator) (right : RuntimeValue ν) :
    Avoids .outOfFuel (memberStoreRun object property operator right) := by
  cases operator with
  | assign => exact (storeRun_avoids object property right).bind fun _ => .pure _
  | _ =>
    refine (loadRun_avoids object property).bind fun current => ?_
    refine (binaryRun_avoids _ current right).bind fun result => ?_
    exact (storeRun_avoids object property result).bind fun _ => .pure _

mutual

theorem evaluate_avoids (expression : Expression) (h : AnswersAll call (calledIn expression))
    (env : Environment ν) : Avoids .outOfFuel (evaluate call expression env) := by
  cases expression with
  | identifier name span =>
    refine .bind (.lift ?_) fun value => .pure _
    unfold readVariable
    split <;> exact fun h => nomatch h
  | number | string | boolean | null | undefined | error => exact constant_avoids _ env
  | object properties span =>
    refine (evaluateProperties_avoids properties h env).bind fun fields => ?_
    exact (allocate_avoids _).bind fun handle => .pure _
  | array elements span =>
    refine (evaluateAll_avoids elements h env).bind fun values => ?_
    exact (allocate_avoids _).bind fun handle => .pure _
  | member object property span =>
    refine (evaluate_avoids object h env).bind fun object => ?_
    exact (loadRun_avoids _ property).bind fun value => .pure _
  | call callee arguments span =>
    obtain ⟨harguments, hcallee⟩ := h.split
    refine (evaluateAll_avoids arguments harguments env).bind fun values => ?_
    exact (hcallee _ (List.mem_singleton.mpr rfl) values.1).bind fun value => .pure _
  | binary left operator right span =>
    obtain ⟨hleft, hright⟩ := h.split
    refine (evaluate_avoids left hleft env).bind fun first => ?_
    refine (evaluate_avoids right hright first.2).bind fun second => ?_
    exact (binaryRun_avoids _ first.1 second.1).bind fun value => .pure _
  | assignment left operator right span =>
    cases left with
    | identifier name leftSpan => exact (evaluate_avoids right h env).bind fun value => .pure _
    | member object property leftSpan =>
      obtain ⟨hobject, hright⟩ := h.split
      refine (evaluate_avoids object hobject env).bind fun first => ?_
      refine (evaluate_avoids right hright first.2).bind fun second => ?_
      exact (memberStoreRun_avoids first.1 property operator second.1).bind fun stored => .pure _
    | _ => exact evaluate_avoids right h env
  | unary operator argument span => exact evaluate_avoids argument h env

theorem evaluateAll_avoids (expressions : List Expression)
    (h : AnswersAll call (calledInAll expressions)) (env : Environment ν) :
    Avoids .outOfFuel (evaluateAll call expressions env) := by
  match expressions with
  | [] => exact .pure _
  | expression :: expressions =>
    obtain ⟨hfirst, hrest⟩ := AnswersAll.split h
    refine (evaluate_avoids expression hfirst env).bind fun first => ?_
    exact (evaluateAll_avoids expressions hrest first.2).bind fun rest => .pure _

theorem evaluateProperties_avoids (properties : List ObjectProperty)
    (h : AnswersAll call (calledInProperties properties)) (env : Environment ν) :
    Avoids .outOfFuel (evaluateProperties call properties env) := by
  match properties with
  | [] => exact .pure _
  | .mk name value span :: properties =>
    obtain ⟨hfirst, hrest⟩ := AnswersAll.split h
    refine (evaluate_avoids value hfirst env).bind fun first => ?_
    exact (evaluateProperties_avoids properties hrest first.2).bind fun rest => .pure _

end

mutual

theorem evaluateStatement_avoids (statement : Statement)
    (h : AnswersAll call (calledInStatement statement)) (env : Environment ν) :
    Avoids .outOfFuel (evaluateStatement call statement env) := by
  cases statement with
  | «variable» declaration span =>
    obtain ⟨kind, name, ty, initializer⟩ := declaration
    cases initializer with
    | some expression => exact (evaluate_avoids expression h env).bind fun result => .pure _
    | none => exact (constant_avoids _ env).bind fun result => .pure _
  | «return» value span =>
    cases value with
    | some expression => exact (evaluate_avoids expression h env).bind fun result => .pure _
    | none => exact .pure _
  | expression value span | throw value span =>
    exact (evaluate_avoids value h env).bind fun result => .pure _
  | «if» test consequent alternate span =>
    obtain ⟨htest, halternate⟩ := h.split
    obtain ⟨htest, hconsequent⟩ := htest.split
    refine (evaluate_avoids test htest env).bind fun condition => ?_
    by_cases htruthy : truthy condition.1 = true
    · rw [if_pos htruthy]
      exact evaluateStatement_avoids consequent hconsequent condition.2
    · rw [if_neg htruthy]
      exact evaluateAlternate_avoids alternate halternate condition.2
  | block body span => exact evaluateStatements_avoids body h env
  | «export» inner span => exact evaluateStatement_avoids inner h env
  | _ => exact .pure _

theorem evaluateAlternate_avoids (alternate : Option Statement)
    (h : AnswersAll call (calledInAlternate alternate)) (env : Environment ν) :
    Avoids .outOfFuel (evaluateAlternate call alternate env) := by
  match alternate with
  | some statement => exact evaluateStatement_avoids statement h env
  | none => exact .pure _

theorem evaluateStatements_avoids (statements : List Statement)
    (h : AnswersAll call (calledInStatements statements)) (env : Environment ν) :
    Avoids .outOfFuel (evaluateStatements call statements env) := by
  match statements with
  | [] => exact .pure _
  | statement :: statements =>
    obtain ⟨hfirst, hrest⟩ := AnswersAll.split h
    refine (evaluateStatement_avoids statement hfirst env).bind fun outcome => ?_
    cases outcome with
    | «continue» env => exact evaluateStatements_avoids statements hrest env
    | «return» value => exact .pure _

end

variable {program : Program} {host : HostEnvironment ν}

theorem evaluateCall_avoids {fuel : ℕ} {name : String}
    (h : ∀ function, findSource program name = .ok function → ∀ args,
      Avoids .outOfFuel (evaluateBody (evaluateCall program host fuel) function args))
    (args : List (RuntimeValue ν)) :
    Avoids .outOfFuel (evaluateCall program host (fuel + 1) name args) := by
  refine answer_avoids (.bind_of (.lift ?_) ?_)
  · unfold findSource
    split <;> exact fun h => nomatch h
  · intro s function t hfound
    exact h function (congrArg Prod.fst hfound) args t

theorem findSource_mem {name : String} {function : SourceFunction}
    (h : findSource program name = .ok function) : function ∈ sourceFunctions program := by
  unfold findSource at h
  split at h
  · cases h
    exact List.mem_of_find?_eq_some ‹_›
  · cases h

theorem source_avoids (h : Acyclic (SourceCalls program)) {fuel : ℕ}
    (hfuel : (sourceFunctions program).length + 1 ≤ fuel) (name : String)
    (args : List (RuntimeValue ν)) :
    Avoids .outOfFuel (evaluateCall program host fuel name args) := by
  obtain ⟨n, rfl⟩ : ∃ n, fuel = n + 1 := ⟨fuel - 1, by omega⟩
  refine evaluateCall_avoids (fun function hfound args => ?_) args
  refine h.enough (sourceFunctions program) 0
    (P := fun n function => ∀ args, Avoids .outOfFuel
      (evaluateBody (evaluateCall program host n) function args)) (n := n)
    (fun f g hcalls => ?_) (fun n f _ hmem hcallees args => ?_) (findSource_mem hfound)
    (by omega) args
  · obtain ⟨_, name, _, hfound⟩ := hcalls
    exact findSource_mem hfound
  · have hanswers : AnswersAll (evaluateCall program host (n + 1)) (calledInStatements f.body) :=
      fun name hname args =>
        evaluateCall_avoids (fun g hg args => hcallees g ⟨hmem, name, hname, hg⟩ args) args
    refine (evaluateStatements_avoids f.body hanswers _).bind fun outcome => ?_
    cases outcome with
    | «continue» env => exact .pure _
    | «return» value => exact .pure _

/-- A prepared source without recursion needs three units more than it has functions, the
    top-level code included, and ends unless a store makes a cycle of objects. -/
theorem fromSource_endsWithin (order : IterationOrder) (source : String)
    {prepared : PreparedModule} (h : PreparedModule.fromSource order source = .ok prepared)
    (hsize : irSize (lowerProgram (parseSource source).program) < 2 ^ 32)
    (hcalls : Acyclic (SourceCalls (parseSource source).program)) (host : HostEnvironment ν) :
    EndsWithin prepared.module host
      ((sourceFunctions (parseSource source).program).length + 3) := by
  refine (Suffices.of_calls fun name args => ?_).ends
  have hmatches : Matches ν (parseSource source).program prepared.module :=
    fromSource_matches order source h hsize
  have hsource : Avoids .outOfFuel (evaluateCall (parseSource source).program host
      ((sourceFunctions (parseSource source).program).length + 1) name args) :=
    source_avoids hcalls (Nat.le_refl _) name args
  exact (evaluateCall_extends hmatches _ name args).avoids hsource

theorem leveledSource_endsWithin : ∃ prepared,
    PreparedModule.fromSource .listed leveledSource = .ok prepared ∧
      EndsWithin prepared.module (.new : HostEnvironment Int) 8 ∧
      Ended (prepared.executeWithHost (.new : HostEnvironment Int) 8) := by
  have hcomputed : (analyzeSource .listed leveledSource).diagnostics.isEmpty = true ∧
      verify (compile (lowerProgram (parseSource leveledSource).program)) = [] ∧
      irSize (lowerProgram (parseSource leveledSource).program) < 2 ^ 32 ∧
      growsAlongSource (parseSource leveledSource).program level = true ∧
      (sourceFunctions (parseSource leveledSource).program).length = 5 ∧
      storesNothing (compile (lowerProgram (parseSource leveledSource).program)) = true := by
    decide +kernel
  obtain ⟨hquiet, hverified, hsize, hgrows, hlength, hnothing⟩ := hcomputed
  obtain ⟨prepared, hprepared⟩ :=
    fromSource_of_accepted .listed hquiet ((BytecodeVerifierFacts.accepted_iff _).mpr hverified)
  have hends := fromSource_endsWithin .listed leveledSource hprepared hsize
    (sourceCalls_acyclic hgrows) (.new : HostEnvironment Int)
  rw [hlength] at hends
  rw [← (fromSource_eq_ok hprepared).2] at hnothing
  exact ⟨prepared, hprepared, hends,
    hends.runEnds (storesAllowed_of_storesNothing hnothing _ _ _ _)⟩

end

end Tsvm.CallGraphs
