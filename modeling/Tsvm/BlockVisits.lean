import Tsvm.BlockGraphs
import Tsvm.CompiledCode
import Tsvm.InterpreterSteps

set_option autoImplicit false

/-!
# The blocks an activation visits

The compiler writes the number of a block into 32 bits. As long as no number is
cut off by this, an activation goes along the edges of the graph of the lowered
blocks, and so it comes to no block twice. The test of the `if` whose blocks
start with number 2^32 goes back to block 0.
-/
namespace Tsvm.BlockVisits
open Ast Bytecode BytecodeVerifier Ir Lowering Compilation CompiledCode LoweringCode Interop
  RuntimeValues Interpreter InterpreterSteps EntryOrders BlockGraphs Relation

def jumpTargets (instruction : Instruction) : List UInt32 :=
  match instruction.opcode with
  | .branch => (instruction.operands.drop 1).take 2
  | .jump => instruction.operands.take 1
  | _ => []

def Jumps (function : BytecodeFunction) (a b : UInt32) : Prop :=
  ∃ block, findBlock function a = .ok block ∧
    ∃ instruction ∈ block.instructions, b ∈ jumpTargets instruction

/-- The jumps of the bytecode find a block, and lead in no circle. -/
structure AcyclicCode (function : BytecodeFunction) : Prop where
  found : ∀ a b, Jumps function a b → ∃ block, findBlock function b = .ok block
  acyclic : Acyclic (Jumps function)

theorem compiles_jumpTargets {instruction : IrInstruction} {compiled : Instruction}
    (h : Compiles instruction compiled) :
    jumpTargets compiled = (targets instruction.kind).map .ofNat := by
  obtain ⟨s, slots, rfl⟩ := h
  obtain ⟨kind, result, ty, span⟩ := instruction
  cases kind with
  | loadConst constant => cases constant <;> rfl
  | _ => rfl

theorem mem_jumpTargets {ν : Type} {instruction : Instruction} {frame frame' : Frame ν}
    {target : UInt32} (h : Effect instruction frame (.jump target) frame') :
    target ∈ jumpTargets instruction := by
  cases h with
  | branch hop htarget =>
    rw [jumpTargets, hop]
    rcases htarget with hthen | helse
    · exact List.mem_of_getElem? (i := 0) (by simpa using hthen)
    · exact List.mem_of_getElem? (i := 1) (by simpa using helse)
  | jump hop htarget =>
    rw [jumpTargets, hop]
    exact List.mem_of_getElem? (i := 0) (by simpa using htarget)

theorem findBlock_eq_ok_iff {function : BytecodeFunction}
    (hids : ∀ i (block : BytecodeBlock), function.blocks[i]? = some block → block.id = .ofNat i)
    {a : UInt32} {block : BytecodeBlock} :
    findBlock function a = .ok block ↔ function.blocks[a.toNat]? = some block := by
  have hid {i : ℕ} {b : BytecodeBlock} (hb : function.blocks[i]? = some b) :
      (b.id == a) = true ↔ i % 2 ^ 32 = a.toNat := by
    rw [beq_iff_eq, hids i b hb, ← UInt32.toNat_inj, UInt32.toNat_ofNat']
  have ha := a.toNat_lt
  have hfind : findBlock function a = .ok block ↔
      function.blocks.find? (fun block => block.id == a) = some block := by
    unfold findBlock
    cases function.blocks.find? fun block => block.id == a with
    | some found => simp
    | none => simp
  rw [hfind, List.find?_eq_some_iff_getElem]
  constructor
  · rintro ⟨hblock, i, hi, rfl, hbefore⟩
    have hmod := (hid (List.getElem?_eq_getElem hi)).mp hblock
    -- A later block with this id has the right one before it.
    have hsame : i = a.toNat := by
      by_contra hne
      have hlt : a.toNat < i := by omega
      have hother := hbefore a.toNat hlt
      have hself := (hid (List.getElem?_eq_getElem (Nat.lt_trans hlt hi))).mpr
        (Nat.mod_eq_of_lt a.toNat_lt)
      simp only [hself, Bool.not_true, Bool.false_eq_true] at hother
    rw [← hsame]
    exact List.getElem?_eq_getElem hi
  · intro hblock
    obtain ⟨hi, hget⟩ := List.getElem?_eq_some_iff.mp hblock
    refine ⟨(hid hblock).mpr (Nat.mod_eq_of_lt a.toNat_lt), a.toNat, hi, hget, fun j hj => ?_⟩
    have hother := hid (List.getElem?_eq_getElem (Nat.lt_trans hj hi))
    rw [Bool.not_eq_true', Bool.eq_false_iff]
    intro hself
    have hmod := hother.mp hself
    omega

section

variable {function : IrFunction} {count : ℕ}

theorem compiled_ids
    (hids : ∀ i (block : IrBlock), function.blocks[i]? = some block → block.id = i) (c : Compiler)
    (i : ℕ) (block : BytecodeBlock) (hblock : (compileFunction function c).1.blocks[i]? = some block) :
    block.id = .ofNat i := by
  obtain ⟨lowered, hlowered, hid, _⟩ := forall₂_getElem? (compileFunction_forall₂ function c) hblock
  rw [hid, hids i lowered hlowered]

theorem compiledBlocks_length (function : IrFunction) (c : Compiler) :
    (compileFunction function c).1.blocks.length = function.blocks.length :=
  (compileFunction_forall₂ function c).length_eq.symm

theorem jumps_iff (h : Built function count) (c : Compiler) {a b : UInt32} :
    Jumps (compileFunction function c).1 a b ↔
      ∃ t, Edge function.blocks a.toNat t ∧ b = .ofNat t := by
  have hfind {block : BytecodeBlock} : findBlock (compileFunction function c).1 a = .ok block ↔ _ :=
    findBlock_eq_ok_iff (compiled_ids h.ids c)
  constructor
  · rintro ⟨block, hblock, instruction, hmem, hb⟩
    obtain ⟨lowered, hlowered, _, hcode⟩ :=
      forall₂_getElem? (compileFunction_forall₂ function c) (hfind.mp hblock)
    obtain ⟨k, hk⟩ := List.getElem?_of_mem hmem
    obtain ⟨source, hsource, hcompiles⟩ := forall₂_getElem? hcode hk
    rw [compiles_jumpTargets hcompiles] at hb
    obtain ⟨t, ht, rfl⟩ := List.mem_map.mp hb
    exact ⟨t, ⟨lowered, hlowered, source, List.mem_of_getElem? hsource, ht⟩, rfl⟩
  · rintro ⟨t, ⟨lowered, hlowered, source, hsource, ht⟩, rfl⟩
    obtain ⟨block, hblock, _, hcode⟩ :=
      forall₂_getElem? (compileFunction_forall₂ function c).flip hlowered
    obtain ⟨k, hk⟩ := List.getElem?_of_mem hsource
    obtain ⟨compiled, hcompiled, hcompiles⟩ := forall₂_getElem? hcode.flip hk
    refine ⟨block, hfind.mpr hblock, compiled, List.mem_of_getElem? hcompiled, ?_⟩
    rw [compiles_jumpTargets hcompiles]
    exact List.mem_map_of_mem ht

theorem acyclicCode (h : Built function count) (hcount : count ≤ 1431655765) (c : Compiler) :
    AcyclicCode (compileFunction function c).1 where
  found := by
    intro a b hjumps
    obtain ⟨t, hedge, rfl⟩ := (jumps_iff h c).mp hjumps
    have hlt := h.targets _ t hedge
    have hlength := compiledBlocks_length function c
    have hmod := Nat.mod_le t (2 ^ 32)
    refine ⟨_, (findBlock_eq_ok_iff (compiled_ids h.ids c)).mpr (List.getElem?_eq_getElem ?_)⟩
    rw [UInt32.toNat_ofNat', hlength]
    omega
  acyclic := by
    refine h.acyclic.comap UInt32.toNat fun a b hjumps => ?_
    obtain ⟨t, hedge, rfl⟩ := (jumps_iff h c).mp hjumps
    have hlt := h.targets _ t hedge
    have hlength := h.length
    rw [UInt32.toNat_ofNat', Nat.mod_eq_of_lt (by omega)]
    exact hedge

/-- The test that goes to block 2^32 goes to block 0, and is reached from there. -/
theorem jumps_cycle (h : Built function count) (hcount : 1431655765 < count) (c : Compiler) :
    TransGen (Jumps (compileFunction function c).1) 0 0 := by
  have hlength := h.length
  obtain ⟨last, hpath, hedge⟩ := h.opens (2 ^ 32) (by omega) (by omega) (by omega)
  have hwalk : last < 2 ^ 32 ∧
      ReflTransGen (Jumps (compileFunction function c).1) 0 (.ofNat last) := by
    clear hedge
    induction hpath with
    | refl => exact ⟨by omega, .refl⟩
    | tail _ hstep ih =>
      refine ⟨hstep.2, ih.2.tail ((jumps_iff h c).mpr ⟨_, ?_, rfl⟩)⟩
      rw [UInt32.toNat_ofNat', Nat.mod_eq_of_lt ih.1]
      exact hstep.1
  refine .tail' hwalk.2 ((jumps_iff h c).mpr ⟨2 ^ 32, ?_, rfl⟩)
  rw [UInt32.toNat_ofNat', Nat.mod_eq_of_lt hwalk.1]
  exact hedge

end

section

variable {ν : Type} [F64 ν] (m : BytecodeModule) (call : Call ν) (function : BytecodeFunction)

def turn (id : UInt32) (frame : Frame ν) (s : Machine ν) :
    Option (UInt32 × Frame ν × Machine ν) :=
  match findBlock function id with
  | .error _ => none
  | .ok block =>
    match executeBlock m call block.instructions frame s with
    | (.ok (.jump next, frame), s) => some (next, frame, s)
    | _ => none

def visited : ℕ → UInt32 → Frame ν → Machine ν → List UInt32
  | 0, _, _, _ => []
  | turns + 1, id, frame, s =>
    id :: match turn m call function id frame s with
      | some (next, frame, s) => visited turns next frame s
      | none => []

variable {m : BytecodeModule} {call : Call ν} {function : BytecodeFunction}

theorem executeBlock_jump {code : List Instruction} {frame frame' : Frame ν} {next : UInt32}
    {s t : Machine ν} (h : executeBlock m call code frame s = (.ok (.jump next, frame'), t)) :
    ∃ instruction ∈ code, next ∈ jumpTargets instruction := by
  induction code generalizing frame s with
  | nil => simp [executeBlock] at h
  | cons instruction rest ih =>
    obtain ⟨⟨flow, last⟩, u, hexec, hrest⟩ := FailState.bind_eq_ok.mp h
    cases flow with
    | «continue» =>
      obtain ⟨later, hmem, hnext⟩ := ih hrest
      exact ⟨later, List.mem_cons_of_mem _ hmem, hnext⟩
    | jump target =>
      cases hrest
      exact ⟨instruction, List.mem_cons_self, mem_jumpTargets (executeInstruction_effect hexec)⟩
    | «return» value => simp at hrest

variable {id next : UInt32} {frame frame' : Frame ν} {s s' : Machine ν}

theorem turn_eq_some (h : turn m call function id frame s = some (next, frame', s')) :
    ∃ block, findBlock function id = .ok block ∧
      executeBlock m call block.instructions frame s = (.ok (.jump next, frame'), s') := by
  unfold turn at h
  cases hblock : findBlock function id with
  | error e => simp [hblock] at h
  | ok block =>
    refine ⟨block, rfl, ?_⟩
    cases hexec : executeBlock m call block.instructions frame s with
    | mk result t =>
      cases result with
      | error e => simp [hblock, hexec] at h
      | ok done =>
        obtain ⟨flow, last⟩ := done
        cases flow with
        | jump target =>
          simp only [hblock, hexec, Option.some.injEq, Prod.mk.injEq] at h
          obtain ⟨rfl, rfl, rfl⟩ := h
          rfl
        | «continue» => simp [hblock, hexec] at h
        | «return» value => simp [hblock, hexec] at h

theorem jumps_of_turn (h : turn m call function id frame s = some (next, frame', s')) :
    Jumps function id next := by
  obtain ⟨block, hblock, hexec⟩ := turn_eq_some h
  exact ⟨block, hblock, executeBlock_jump hexec⟩

theorem executeFrame_of_turn (h : turn m call function id frame s = some (next, frame', s'))
    (turns : ℕ) : executeFrame m call function (turns + 1) id frame s =
      executeFrame m call function turns next frame' s' := by
  obtain ⟨block, hblock, hexec⟩ := turn_eq_some h
  rw [executeFrame, hblock, FailState.bind_ok (FailState.lift_run _ _), FailState.bind_ok hexec]

theorem executeFrame_last (h : turn m call function id frame s = none) (turns turns' : ℕ) :
    executeFrame m call function (turns + 1) id frame s =
      executeFrame m call function (turns' + 1) id frame s := by
  unfold turn at h
  rw [executeFrame, executeFrame]
  cases hblock : findBlock function id with
  | error e =>
    rw [FailState.bind_error (FailState.lift_run _ _), FailState.bind_error (FailState.lift_run _ _)]
  | ok block =>
    rw [FailState.bind_ok (FailState.lift_run _ _), FailState.bind_ok (FailState.lift_run _ _)]
    cases hexec : executeBlock m call block.instructions frame s with
    | mk result t =>
      cases result with
      | error e => rw [FailState.bind_error hexec, FailState.bind_error hexec]
      | ok done =>
        obtain ⟨flow, last⟩ := done
        rw [FailState.bind_ok hexec, FailState.bind_ok hexec]
        cases flow with
        | jump target => simp [hblock, hexec] at h
        | «continue» => rfl
        | «return» value => rfl

theorem visited_walk (turns : ℕ) (id : UInt32) (frame : Frame ν) (s : Machine ν) :
    (visited m call function turns id frame s).IsChain (Jumps function) ∧
      ∀ first ∈ (visited m call function turns id frame s).head?, first = id := by
  induction turns generalizing id frame s with
  | zero => simp [visited]
  | succ turns ih =>
    cases hturn : turn m call function id frame s with
    | none => simp [visited, hturn]
    | some after =>
      obtain ⟨next, frame', s'⟩ := after
      obtain ⟨hwalk, hfirst⟩ := ih next frame' s'
      simp only [visited, hturn, List.isChain_cons, List.head?_cons, Option.mem_some_iff]
      refine ⟨⟨fun first hmem => ?_, hwalk⟩, fun first hmem => hmem.symm⟩
      rw [hfirst first hmem]
      exact jumps_of_turn hturn

theorem executeFrame_succ {turns : ℕ}
    (h : (visited m call function (turns + 1) id frame s).length ≤ turns) :
    executeFrame m call function (turns + 1) id frame s =
      executeFrame m call function turns id frame s := by
  induction turns generalizing id frame s with
  | zero => simp [visited] at h
  | succ turns ih =>
    cases hturn : turn m call function id frame s with
    | none => exact executeFrame_last hturn _ _
    | some after =>
      obtain ⟨next, frame', s'⟩ := after
      rw [visited, hturn, List.length_cons] at h
      rw [executeFrame_of_turn hturn, executeFrame_of_turn hturn]
      exact ih (Nat.le_of_succ_le_succ h)

end

/-- An activation visits no block twice, and its loop ends: there are no more turns than
    blocks, and a larger budget of turns changes nothing. -/
structure SingleVisits (function : BytecodeFunction) : Prop where
  once : ∀ (ν : Type) [F64 ν] (m : BytecodeModule) (call : Call ν) turns frame s,
    (visited m call function turns 0 frame s).Nodup
  turns : ∀ (ν : Type) [F64 ν] (m : BytecodeModule) (call : Call ν) turns frame s,
    (visited m call function turns 0 frame s).length ≤ function.blocks.length
  ends : ∀ (ν : Type) [F64 ν] (m : BytecodeModule) (call : Call ν) turns frame s,
    function.blocks.length ≤ turns →
      executeFrame m call function turns 0 frame s =
        executeFrame m call function function.blocks.length 0 frame s

theorem AcyclicCode.singleVisits {function : BytecodeFunction} (h : AcyclicCode function)
    (hentry : 0 ∈ blockIds function) : SingleVisits function := by
  have hlength (ν : Type) [F64 ν] (m : BytecodeModule) (call : Call ν) (turns : ℕ)
      (frame : Frame ν) (s : Machine ν) :
      (visited m call function turns 0 frame s).length ≤ function.blocks.length := by
    have hvisited : (visited m call function turns 0 frame s).IsChain (Jumps function) ∧ _ :=
      visited_walk turns 0 frame s
    obtain ⟨hwalk, hfirst⟩ := hvisited
    have hinside : visited m call function turns 0 frame s ⊆ blockIds function := by
      refine walk_subset hwalk (fun first hmem => by rw [hfirst first hmem]; exact hentry) ?_
      intro a b hjumps
      obtain ⟨block, hblock⟩ := h.found a b hjumps
      obtain ⟨hmem, hid⟩ := findBlock_eq_ok hblock
      exact List.mem_map.mpr ⟨block, hmem, hid⟩
    have hle := h.acyclic.length_le hwalk hinside
    rwa [blockIds, List.length_map] at hle
  refine ⟨?_, hlength, ?_⟩
  · intro ν _ m call turns frame s
    exact h.acyclic.nodup (visited_walk turns 0 frame s).1
  · intro ν _ m call turns frame s hle
    induction turns, hle using Nat.le_induction with
    | base => rfl
    | succ turns hle ih =>
      rw [executeFrame_succ (Nat.le_trans (hlength ν m call (turns + 1) frame s) hle)]
      exact ih

/-- The control flow of a function never comes back to a block: not in the lowered blocks,
    not in the compiled ones, whatever the compiler has done before, and in no activation. -/
structure RunsForward (function : IrFunction) : Prop where
  lowered : AcyclicBlocks function
  compiled : ∀ c, AcyclicCode (compileFunction function c).1
  visits : ∀ c, SingleVisits (compileFunction function c).1

theorem runsForward_iff {function : IrFunction} {count : ℕ} (h : Built function count) :
    RunsForward function ↔ count ≤ 1431655765 := by
  constructor
  · intro hforward
    by_contra hcount
    exact (hforward.compiled .new).acyclic 0 (jumps_cycle h (by omega) .new)
  · intro hcount
    refine ⟨h.acyclicBlocks, acyclicCode h hcount, fun c => ?_⟩
    refine (acyclicCode h hcount c).singleVisits ?_
    have hpositive : 0 < (compileFunction function c).1.blocks.length := by
      rw [compiledBlocks_length, h.length]
      omega
    have hid := compiled_ids h.ids c 0 _ (List.getElem?_eq_getElem hpositive)
    exact List.mem_map.mpr ⟨_, List.getElem_mem hpositive, hid⟩

/-- The control flow of a function, and of the statements at the top level, never comes back
    to a block if and only if the code has at most (2^32 - 1) / 3 ifs. -/
theorem lowered_runsForward_iff (function : FunctionDeclaration) (span : Span) (program : Program) :
    (RunsForward (lowerFunction function span) ↔ bodyIfs function.body ≤ 1431655765) ∧
      (RunsForward (lowerProgram program).entry ↔
        bodyIfs (program.body.filter isEntryStatement) ≤ 1431655765) :=
  ⟨runsForward_iff (lowerFunction_built function span), runsForward_iff (entry_built program)⟩

def emptyIfs (count : ℕ) : List Statement :=
  List.replicate count (.if (.boolean true emptySpan) (.block [] emptySpan) none emptySpan)

theorem emptyIfs_bodyIfs (count : ℕ) : bodyIfs (emptyIfs count) = count := by
  induction count with
  | zero => rfl
  | succ count ih =>
    have hcons : bodyIfs (emptyIfs (count + 1)) = 1 + bodyIfs (emptyIfs count) := rfl
    omega

/-- One `if` more than the numbers of blocks can tell apart. -/
theorem emptyIfs_returns :
    ¬ RunsForward (lowerFunction ⟨"f", [], none, emptyIfs 1431655766⟩ emptySpan) := by
  intro h
  have hbuilt := lowerFunction_built ⟨"f", [], none, emptyIfs 1431655766⟩ emptySpan
  rw [emptyIfs_bodyIfs] at hbuilt
  exact (h.compiled .new).acyclic 0 (jumps_cycle hbuilt (by omega) .new)

end Tsvm.BlockVisits
