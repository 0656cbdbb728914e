import Tsvm.ExpressionRuns

set_option autoImplicit false

/-!
# Code at the points of an activation

An activation of a compiled function stands in front of the code of an expression
when that code comes next in its block. `Evaluates` goes from there to the point
behind the code, and `runExpression` says how it gets there.
-/
namespace Tsvm.ActivationPoints
open Ast Bytecode BytecodeVerifier Interop Ir Lowering Compilation RuntimeValues Interpreter
  InterpreterSteps Relation
open LoweringCode LoweringBlocks CompilerAcceptance CompiledOperands CompiledValues FunctionSlots
  ExpressionRuns VerifiedValues

variable {ν : Type}

/-- `p` is a point of the activation of the function that began at `start`. -/
structure Activation [F64 ν] (program : Program) (host : HostEnvironment ν) (function : IrFunction)
    (start p : Point ν) : Prop where
  compiled : ∃ i : ℕ, (allFunctions (lowerProgram program))[i]? = some function ∧
    (compile (lowerProgram program)).functions[i]? = some start.function
  begins : Begins start.function start
  path : Path (compile (lowerProgram program)) host start p

def AtCode (function : IrFunction) (p : Point ν) (code : List IrInstruction) : Prop :=
  code <+: (irCode function p).drop p.pc

/-- The code of an expression is executed from `p` to `q`, where its value is found. -/
structure Evaluates [F64 ν] (m : BytecodeModule) (host : HostEnvironment ν) (p q : Point ν)
    (lowered : Lowered) (value : RuntimeValue ν) : Prop where
  within : Within m host p q
  behind : q.pc = p.pc + lowered.code.length
  value : q.frame.value (.ofNat lowered.value) = .ok value

def variableAt (function : IrFunction) (p : Point ν) (name : String) : Option (RuntimeValue ν) :=
  p.frame.locals[(slotOf (finalSlots function) name).toNat]?

theorem compileFunctions_getElem? {functions : List IrFunction} {s : Compiler} {i : ℕ}
    {compiled : BytecodeFunction} (h : (compileFunctions functions s).1[i]? = some compiled) :
    ∃ function c, functions[i]? = some function ∧ compiled = (compileFunction function c).1 := by
  induction functions generalizing s i with
  | nil => cases h
  | cons function functions ih =>
    cases i with
    | zero =>
      cases h
      exact ⟨function, s, rfl, rfl⟩
    | succ i => exact ih h

/-- What the points of an activation have in common. -/
structure Sited (m : BytecodeModule) (function : IrFunction) (offset : ℕ → ℕ) (p : Point ν) :
    Prop where
  stands : Stands m function p.function (finalSlots function) p
  numbering : Numbering function offset
  placed : Placed function p.function p
  values : p.frame.values.length ≤ number function offset p
  size : totalResults function.blocks ≤ 2 ^ 32

section Points

variable [F64 ν] {program : Program} {host : HostEnvironment ν} {function : IrFunction}
  {start p q : Point ν}

theorem Activation.sited (h : Activation program host function start p)
    (hsize : irSize (lowerProgram program) ≤ 2 ^ 32) :
    ∃ offset, Sited (compile (lowerProgram program)) function offset p := by
  obtain ⟨⟨i, hi, hcompiled⟩, hbegins, hpath⟩ := h
  have hfunction := List.mem_of_getElem? hi
  obtain ⟨offset, hnumbering⟩ := lowerProgram_numbering program hfunction
  have hle := functionSize_le_irSize hfunction
  have htotal := totalResults_le_blocksSize function.blocks
  have hlength := length_le_blocksSize function.blocks
  unfold functionSize at hle
  obtain ⟨function', hi', hcode⟩ :=
    CompiledCode.forall₂_getElem? (compile_functionCode program hsize) hcompiled
  rw [hi] at hi'
  cases hi'
  obtain ⟨function', c, hi', hsame⟩ := compileFunctions_getElem? hcompiled
  rw [show (allFunctions (lowerProgram program))[i]? = some function' from hi'] at hi
  cases hi
  have hstands : Stands (compile (lowerProgram program)) function start.function (finalSlots function)
      p := by
    clear hcompiled
    induction hpath with
    | refl => exact (hcode.begins hbegins).1
    | tail _ hflow ih => exact ih.flow hcode hflow
  have hruns := hstands.runs
  rw [hsame] at hbegins
  obtain ⟨hplaced, hzero, hempty, _⟩ := hbegins.placed (by omega) hnumbering
  obtain ⟨hplaced', hahead⟩ := hplaced.path (by omega) hnumbering hpath
  refine ⟨offset, ?_, hnumbering, ?_, ?_, by omega⟩
  · rw [hruns]
    exact hstands
  · rw [hruns, hsame]
    exact hplaced'
  · have hnumber := hahead.number
    rw [hzero, hempty, List.length_nil] at hnumber
    omega

theorem Activation.tail (h : Activation program host function start p)
    (hwithin : Within (compile (lowerProgram program)) host p q) :
    Activation program host function start q :=
  ⟨h.compiled, h.begins, h.path.trans (within_path hwithin)⟩

theorem entry_activation (hfunctions : (lowerProgram program).functions = []) {block : BytecodeBlock}
    (hblock : findBlock (compileFunction (lowerProgram program).entry .new).1 0 = .ok block)
    (args : List (RuntimeValue ν)) (machine : Machine ν) :
    Activation program host (lowerProgram program).entry
      (entry (compileFunction (lowerProgram program).entry .new).1 block args machine)
      (entry (compileFunction (lowerProgram program).entry .new).1 block args machine) := by
  refine ⟨⟨0, ?_, ?_⟩, ⟨block, args, machine, hblock, rfl⟩, .refl⟩
  · rw [allFunctions, hfunctions]
    rfl
  · change (compileFunctions (allFunctions (lowerProgram program)) .new).1[0]? = _
    rw [allFunctions, hfunctions]
    rfl

end Points

section Code

variable {m : BytecodeModule} {function : IrFunction} {offset : ℕ → ℕ} {p q : Point ν}
  {code first second : List IrInstruction}

theorem AtCode.compiled (h : AtCode function p code) (hsited : Sited m function offset p) :
    ∃ compiled rest, p.block.instructions.drop p.pc = compiled ++ rest ∧
      List.Forall₂ (Allotted m (finalSlots function)) code compiled := by
  obtain ⟨behind, hbehind⟩ := h
  have hdrop := List.forall₂_drop p.pc hsited.stands.code
  rw [← hbehind] at hdrop
  obtain ⟨compiled, rest, hsplit, hcode, _⟩ := forall₂_append hdrop
  exact ⟨compiled, rest, hsplit, hcode⟩

theorem AtCode.instruction (h : AtCode function p code) (hsited : Sited m function offset p)
    {k : ℕ} (hblock : q.block = p.block) (hpc : q.pc = p.pc + k) (hk : k < code.length) :
    ∃ instruction, q.instruction = some instruction ∧ Allotted m (finalSlots function) code[k]
      instruction := by
  obtain ⟨compiled, rest, hdrop, hcompiled⟩ := h.compiled hsited
  have hlength := hcompiled.length_eq
  refine ⟨compiled[k], ?_, hcompiled.get hk (by omega)⟩
  rw [Point.instruction, hblock, hpc, ← List.getElem?_drop, hdrop,
    List.getElem?_append_left (by omega), List.getElem?_eq_getElem]

theorem AtCode.left (h : AtCode function p (first ++ second)) : AtCode function p first :=
  (List.prefix_append first second).trans h

variable [F64 ν] {host : HostEnvironment ν}

theorem AtCode.behind (h : AtCode function p (first ++ second)) (hwithin : Within m host p q)
    (hpc : q.pc = p.pc + first.length) : AtCode function q second := by
  obtain ⟨rest, hrest⟩ := h
  have hcode : irCode function q = irCode function p := by rw [irCode, hwithin.same.2, irCode]
  refine ⟨rest, ?_⟩
  rw [hcode, hpc, ← List.drop_drop, ← hrest, List.append_assoc, List.drop_left]

omit [F64 ν] in
theorem Numbered.unique {low low' n n' : ℕ} (h : Numbered low n code) (h' : Numbered low' n' code)
    (hresults : results code ≠ 0) : n = n' := by
  induction code generalizing n n' with
  | nil => exact absurd rfl hresults
  | cons i code ih =>
    by_cases hproduces : produces i.kind = true
    · have hresult := h.2.1.symm.trans h'.2.1
      rw [if_pos hproduces, if_pos hproduces] at hresult
      exact Option.some.inj hresult
    · rw [results_cons, results_of_not_produces (by simpa using hproduces), Nat.zero_add] at hresults
      have hrest := h.2.2
      have hrest' := h'.2.2
      rw [results_of_not_produces (by simpa using hproduces)] at hrest hrest'
      exact ih hrest hrest' hresults

omit [F64 ν] in
theorem Sited.numbered (h : Sited m function offset p) :
    Numbered (offset p.block.id.toNat) (number function offset p) ((irCode function p).drop p.pc) ∧
      number function offset p + results ((irCode function p).drop p.pc) ≤ 2 ^ 32 := by
  obtain ⟨block, hblock⟩ : ∃ block, function.blocks[p.block.id.toNat]? = some block :=
    ⟨_, List.getElem?_eq_getElem h.placed.inside⟩
  have hcode : irCode function p = block.instructions := by
    rw [irCode, hblock]
    rfl
  have hnumbered := h.numbering.numbered _ _ hblock
  have hbound := h.numbering.bound _ _ hblock
  have hsize := h.size
  rw [← hcode, ← List.take_append_drop p.pc (irCode function p)] at hnumbered hbound
  rw [results_append] at hbound
  refine ⟨(numbered_append.mp hnumbered).2, ?_⟩
  unfold CompiledValues.number
  omega

omit [F64 ν] in
theorem AtCode.number_eq {n : ℕ} {lowered : Lowered} (h : AtCode function p lowered.code)
    (hsited : Sited m function offset p) (hwell : WellNumbered n lowered) :
    number function offset p = n ∧ lowered.next ≤ 2 ^ 32 := by
  obtain ⟨rest, hrest⟩ := h
  obtain ⟨hnumbered, hbound⟩ := hsited.numbered
  rw [← hrest] at hnumbered hbound
  rw [results_append] at hbound
  have hvalue := hwell.value
  have hfirst := hwell.first
  have hnext := hwell.next
  have hsame : number function offset p = n :=
    Numbered.unique (numbered_append.mp hnumbered).1 hwell.numbered (by omega)
  exact ⟨hsame, by omega⟩

end Code

section Pieces

variable [F64 ν] {m : BytecodeModule} {host : HostEnvironment ν} {p q : Point ν}

theorem within_pc (h : Within m host p q) : p.pc ≤ q.pc := by
  induction h with
  | refl => exact Nat.le_refl _
  | tail _ hnext ih =>
    rw [next_pc hnext]
    exact Nat.le_succ_of_le ih

theorem within_eq (h : Within m host p q) (hpc : q.pc = p.pc) : q = p := by
  rcases ReflTransGen.cases_head h with rfl | ⟨r, hnext, hrest⟩
  · rfl
  · have hle := within_pc hrest
    rw [next_pc hnext] at hle
    omega

theorem within_total {r : Point ν} (hq : Within m host p q) (hr : Within m host p r) :
    Within m host q r ∨ Within m host r q :=
  ReflTransGen.total_of_right_unique (fun _ _ _ h h' => (Flow.next h).unique (.next h')) hq hr

theorem within_unique {r : Point ν} (hq : Within m host p q) (hr : Within m host p r)
    (hpc : q.pc = r.pc) : q = r := by
  rcases within_total hq hr with hwithin | hwithin
  · exact (within_eq hwithin hpc.symm).symm
  · exact within_eq hwithin hpc

theorem reaches_within
    (hplain : ∀ instruction ∈ p.block.instructions,
      instruction.opcode ≠ .branch ∧ instruction.opcode ≠ .jump ∧ instruction.opcode ≠ .call)
    (h : Reaches m host p q) : Within m host p q ∧ q.block = p.block := by
  induction h with
  | refl => exact ⟨.refl, rfl⟩
  | @tail q r _ hstep ih =>
    obtain ⟨hwithin, hblock⟩ := ih
    have hcode {instruction : Instruction} (hi : q.instruction = some instruction) :
        instruction ∈ p.block.instructions := by
      rw [Point.instruction, hblock] at hi
      exact List.mem_of_getElem? hi
    cases hstep with
    | next hnext =>
      refine ⟨hwithin.tail hnext, ?_⟩
      obtain ⟨frame, machine, _, rfl⟩ := hnext
      exact hblock
    | jump hexec hfound =>
      obtain ⟨instruction, hi, heffect⟩ := hexec.effect
      obtain ⟨hbranch, hjump, _⟩ := hplain instruction (hcode hi)
      cases heffect with
      | branch hop _ => exact absurd hop hbranch
      | jump hop _ => exact absurd hop hjump
    | call hcalls henter =>
      obtain ⟨instruction, hi, hop, _⟩ := hcalls
      exact absurd hop (hplain instruction (hcode hi)).2.2

theorem within_next {r : Point ν} (hq : Within m host p q) (hr : Within m host p r)
    (hlt : r.pc < q.pc) : ∃ s, Next m host r s := by
  rcases within_total hq hr with hwithin | hwithin
  · have hle := within_pc hwithin
    omega
  · rcases ReflTransGen.cases_head hwithin with rfl | ⟨s, hnext, _⟩
    · omega
    · exact ⟨s, hnext⟩

theorem executeBlock_within {fuel : ℕ} {piece rest : List Instruction}
    (h : p.block.instructions.drop p.pc = piece ++ rest) {frame : Frame ν} {machine : Machine ν}
    (hexec : executeBlock m (callFunction m host fuel) piece p.frame p.machine =
      (.ok (.continue, frame), machine)) :
    Within m host p ⟨p.function, p.block, p.pc + piece.length, frame, machine⟩ := by
  induction piece generalizing p with
  | nil =>
    cases hexec
    exact .refl
  | cons instruction piece ih =>
    have hi : p.instruction = some instruction := by
      rw [Point.instruction, ← List.head?_drop, h]
      rfl
    obtain ⟨⟨flow, frame'⟩, machine', hfirst, hthen⟩ := FailState.bind_eq_ok.mp hexec
    cases flow with
    | «continue» =>
      have hnext : Next m host p (p.after frame' machine') :=
        ⟨frame', machine', ⟨instruction, fuel, hi, hfirst⟩, rfl⟩
      have hdrop : p.block.instructions.drop (p.pc + 1) = piece ++ rest := by
        rw [← List.drop_drop, h]
        rfl
      have hrest := @ih (p.after frame' machine') hdrop hthen
      rw [List.length_cons, Nat.add_comm piece.length 1, ← Nat.add_assoc]
      exact .head hnext hrest
    | jump target => cases hthen
    | «return» value => cases hthen

theorem within_of_run (k fuel : ℕ) (hfunction : q.function = p.function) (hblock : q.block = p.block)
    (hpc : q.pc = p.pc + ((p.block.instructions.drop p.pc).take k).length)
    (hexec : executeBlock m (callFunction m host fuel) ((p.block.instructions.drop p.pc).take k)
      p.frame p.machine = (.ok (.continue, q.frame), q.machine)) : Within m host p q := by
  have hwithin := executeBlock_within (List.take_append_drop k _).symm hexec
  obtain ⟨function, block, pc, frame, machine⟩ := q
  dsimp only at hfunction hblock hpc
  rw [hfunction, hblock, hpc]
  exact hwithin

theorem within_executeBlock {piece rest : List Instruction}
    (h : p.block.instructions.drop p.pc = piece ++ rest) (hwithin : Within m host p q)
    (hpc : q.pc = p.pc + piece.length) : ∃ fuel, ∀ fuel', fuel ≤ fuel' →
      executeBlock m (callFunction m host fuel') piece p.frame p.machine =
        (.ok (.continue, q.frame), q.machine) := by
  induction piece generalizing p with
  | nil =>
    rw [within_eq hwithin hpc]
    exact ⟨0, fun _ _ => rfl⟩
  | cons instruction piece ih =>
    rcases ReflTransGen.cases_head hwithin with rfl | ⟨r, hnext, hrest⟩
    · rw [List.length_cons] at hpc
      omega
    · have hsame := hnext.same
      have hnextPc := next_pc hnext
      obtain ⟨frame, machine, ⟨instruction', k, hi, hexec⟩, rfl⟩ := hnext
      have hinstruction : instruction' = instruction := by
        rw [Point.instruction, ← List.head?_drop, h] at hi
        exact (Option.some.inj hi).symm
      subst hinstruction
      have hdrop : p.block.instructions.drop (p.pc + 1) = piece ++ rest := by
        rw [← List.drop_drop, h]
        rfl
      rw [List.length_cons] at hpc
      obtain ⟨fuel, hfuel⟩ := @ih (p.after frame machine) hdrop hrest (by omega)
      refine ⟨max k fuel, fun fuel' hle => ?_⟩
      have hlarger := (executeInstruction_extends (callFunction_extends m host
        (Nat.le_trans (Nat.le_max_left k fuel) hle)) instruction' p.frame).ok hexec
      rw [executeBlock, FailState.bind_ok hlarger]
      exact hfuel fuel' (Nat.le_trans (Nat.le_max_right k fuel) hle)

end Pieces

section Evaluations

variable [F64 ν] {m : BytecodeModule} {host : HostEnvironment ν} {function : IrFunction}
  {offset : ℕ → ℕ} {p q : Point ν}

theorem Sited.within (h : Sited m function offset p) (hwithin : Within m host p q) :
    number function offset q + p.frame.values.length =
      number function offset p + q.frame.values.length := by
  have hplaced := h.placed
  induction hwithin with
  | refl => rfl
  | tail hbefore hnext ih =>
    obtain ⟨instruction, _, hnumber, hlength⟩ := (hplaced.within hbefore).next_number offset hnext
    omega

theorem AtCode.number_behind {code : List IrInstruction} (h : AtCode function p code)
    (hwithin : Within m host p q) (hpc : q.pc = p.pc + code.length) :
    number function offset q = number function offset p + results code := by
  obtain ⟨rest, hrest⟩ := h
  have hcode : irCode function q = irCode function p := by rw [irCode, hwithin.same.2, irCode]
  unfold CompiledValues.number
  rw [hcode, hwithin.same.2, hpc, List.take_add, ← hrest, List.take_left, results_append]
  omega

variable {types : List (String × IrType)} {expression : Expression} {n : ℕ}

/-- In a frame with all values before, the code computes what the evaluation returns. -/
theorem evaluates_of_run (hsited : Sited m function offset p)
    (hat : AtCode function p (expressionCode types expression n).code)
    (hn : p.frame.values.length = n) {fuel : ℕ} {value : RuntimeValue ν} {locals : Locals ν}
    {machine : Machine ν}
    (hrun : runExpression (slotOf (finalSlots function)) (callFunction m host fuel) expression
      p.frame.locals p.machine = (.ok (value, locals), machine)) :
    ∃ q, Evaluates m host p q (expressionCode types expression n) value ∧
      q.frame.locals = locals ∧ q.machine = machine := by
  have hwell := expressionCode_wellNumbered types expression n
  have hvalue := hwell.value
  obtain ⟨_, hnext⟩ := hat.number_eq hsited hwell
  obtain ⟨compiled, rest, hdrop, hcompiled⟩ := hat.compiled hsited
  have hsimulates : Simulates m (callFunction m host fuel) compiled _ _ p.frame.locals _ _ :=
    runExpression_simulates types expression hcompiled hnext p.frame.locals hn
  obtain ⟨pushed, _, hholds, hexec⟩ := FailState.wp_ok (hsimulates [] p.machine) hrun
  rw [List.append_nil] at hexec
  have hwithin := executeBlock_within hdrop hexec
  rw [← hcompiled.length_eq] at hwithin
  exact ⟨_, ⟨hwithin, rfl, hholds.read (by omega) locals⟩, rfl, rfl⟩

theorem run_of_within (hsited : Sited m function offset p)
    (hat : AtCode function p (expressionCode types expression n).code)
    (hn : p.frame.values.length = n) (hwithin : Within m host p q)
    (hbehind : q.pc = p.pc + (expressionCode types expression n).code.length) :
    ∃ value, Holds q.frame.values (expressionCode types expression n).value value ∧
      ∃ fuel, ∀ fuel', fuel ≤ fuel' →
        runExpression (slotOf (finalSlots function)) (callFunction m host fuel') expression
          p.frame.locals p.machine = (.ok (value, q.frame.locals), q.machine) := by
  obtain ⟨_, hsize⟩ := hat.number_eq hsited (expressionCode_wellNumbered types expression n)
  obtain ⟨compiled, rest, hdrop, hcompiled⟩ := hat.compiled hsited
  obtain ⟨fuel, hfuel⟩ := within_executeBlock hdrop hwithin (by rw [hbehind, hcompiled.length_eq])
  have hrun (fuel' : ℕ) (hle : fuel ≤ fuel') :
      ∃ value, Holds q.frame.values (expressionCode types expression n).value value ∧
        runExpression (slotOf (finalSlots function)) (callFunction m host fuel') expression
          p.frame.locals p.machine = (.ok (value, q.frame.locals), q.machine) := by
    have hexec := hfuel fuel' hle
    have hsimulates : Simulates m (callFunction m host fuel') compiled _ _ p.frame.locals _ _ :=
      runExpression_simulates types expression hcompiled hsize p.frame.locals hn
    have hwhole := hsimulates [] p.machine
    rw [List.append_nil] at hwhole
    cases hresult : runExpression (slotOf (finalSlots function)) (callFunction m host fuel') expression
        p.frame.locals p.machine with
    | mk result machine =>
      cases result with
      | error e =>
        have herror := FailState.wp_error hwhole hresult
        rw [hexec] at herror
        cases herror
      | ok result =>
        obtain ⟨pushed, _, hholds, hdone⟩ := FailState.wp_ok hwhole hresult
        have hsame : ((.ok (.continue, q.frame), q.machine) :
            Except Stop (ControlFlow ν × Frame ν) × Machine ν) =
              (.ok (.continue, ⟨result.2, p.frame.values ++ pushed⟩), machine) :=
          hexec.symm.trans hdone
        rw [Prod.mk.injEq, Except.ok.injEq, Prod.mk.injEq] at hsame
        obtain ⟨⟨_, hframe⟩, hmachine⟩ := hsame
        rw [hframe, hmachine]
        exact ⟨result.1, hholds, rfl⟩
  obtain ⟨value, hvalue, _⟩ := hrun fuel (Nat.le_refl fuel)
  refine ⟨value, hvalue, fuel, fun fuel' hle => ?_⟩
  obtain ⟨value', hvalue', hresult⟩ := hrun fuel' hle
  rw [Holds, hvalue] at hvalue'
  rw [hresult, Option.some.inj hvalue']

/-- The code only computes a value in a frame with all values before, and then it is the
    one that the evaluation returns. -/
theorem run_of_evaluates (hsited : Sited m function offset p)
    (hat : AtCode function p (expressionCode types expression n).code) {value : RuntimeValue ν}
    (h : Evaluates m host p q (expressionCode types expression n) value) :
    p.frame.values.length = n ∧ ∃ fuel, ∀ fuel', fuel ≤ fuel' →
      runExpression (slotOf (finalSlots function)) (callFunction m host fuel') expression
        p.frame.locals p.machine = (.ok (value, q.frame.locals), q.machine) := by
  have hwell := expressionCode_wellNumbered types expression n
  have hid := hwell.value
  have hnext := hwell.next
  obtain ⟨hnumber, hsize⟩ := hat.number_eq hsited hwell
  have hle := hsited.values
  have hlengths := hsited.within h.within
  have hbehind : number function offset q = number function offset p + results _ :=
    hat.number_behind h.within h.behind
  have hfound : Holds q.frame.values (expressionCode types expression n).value value := by
    have hread := h.value
    rw [Frame.value, UInt32.toNat_ofNat', Nat.mod_eq_of_lt (by omega)] at hread
    rw [Holds]
    cases hget : q.frame.values[(expressionCode types expression n).value]? with
    | none =>
      rw [hget] at hread
      cases hread
    | some found =>
      rw [hget] at hread
      cases hread
      rfl
  have hlt := (List.getElem?_eq_some_iff.mp hfound).1
  have hn : p.frame.values.length = n := by omega
  obtain ⟨value', hvalue', hrun⟩ := run_of_within hsited hat hn h.within h.behind
  rw [Holds, hfound] at hvalue'
  rw [Option.some.inj hvalue']
  exact ⟨hn, hrun⟩

theorem Evaluates.length {value : RuntimeValue ν} (hsited : Sited m function offset p)
    (hat : AtCode function p (expressionCode types expression n).code)
    (h : Evaluates m host p q (expressionCode types expression n) value) :
    q.frame.values.length = (expressionCode types expression n).next := by
  have hwell := expressionCode_wellNumbered types expression n
  have hnext := hwell.next
  obtain ⟨hn, _⟩ := run_of_evaluates hsited hat h
  have hlengths := hsited.within h.within
  have hbehind : number function offset q = number function offset p + results _ :=
    hat.number_behind h.within h.behind
  omega

end Evaluations

end Tsvm.ActivationPoints
