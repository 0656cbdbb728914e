import Mathlib.Logic.Relation
import Tsvm.Interpreter

set_option autoImplicit false

/-!
# Runs of the interpreter

A point of a run is an activation of a function in front of one of the
instructions of a block. `Step` goes to the next instruction, into another block
or into a called function, so the points a run passes are there whether or not
the run ends. What stops a call is what stops one of the points it reaches.
-/
namespace Tsvm.InterpreterSteps
open Bytecode BytecodeVerifier Interop RuntimeValues Interpreter Relation

structure Point (ν : Type) where
  function : BytecodeFunction
  block : BytecodeBlock
  pc : ℕ
  frame : Frame ν
  machine : Machine ν

variable {ν : Type}

namespace Point

def instruction (p : Point ν) : Option Instruction := p.block.instructions[p.pc]?

def after (p : Point ν) (frame : Frame ν) (machine : Machine ν) : Point ν :=
  { p with pc := p.pc + 1, frame, machine }

def atEnd (p : Point ν) (frame : Frame ν) (machine : Machine ν) : Point ν :=
  { p with pc := p.block.instructions.length, frame, machine }

end Point

def entry (function : BytecodeFunction) (block : BytecodeBlock) (args : List (RuntimeValue ν))
    (machine : Machine ν) : Point ν :=
  ⟨function, block, 0, .new function args, machine⟩

section

variable [F64 ν] (m : BytecodeModule) (host : HostEnvironment ν)

/-- The instruction at `p` is executed to its end, the calls it makes included. -/
def Executes (p : Point ν) (flow : ControlFlow ν) (frame : Frame ν) (machine : Machine ν) : Prop :=
  ∃ instruction fuel, p.instruction = some instruction ∧
    executeInstruction m (callFunction m host fuel) instruction p.frame p.machine =
      (.ok (flow, frame), machine)

def Enters (name : String) (args : List (RuntimeValue ν)) (s : Machine ν) (p : Point ν) : Prop :=
  ∃ function block t, dispatch m host name args s = (.ok (.inr function), t) ∧
    findBlock function 0 = .ok block ∧ p = entry function block args t

/-- A call fails before it starts a block. -/
def Refuses (name : String) (args : List (RuntimeValue ν)) (s : Machine ν) (e : Stop) : Prop :=
  (dispatch m host name args s).1 = .error e ∨
    ∃ function t, dispatch m host name args s = (.ok (.inr function), t) ∧
      findBlock function 0 = .error e

def CallsWith (p : Point ν) (name : String) (args : List (RuntimeValue ν)) : Prop :=
  ∃ instruction, p.instruction = some instruction ∧ instruction.opcode = .call ∧
    callOperands m instruction p.frame = .ok (name, args)

def Next (p q : Point ν) : Prop :=
  ∃ frame machine, Executes m host p .continue frame machine ∧ q = p.after frame machine

inductive Step (p : Point ν) : Point ν → Prop where
  | next {q : Point ν} (h : Next m host p q) : Step p q
  | jump {target : UInt32} {frame : Frame ν} {machine : Machine ν} {block : BytecodeBlock}
      (h : Executes m host p (.jump target) frame machine)
      (hblock : findBlock p.function target = .ok block) :
      Step p ⟨p.function, block, 0, frame, machine⟩
  | call {name : String} {args : List (RuntimeValue ν)} {q : Point ν}
      (h : CallsWith m p name args) (henter : Enters m host name args p.machine q) : Step p q

abbrev Within : Point ν → Point ν → Prop := ReflTransGen (Next m host)

abbrev Reaches : Point ν → Point ν → Prop := ReflTransGen (Step m host)

/-- A run starts in block 0 of some function of the module, with any arguments. -/
def Starts (p : Point ν) : Prop :=
  ∃ function ∈ m.functions, ∃ block args machine,
    findBlock function 0 = .ok block ∧ p = entry function block args machine

def Reachable (p : Point ν) : Prop := ∃ start, Starts m start ∧ Reaches m host start p

/-- The points that are passed when a call of `name` is performed. -/
def Passes (name : String) (args : List (RuntimeValue ν)) (s : Machine ν) (p : Point ν) : Prop :=
  ∃ start, Enters m host name args s start ∧ Reaches m host start p

/-- The run stops with `e` at `p`: the instruction fails by itself, the call it
    makes is refused, or the block it jumps to is missing. -/
inductive Fails (p : Point ν) (e : Stop) : Prop where
  | instruction {instruction : Instruction} (hi : p.instruction = some instruction)
      (h : (executeInstruction m (fun _ _ => pure .undefined) instruction p.frame p.machine).1 =
        .error e)
  | call {name : String} {args : List (RuntimeValue ν)} (h : CallsWith m p name args)
      (hrefuse : Refuses m host name args p.machine e)
  | jump {target : UInt32} {frame : Frame ν} {machine : Machine ν}
      (h : Executes m host p (.jump target) frame machine)
      (hblock : findBlock p.function target = .error e)

end

section

variable [F64 ν] {m : BytecodeModule} {host : HostEnvironment ν}

theorem executeInstruction_of_ne_call {call call' : Call ν} {instruction : Instruction}
    {frame : Frame ν} (h : instruction.opcode ≠ .call) :
    executeInstruction m call instruction frame = executeInstruction m call' instruction frame := by
  obtain ⟨opcode, operands, tag, src⟩ := instruction
  cases opcode with
  | call => exact absurd rfl h
  | _ => rfl

theorem executeInstruction_call {call : Call ν} {instruction : Instruction} {frame : Frame ν}
    (h : instruction.opcode = .call) :
    executeInstruction m call instruction frame =
      (FailState.lift (callOperands m instruction frame) >>= fun callee =>
        call callee.1 callee.2 >>= fun value =>
          pure (.continue, frame.pushValue value)) := by
  obtain ⟨opcode, operands, tag, src⟩ := instruction
  subst h
  rfl

theorem executeInstruction_error {call : Call ν} {instruction : Instruction} {frame : Frame ν}
    {s t : Machine ν} {e : Stop}
    (h : executeInstruction m call instruction frame s = (.error e, t)) :
    (executeInstruction m (fun _ _ => pure .undefined) instruction frame s).1 = .error e ∨
      instruction.opcode = .call ∧ ∃ name args,
        callOperands m instruction frame = .ok (name, args) ∧ call name args s = (.error e, t) := by
  by_cases hop : instruction.opcode = .call
  · rw [executeInstruction_call hop] at h
    cases hargs : callOperands m instruction frame with
    | error e' =>
      refine .inl ?_
      rw [hargs, FailState.bind_error (FailState.lift_run _ _)] at h
      rw [executeInstruction_call hop, hargs, FailState.bind_error (FailState.lift_run _ _)]
      exact congrArg Prod.fst h
    | ok callee =>
      refine .inr ⟨hop, callee.1, callee.2, rfl, ?_⟩
      rw [hargs, FailState.bind_ok (FailState.lift_run _ _)] at h
      rcases FailState.bind_eq_error.mp h with h | ⟨value, u, _, h⟩
      · exact h
      · simp at h
  · rw [executeInstruction_of_ne_call hop] at h
    exact .inl (congrArg Prod.fst h)

/-- What an instruction does to the frame when it does not fail. -/
inductive Effect (instruction : Instruction) (frame : Frame ν) : ControlFlow ν → Frame ν → Prop where
  | push (hop : definesValue instruction.opcode = true) (value : RuntimeValue ν) :
      Effect instruction frame .continue (frame.pushValue value)
  | storeLocal {slot : UInt32} (hop : instruction.opcode = .storeLocal)
      (hslot : instruction.operands[0]? = some slot) (value : RuntimeValue ν) :
      Effect instruction frame .continue (frame.storeLocal slot value)
  | storeMember (hop : instruction.opcode = .storeMember) :
      Effect instruction frame .continue frame
  | branch {target : UInt32} (hop : instruction.opcode = .branch)
      (htarget : instruction.operands[1]? = some target ∨ instruction.operands[2]? = some target) :
      Effect instruction frame (.jump target) frame
  | jump {target : UInt32} (hop : instruction.opcode = .jump)
      (htarget : instruction.operands[0]? = some target) : Effect instruction frame (.jump target) frame
  | return (hop : instruction.opcode = .return) (value : RuntimeValue ν) :
      Effect instruction frame (.return value) frame

omit [F64 ν] in
theorem operand_eq_ok {instruction : Instruction} {index : ℕ} {value : UInt32} :
    operand instruction index = .ok value ↔ instruction.operands[index]? = some value := by
  unfold operand
  split <;> simp_all

theorem executeInstruction_effect {call : Call ν} {instruction : Instruction}
    {frame frame' : Frame ν} {flow : ControlFlow ν} {s t : Machine ν}
    (h : executeInstruction m call instruction frame s = (.ok (flow, frame'), t)) :
    Effect instruction frame flow frame' := by
  obtain ⟨opcode, operands, tag, src⟩ := instruction
  cases opcode with
  | loadConst | buildObject | buildArray | loadLocal | loadMember | binary | call =>
    simp only [executeInstruction, FailState.bind_eq_ok, FailState.pure_run, Prod.mk.injEq,
      Except.ok.injEq] at h
    grind [Effect.push, definesValue]
  | storeLocal =>
    simp only [executeInstruction, FailState.bind_eq_ok, FailState.pure_run, Prod.mk.injEq,
      Except.ok.injEq, FailState.lift_run] at h
    obtain ⟨value, _, _, slot, _, ⟨hslot, _⟩, ⟨rfl, rfl⟩, _⟩ := h
    exact .storeLocal rfl (operand_eq_ok.mp hslot) value
  | storeMember =>
    simp only [executeInstruction, FailState.bind_eq_ok, FailState.pure_run, Prod.mk.injEq,
      Except.ok.injEq] at h
    grind [Effect.storeMember]
  | branch =>
    simp only [executeInstruction, FailState.bind_eq_ok, FailState.pure_run, Prod.mk.injEq,
      Except.ok.injEq, FailState.lift_run] at h
    obtain ⟨condition, _, _, target, _, ⟨htarget, _⟩, ⟨rfl, rfl⟩, _⟩ := h
    refine .branch rfl ?_
    split at htarget
    · exact .inl (operand_eq_ok.mp htarget)
    · exact .inr (operand_eq_ok.mp htarget)
  | jump =>
    simp only [executeInstruction, FailState.bind_eq_ok, FailState.pure_run, Prod.mk.injEq,
      Except.ok.injEq, FailState.lift_run] at h
    obtain ⟨target, _, ⟨htarget, _⟩, ⟨rfl, rfl⟩, _⟩ := h
    exact .jump rfl (operand_eq_ok.mp htarget)
  | «return» =>
    cases operands with
    | nil =>
      simp only [executeInstruction, FailState.pure_run, Prod.mk.injEq, Except.ok.injEq] at h
      obtain ⟨⟨rfl, rfl⟩, _⟩ := h
      exact .return rfl .undefined
    | cons value rest =>
      simp only [executeInstruction, FailState.bind_eq_ok, FailState.pure_run, Prod.mk.injEq,
        Except.ok.injEq] at h
      obtain ⟨value, _, _, ⟨rfl, rfl⟩, _⟩ := h
      exact .return rfl value

theorem Executes.effect {p : Point ν} {flow : ControlFlow ν} {frame : Frame ν}
    {s : Machine ν} (h : Executes m host p flow frame s) :
    ∃ instruction, p.instruction = some instruction ∧ Effect instruction p.frame flow frame := by
  obtain ⟨instruction, fuel, hi, h⟩ := h
  exact ⟨instruction, hi, executeInstruction_effect h⟩

theorem Next.step {p q : Point ν} (h : Next m host p q) : Step m host p q := .next h

theorem Within.reaches {p q : Point ν} (h : Within m host p q) : Reaches m host p q :=
  ReflTransGen.mono (fun _ _ => Step.next) _ _ h

theorem Next.same {p q : Point ν} (h : Next m host p q) :
    q.function = p.function ∧ q.block = p.block := by
  obtain ⟨frame, machine, _, rfl⟩ := h
  exact ⟨rfl, rfl⟩

theorem Within.same {p q : Point ν} (h : Within m host p q) :
    q.function = p.function ∧ q.block = p.block := by
  induction h with
  | refl => exact ⟨rfl, rfl⟩
  | tail _ hstep ih => exact ⟨hstep.same.1.trans ih.1, hstep.same.2.trans ih.2⟩

theorem Reachable.induction {I : Point ν → Prop} (hstart : ∀ p, Starts m p → I p)
    (hstep : ∀ p q, I p → Step m host p q → I q) {p : Point ν} (h : Reachable m host p) : I p := by
  obtain ⟨start, hs, h⟩ := h
  induction h with
  | refl => exact hstart _ hs
  | tail _ hlast ih => exact hstep _ _ ih hlast

theorem findFunction_mem {name : String} {function : BytecodeFunction}
    (h : findFunction m name = .ok function) : function ∈ m.functions := by
  unfold findFunction at h
  split at h
  · rename_i found hfound
    cases h
    exact List.mem_of_find?_eq_some hfound
  · cases h

theorem findBlock_eq_ok {function : BytecodeFunction} {id : UInt32} {block : BytecodeBlock}
    (h : findBlock function id = .ok block) : block ∈ function.blocks ∧ block.id = id := by
  unfold findBlock at h
  split at h
  · rename_i found hfound
    cases h
    exact ⟨List.mem_of_find?_eq_some hfound, by simpa using List.find?_some hfound⟩
  · cases h

theorem findBlock_error {function : BytecodeFunction} {id : UInt32} {e : Stop}
    (h : findBlock function id = .error e) :
    e = .runtime (.blockMissing id) ∧ id ∉ blockIds function := by
  unfold findBlock at h
  split at h
  · cases h
  · rename_i hnone
    cases h
    refine ⟨rfl, ?_⟩
    simpa [blockIds] using List.find?_eq_none.mp hnone

omit [F64 ν] in
theorem dispatch_mem {name : String} {args : List (RuntimeValue ν)} {s t : Machine ν}
    {function : BytecodeFunction} (h : dispatch m host name args s = (.ok (.inr function), t)) :
    function ∈ m.functions := by
  unfold dispatch at h
  split at h
  · simp [FailState.bind_eq_ok] at h
  · obtain ⟨result, u, _, h⟩ := FailState.bind_eq_ok.mp h
    cases result with
    | some value => simp at h
    | none =>
      obtain ⟨found, v, hfound, h⟩ := FailState.bind_eq_ok.mp h
      simp only [FailState.lift_run, Prod.mk.injEq] at hfound
      simp only [FailState.pure_run, Prod.mk.injEq, Except.ok.injEq, Sum.inr.injEq] at h
      rw [← h.1]
      exact findFunction_mem hfound.1

omit [F64 ν] in
theorem Enters.starts {name : String} {args : List (RuntimeValue ν)} {s : Machine ν} {p : Point ν}
    (h : Enters m host name args s p) : Starts m p := by
  obtain ⟨function, block, t, hdispatch, hblock, rfl⟩ := h
  exact ⟨function, dispatch_mem hdispatch, block, args, t, hblock, rfl⟩

omit [F64 ν] in
theorem Starts.inside {p : Point ν} (h : Starts m p) :
    p.function ∈ m.functions ∧ p.block ∈ p.function.blocks := by
  obtain ⟨function, hmem, block, args, machine, hblock, rfl⟩ := h
  exact ⟨hmem, (findBlock_eq_ok hblock).1⟩

/-- A run stays inside the module. -/
theorem Reachable.inside {p : Point ν} (h : Reachable m host p) :
    p.function ∈ m.functions ∧ p.block ∈ p.function.blocks := by
  refine h.induction (fun p hstart => hstart.inside) fun p q hp hstep => ?_
  cases hstep with
  | next hnext =>
    obtain ⟨frame, machine, _, rfl⟩ := hnext
    exact hp
  | jump _ hblock => exact ⟨hp.1, (findBlock_eq_ok hblock).1⟩
  | call _ henter => exact henter.starts.inside

variable (m host) in
def BlockEnds (p : Point ν) : Except Stop (ControlFlow ν × Frame ν) → Machine ν → Prop
  | .ok (.continue, frame), s => Within m host p (p.atEnd frame s)
  | .ok (flow, frame), s => ∃ q, Within m host p q ∧ Executes m host q flow frame s
  | .error e, _ => e = .outOfFuel ∨ ∃ q, Reaches m host p q ∧ Fails m host q e

variable (m host) in
def FrameEnds (p : Point ν) : Except Stop (RuntimeValue ν) → Prop
  | .ok _ => True
  | .error e => e = .outOfFuel ∨ ∃ q, Reaches m host p q ∧ Fails m host q e

variable (m host) in
def CallEnds (name : String) (args : List (RuntimeValue ν)) (s : Machine ν) :
    Except Stop (RuntimeValue ν) → Prop
  | .ok _ => True
  | .error e => e = .outOfFuel ∨ Refuses m host name args s e ∨
      ∃ p q, Enters m host name args s p ∧ Reaches m host p q ∧ Fails m host q e

theorem executeBlock_ends {fuel : ℕ}
    (hcall : ∀ name args s, CallEnds m host name args s
      (callFunction m host fuel name args s).1)
    (rest : List Instruction) (p : Point ν) (hrest : p.block.instructions.drop p.pc = rest)
    (hpc : p.pc ≤ p.block.instructions.length) :
    BlockEnds m host p
      (executeBlock m (callFunction m host fuel) rest p.frame p.machine).1
      (executeBlock m (callFunction m host fuel) rest p.frame p.machine).2 := by
  induction rest generalizing p with
  | nil =>
    have hend : p.pc = p.block.instructions.length := by
      have := List.drop_eq_nil_iff.mp hrest
      omega
    have hp : p.atEnd p.frame p.machine = p := by
      rw [Point.atEnd, ← hend]
    change Within m host p (p.atEnd p.frame p.machine)
    rw [hp]
  | cons instruction rest ih =>
    have hlt : p.pc < p.block.instructions.length := by
      by_contra hge
      rw [List.drop_eq_nil_of_le (by omega)] at hrest
      cases hrest
    have hsplit := List.drop_eq_getElem_cons hlt
    rw [hrest, List.cons.injEq] at hsplit
    have hi : p.instruction = some instruction := by
      rw [Point.instruction, List.getElem?_eq_getElem hlt, hsplit.1]
    cases hd : executeInstruction m (callFunction m host fuel) instruction p.frame p.machine with
    | mk result t =>
      cases result with
      | error e =>
        rw [executeBlock, FailState.bind_error hd]
        rcases executeInstruction_error hd with hown | ⟨hop, name, args, hargs, hfail⟩
        · exact .inr ⟨p, .refl, .instruction hi hown⟩
        · have hcalls : CallsWith m p name args := ⟨instruction, hi, hop, hargs⟩
          have hends := hcall name args p.machine
          rw [hfail] at hends
          rcases hends with rfl | hrefuse | ⟨q, r, henter, hreach, hfails⟩
          · exact .inl rfl
          · exact .inr ⟨p, .refl, .call hcalls hrefuse⟩
          · exact .inr ⟨r, .head (.call hcalls henter) hreach, hfails⟩
      | ok done =>
        obtain ⟨flow, frame⟩ := done
        have hexec : Executes m host p flow frame t := ⟨instruction, fuel, hi, hd⟩
        rw [executeBlock, FailState.bind_ok hd]
        cases flow with
        | «continue» =>
          have hnext : Next m host p (p.after frame t) := ⟨frame, t, hexec, rfl⟩
          have hends := ih (p.after frame t) hsplit.2.symm hlt
          change BlockEnds m host p (executeBlock m _ rest frame t).1 (executeBlock m _ rest frame t).2
          change BlockEnds m host (p.after frame t) (executeBlock m _ rest frame t).1
            (executeBlock m _ rest frame t).2 at hends
          generalize executeBlock m (callFunction m host fuel) rest frame t = result at hends ⊢
          obtain ⟨(e | ⟨flow, last⟩), u⟩ := result
          · rcases hends with rfl | ⟨q, hreach, hfails⟩
            · exact .inl rfl
            · exact .inr ⟨q, .head (.next hnext) hreach, hfails⟩
          · cases flow with
            | «continue» => exact .head hnext hends
            | jump target =>
              obtain ⟨q, hwithin, hq⟩ := hends
              exact ⟨q, .head hnext hwithin, hq⟩
            | «return» value =>
              obtain ⟨q, hwithin, hq⟩ := hends
              exact ⟨q, .head hnext hwithin, hq⟩
        | jump target => exact ⟨p, .refl, hexec⟩
        | «return» value => exact ⟨p, .refl, hexec⟩

theorem executeFrame_ends {fuel : ℕ}
    (hcall : ∀ name args s, CallEnds m host name args s
      (callFunction m host fuel name args s).1)
    {function : BytecodeFunction} {id : UInt32} {block : BytecodeBlock} (frame : Frame ν)
    (s : Machine ν) (turns : ℕ) (hblock : findBlock function id = .ok block) :
    FrameEnds m host ⟨function, block, 0, frame, s⟩
      (executeFrame m (callFunction m host fuel) function turns id frame s).1 := by
  induction turns generalizing id block frame s with
  | zero => exact .inl rfl
  | succ turns ih =>
    have hends := executeBlock_ends hcall block.instructions ⟨function, block, 0, frame, s⟩ rfl
      (Nat.zero_le _)
    rw [executeFrame, hblock, FailState.bind_ok (FailState.lift_run _ _)]
    cases hd : executeBlock m (callFunction m host fuel) block.instructions frame s with
    | mk result t =>
      simp only [hd] at hends
      cases result with
      | error e =>
        rw [FailState.bind_error hd]
        exact hends
      | ok done =>
        obtain ⟨flow, last⟩ := done
        rw [FailState.bind_ok hd]
        cases flow with
        | «continue» => trivial
        | «return» value => trivial
        | jump target =>
          obtain ⟨q, hwithin, hexec⟩ := hends
          have hfunction : q.function = function := hwithin.same.1
          change FrameEnds m host _ (executeFrame m (callFunction m host fuel) function turns target last
            t).1
          cases hnext : findBlock function target with
          | ok next =>
            have hstep := Step.jump hexec (hfunction ▸ hnext)
            have hrest := ih last t hnext
            cases hr : (executeFrame m (callFunction m host fuel) function turns target last t).1
              with
            | ok value => trivial
            | error e =>
              rw [hr] at hrest
              rcases hrest with rfl | ⟨r, hreach, hfails⟩
              · exact .inl rfl
              · rw [hfunction] at hstep
                exact .inr ⟨r, hwithin.reaches.trans (.head hstep hreach), hfails⟩
          | error e =>
            cases turns with
            | zero => exact .inl rfl
            | succ turns =>
              rw [executeFrame, hnext, FailState.bind_error (FailState.lift_run _ _)]
              exact .inr ⟨q, hwithin.reaches, .jump hexec (hfunction ▸ hnext)⟩

variable (m host) in
/-- A call that fails is refused, or one of the points it reaches fails with the
    same error. -/
theorem callFunction_ends (fuel : ℕ) (name : String) (args : List (RuntimeValue ν))
    (s : Machine ν) :
    CallEnds m host name args s (callFunction m host fuel name args s).1 := by
  induction fuel generalizing name args s with
  | zero => exact .inl rfl
  | succ fuel ih =>
    cases hd : dispatch m host name args s with
    | mk result t =>
      cases result with
      | error e =>
        rw [callFunction, FailState.bind_error hd]
        exact .inr (.inl (.inl (by rw [hd])))
      | ok target =>
        rw [callFunction, FailState.bind_ok hd]
        cases target with
        | inl value => trivial
        | inr function =>
          change CallEnds m host name args s (executeFrame m (callFunction m host fuel) function (fuel + 1)
            0 (.new function args) t).1
          cases hblock : findBlock function 0 with
          | error e =>
            rw [executeFrame, hblock, FailState.bind_error (FailState.lift_run _ _)]
            exact .inr (.inl (.inr ⟨function, t, hd, hblock⟩))
          | ok block =>
            have hends := executeFrame_ends ih (.new function args) t (fuel + 1) hblock
            have henter : Enters m host name args s (entry function block args t) :=
              ⟨function, block, t, hd, hblock, rfl⟩
            cases hr : (executeFrame m (callFunction m host fuel) function (fuel + 1) 0
              (.new function args) t).1 with
            | ok value => trivial
            | error e =>
              rw [hr] at hends
              rcases hends with rfl | ⟨q, hreach, hfails⟩
              · exact .inl rfl
              · exact .inr (.inr ⟨_, q, henter, hreach, hfails⟩)

open FailState (Extends)

def ExtendsCall (call call' : Call ν) : Prop :=
  ∀ name args, Extends .outOfFuel (call name args) (call' name args)

theorem executeInstruction_extends {call call' : Call ν} (h : ExtendsCall call call')
    (instruction : Instruction) (frame : Frame ν) :
    Extends .outOfFuel (executeInstruction m call instruction frame)
      (executeInstruction m call' instruction frame) := by
  by_cases hop : instruction.opcode = .call
  · rw [executeInstruction_call hop, executeInstruction_call hop]
    exact .bind (.refl _ _) fun callee => .bind (h callee.1 callee.2) fun value => .refl _ _
  · rw [executeInstruction_of_ne_call hop]
    exact .refl _ _

theorem executeBlock_extends {call call' : Call ν} (h : ExtendsCall call call')
    (rest : List Instruction) (frame : Frame ν) :
    Extends .outOfFuel (executeBlock m call rest frame) (executeBlock m call' rest frame) := by
  induction rest generalizing frame with
  | nil => exact .refl _ _
  | cons instruction rest ih =>
    refine .bind (executeInstruction_extends h instruction frame) fun done => ?_
    obtain ⟨flow, last⟩ := done
    cases flow with
    | «continue» => exact ih last
    | jump target => exact .refl _ _
    | «return» value => exact .refl _ _

theorem executeFrame_extends {call call' : Call ν} (h : ExtendsCall call call')
    (function : BytecodeFunction) {turns turns' : ℕ} (hle : turns ≤ turns') (id : UInt32)
    (frame : Frame ν) :
    Extends .outOfFuel (executeFrame m call function turns id frame)
      (executeFrame m call' function turns' id frame) := by
  induction turns generalizing turns' id frame with
  | zero => exact .fail _ _
  | succ turns ih =>
    obtain ⟨rest, rfl⟩ : ∃ rest, turns' = rest + 1 := ⟨turns' - 1, by omega⟩
    refine .bind (.refl _ _) fun block => .bind (executeBlock_extends h block.instructions frame)
      fun done => ?_
    obtain ⟨flow, last⟩ := done
    cases flow with
    | «continue» => exact .refl _ _
    | jump target => exact ih (by omega) target last
    | «return» value => exact .refl _ _

variable (m host) in
theorem callFunction_extends {fuel fuel' : ℕ} (hle : fuel ≤ fuel') :
    ExtendsCall (callFunction m host fuel) (callFunction m host fuel') := by
  induction fuel generalizing fuel' with
  | zero => exact fun name args => .fail _ _
  | succ fuel ih =>
    obtain ⟨rest, rfl⟩ : ∃ rest, fuel' = rest + 1 := ⟨fuel' - 1, by omega⟩
    intro name args
    refine .bind (.refl _ _) fun target => ?_
    cases target with
    | inl value => exact .refl _ _
    | inr function => exact executeFrame_extends (ih (by omega)) function (by omega) 0 _

variable (m host) in
/-- What is left of an activation at `p`. -/
def resume (fuel : ℕ) (p : Point ν) : Run ν (RuntimeValue ν) := do
  let (flow, frame) ← executeBlock m (callFunction m host fuel)
    (p.block.instructions.drop p.pc) p.frame
  match flow with
  | .continue => pure .undefined
  | .jump next => executeFrame m (callFunction m host fuel) p.function fuel next frame
  | .return value => pure value

variable (m host) in
/-- What is left of an activation once the instruction at `p` is executed. -/
def follow (fuel : ℕ) (p : Point ν) (frame : Frame ν) : ControlFlow ν → Run ν (RuntimeValue ν)
  | .continue => resume m host fuel { p with pc := p.pc + 1, frame }
  | .jump next => executeFrame m (callFunction m host fuel) p.function fuel next frame
  | .return value => pure value

theorem resume_extends {fuel fuel' : ℕ} (hle : fuel ≤ fuel') (p : Point ν) :
    Extends .outOfFuel (resume m host fuel p) (resume m host fuel' p) := by
  refine .bind (executeBlock_extends (callFunction_extends m host hle) _ _) fun done => ?_
  obtain ⟨flow, last⟩ := done
  cases flow with
  | «continue» => exact .refl _ _
  | jump target => exact executeFrame_extends (callFunction_extends m host hle) _ hle target last
  | «return» value => exact .refl _ _

variable (m host) in
theorem executeFrame_eq_resume {function : BytecodeFunction} {id : UInt32} {block : BytecodeBlock}
    (hblock : findBlock function id = .ok block) (fuel : ℕ) (frame : Frame ν) (s : Machine ν) :
    executeFrame m (callFunction m host fuel) function (fuel + 1) id frame s =
      resume m host fuel ⟨function, block, 0, frame, s⟩ s := by
  rw [executeFrame, hblock, FailState.bind_ok (FailState.lift_run _ _)]
  rfl

theorem callFunction_of_enters {name : String} {args : List (RuntimeValue ν)} {s : Machine ν}
    {p : Point ν} (h : Enters m host name args s p) (fuel : ℕ) :
    callFunction m host (fuel + 1) name args s = resume m host fuel p p.machine := by
  obtain ⟨function, block, t, hdispatch, hblock, rfl⟩ := h
  rw [callFunction, FailState.bind_ok hdispatch]
  exact executeFrame_eq_resume m host hblock fuel _ t

theorem callFunction_of_refuses {name : String} {args : List (RuntimeValue ν)} {s : Machine ν}
    {e : Stop} (h : Refuses m host name args s e) (fuel : ℕ) :
    (callFunction m host (fuel + 1) name args s).1 = .error e := by
  rcases h with h | ⟨function, t, hdispatch, hblock⟩
  · rw [callFunction, FailState.bind_error (Prod.ext h rfl)]
  · rw [callFunction, FailState.bind_ok hdispatch]
    change (executeFrame m (callFunction m host fuel) function (fuel + 1) 0 _ t).1 = _
    rw [executeFrame, hblock, FailState.bind_error (FailState.lift_run _ _)]

omit [F64 ν] in
theorem drop_pc {p : Point ν} {instruction : Instruction} (hi : p.instruction = some instruction) :
    p.block.instructions.drop p.pc = instruction :: p.block.instructions.drop (p.pc + 1) := by
  obtain ⟨hlt, hget⟩ := List.getElem?_eq_some_iff.mp hi
  rw [List.drop_eq_getElem_cons hlt, hget]

theorem resume_of_fails {p : Point ν} {fuel : ℕ} {instruction : Instruction} {e : Stop}
    (hi : p.instruction = some instruction)
    (h : (executeInstruction m (callFunction m host fuel) instruction p.frame p.machine).1 =
      .error e) :
    (resume m host fuel p p.machine).1 = .error e := by
  rw [resume, drop_pc hi, executeBlock, FailState.bind_error (FailState.bind_error (Prod.ext h rfl))]

theorem resume_of_executes {p : Point ν} {fuel : ℕ} {instruction : Instruction}
    {flow : ControlFlow ν} {frame : Frame ν} {s : Machine ν}
    (hi : p.instruction = some instruction)
    (h : executeInstruction m (callFunction m host fuel) instruction p.frame p.machine =
      (.ok (flow, frame), s)) :
    resume m host fuel p p.machine = follow m host fuel p frame flow s := by
  rw [resume, drop_pc hi, executeBlock]
  change FailState.bind (FailState.bind _ _) _ _ = _
  simp only [FailState.bind, h]
  cases flow with
  | «continue» => rfl
  | jump target => rfl
  | «return» value => rfl

theorem executeInstruction_own {call : Call ν} {instruction : Instruction} {frame : Frame ν}
    {s : Machine ν} {e : Stop}
    (h : (executeInstruction m (fun _ _ => pure .undefined) instruction frame s).1 = .error e) :
    (executeInstruction m call instruction frame s).1 = .error e := by
  by_cases hop : instruction.opcode = .call
  · rw [executeInstruction_call hop] at h ⊢
    cases hargs : callOperands m instruction frame with
    | error e' =>
      rw [hargs, FailState.bind_error (FailState.lift_run _ _)] at h
      rw [FailState.bind_error (FailState.lift_run _ _)]
      exact h
    | ok callee =>
      rw [hargs, FailState.bind_ok (FailState.lift_run _ _)] at h
      cases h
  · rw [executeInstruction_of_ne_call hop]
    exact h

theorem executeInstruction_callsWith {call : Call ν} {instruction : Instruction} {frame : Frame ν}
    {s : Machine ν} {name : String} {args : List (RuntimeValue ν)} {e : Stop}
    (hop : instruction.opcode = .call) (hargs : callOperands m instruction frame = .ok (name, args))
    (h : (call name args s).1 = .error e) :
    (executeInstruction m call instruction frame s).1 = .error e := by
  rw [executeInstruction_call hop, hargs, FailState.bind_ok (FailState.lift_run _ _),
    FailState.bind_error (Prod.ext h rfl)]

theorem Fails.resume {p : Point ν} {e : Stop} (h : Fails m host p e) :
    ∃ fuel, (resume m host fuel p p.machine).1 = .error e := by
  cases h with
  | instruction hi h => exact ⟨0, resume_of_fails hi (executeInstruction_own h)⟩
  | call hcalls hrefuse =>
    obtain ⟨instruction, hi, hop, hargs⟩ := hcalls
    exact ⟨1, resume_of_fails hi
      (executeInstruction_callsWith hop hargs (callFunction_of_refuses hrefuse 0))⟩
  | @jump target frame machine hexec hblock =>
    obtain ⟨instruction, fuel, hi, hexec⟩ := hexec
    have hlarger := (executeInstruction_extends
      (callFunction_extends m host (Nat.le_succ fuel)) instruction p.frame).ok hexec
    refine ⟨fuel + 1, ?_⟩
    rw [resume_of_executes hi hlarger]
    change (executeFrame m _ p.function (fuel + 1) target frame machine).1 = _
    rw [executeFrame, hblock, FailState.bind_error (FailState.lift_run _ _)]

theorem Step.resume {p q : Point ν} (h : Step m host p q) {fuel : ℕ} {e : Stop}
    (hne : e ≠ .outOfFuel) (herror : (resume m host fuel q q.machine).1 = .error e) :
    ∃ fuel', (InterpreterSteps.resume m host fuel' p p.machine).1 = .error e := by
  cases h with
  | next hnext =>
    obtain ⟨frame, machine, ⟨instruction, k, hi, hexec⟩, rfl⟩ := hnext
    have hlarger := (executeInstruction_extends
      (callFunction_extends m host (Nat.le_max_left k fuel)) instruction
        p.frame).ok hexec
    refine ⟨max k fuel, ?_⟩
    rw [resume_of_executes hi hlarger]
    exact (resume_extends (Nat.le_max_right k fuel) _).error herror hne
  | @jump target frame machine block hexec hblock =>
    obtain ⟨instruction, k, hi, hexec⟩ := hexec
    have hlarger := (executeInstruction_extends
      (callFunction_extends m host (show k ≤ max k fuel + 1 by omega)) instruction
        p.frame).ok hexec
    refine ⟨max k fuel + 1, ?_⟩
    rw [resume_of_executes hi hlarger]
    have hframe := executeFrame_eq_resume m host hblock fuel frame machine
    have hextends := executeFrame_extends (m := m) (callFunction_extends m host
      (show fuel ≤ max k fuel + 1 by omega)) p.function (show fuel + 1 ≤ max k fuel + 1 by omega)
      target frame
    exact hextends.error (by rw [hframe]; exact herror) hne
  | call hcalls henter =>
    obtain ⟨instruction, hi, hop, hargs⟩ := hcalls
    refine ⟨fuel + 1, resume_of_fails hi (executeInstruction_callsWith hop hargs ?_)⟩
    rw [callFunction_of_enters henter]
    exact herror

/-- The errors of a call, for any budget, are the ways it can be refused and the
    failures of the points it passes. -/
theorem callFunction_error_iff {name : String} {args : List (RuntimeValue ν)} {s : Machine ν}
    {e : Stop} (hne : e ≠ .outOfFuel) :
    (∃ fuel, (callFunction m host fuel name args s).1 = .error e) ↔
      Refuses m host name args s e ∨ ∃ p, Passes m host name args s p ∧ Fails m host p e := by
  constructor
  · rintro ⟨fuel, h⟩
    have hends := callFunction_ends m host fuel name args s
    rw [h] at hends
    rcases hends with rfl | hrefuse | ⟨start, p, henter, hreach, hfails⟩
    · exact absurd rfl hne
    · exact .inl hrefuse
    · exact .inr ⟨p, ⟨start, henter, hreach⟩, hfails⟩
  · rintro (hrefuse | ⟨p, ⟨start, henter, hreach⟩, hfails⟩)
    · exact ⟨1, callFunction_of_refuses hrefuse 0⟩
    · obtain ⟨fuel, hfuel⟩ : ∃ fuel, (resume m host fuel start start.machine).1 = .error e := by
        clear henter
        induction hreach using ReflTransGen.head_induction_on with
        | refl => exact hfails.resume
        | head hstep _ ih =>
          obtain ⟨fuel, hfuel⟩ := ih
          exact hstep.resume hne hfuel
      exact ⟨fuel + 1, by rw [callFunction_of_enters henter]; exact hfuel⟩

theorem Passes.reachable {name : String} {args : List (RuntimeValue ν)} {s : Machine ν}
    {p : Point ν} (h : Passes m host name args s p) : Reachable m host p := by
  obtain ⟨start, henter, hreach⟩ := h
  exact ⟨start, henter.starts, hreach⟩

end

end Tsvm.InterpreterSteps
