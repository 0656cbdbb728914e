import Tsvm.InterpreterSteps
import Tsvm.Pipeline

set_option autoImplicit false

/-!
# Runs after different histories

A host whose functions are functions of their arguments does not tell one
history of calls from another, so neither does a run.
-/
namespace Tsvm.HostHistories
open Bytecode Heap Interop Interpreter InterpreterSteps RuntimeValues
open FailState

variable {ν : Type}

/-- The functions of the host are functions of their arguments. -/
def Forgetful (host : HostEnvironment ν) : Prop :=
  ∀ history history' name args, host.call history name args = host.call history' name args

theorem forgetful_new : Forgetful (HostEnvironment.new : HostEnvironment ν) :=
  fun _ _ _ _ => rfl

/-- Two machines that differ in the history of host calls only. -/
def SameMachine (s s' : Machine ν) : Prop := s.heap = s'.heap ∧ s.console = s'.console

abbrev SameRun {α : Type} (d d' : Run ν α) : Prop := Parallel SameMachine d d'

theorem allocate_same (value : HeapValue ν) : SameRun (allocate value) (allocate value) := by
  intro s s' h
  refine ⟨?_, ?_, h.2⟩
  · change Except.ok (s.heap.allocate value).1 = Except.ok (s'.heap.allocate value).1
    rw [h.1]
  · change (s.heap.allocate value).2 = (s'.heap.allocate value).2
    rw [h.1]

theorem setHeap_same {heap heap' : Store ν} (h : heap = heap') :
    SameRun (setHeap heap) (setHeap heap') :=
  .modify fun _ _ hs => ⟨h, hs.2⟩

section Execution

variable [F64 ν] (m : BytecodeModule)

theorem executeInstruction_same {call : Call ν}
    (hcall : ∀ name args, SameRun (call name args) (call name args)) (instruction : Instruction)
    (frame : Frame ν) :
    SameRun (executeInstruction m call instruction frame)
      (executeInstruction m call instruction frame) := by
  obtain ⟨opcode, operands, tag, src⟩ := instruction
  cases opcode with
  | loadConst => exact .bind (.lift _) fun _ => .bind (.lift _) fun _ => .pure _
  | buildObject =>
    exact .bind (.lift _) fun _ => .bind (.lift _) fun _ => .bind (allocate_same _) fun _ => .pure _
  | buildArray =>
    exact .bind (.lift _) fun _ => .bind (.lift _) fun _ => .bind (allocate_same _) fun _ => .pure _
  | loadLocal => exact .bind (.lift _) fun _ => .pure _
  | storeLocal => exact .bind (.lift _) fun _ => .bind (.lift _) fun _ => .pure _
  | loadMember =>
    refine .bind (.lift _) fun _ => .bind (.lift _) fun _ => .read fun s s' h => ?_
    rw [h.1]
    exact .bind (.lift _) fun _ => .pure _
  | storeMember =>
    refine .bind (.lift _) fun _ => .bind (.lift _) fun _ => .bind (.lift _) fun _ =>
      .read fun s s' h => ?_
    rw [h.1]
    exact .bind (.lift _) fun _ => .bind (setHeap_same rfl) fun _ => .pure _
  | binary =>
    refine .bind (.lift _) fun _ => .bind (.lift _) fun _ => .bind (.lift _) fun _ =>
      .read fun s s' h => ?_
    rw [h.1]
    exact .bind (.lift _) fun _ => .pure _
  | call => exact .bind (.lift _) fun _ => .bind (hcall _ _) fun _ => .pure _
  | branch => exact .bind (.lift _) fun _ => .bind (.lift _) fun _ => .pure _
  | jump => exact .bind (.lift _) fun _ => .pure _
  | «return» =>
    cases operands with
    | nil => exact .pure _
    | cons value values => exact .bind (.lift _) fun _ => .pure _

theorem executeBlock_same {call : Call ν}
    (hcall : ∀ name args, SameRun (call name args) (call name args))
    (instructions : List Instruction) (frame : Frame ν) :
    SameRun (executeBlock m call instructions frame) (executeBlock m call instructions frame) := by
  induction instructions generalizing frame with
  | nil => exact .pure _
  | cons instruction instructions ih =>
    refine .bind (executeInstruction_same m hcall instruction frame) fun result => ?_
    obtain ⟨flow, frame⟩ := result
    cases flow with
    | «continue» => exact ih frame
    | jump target => exact .pure _
    | «return» value => exact .pure _

theorem executeFrame_same {call : Call ν}
    (hcall : ∀ name args, SameRun (call name args) (call name args)) (function : BytecodeFunction)
    (fuel : ℕ) (blockId : UInt32) (frame : Frame ν) :
    SameRun (executeFrame m call function fuel blockId frame)
      (executeFrame m call function fuel blockId frame) := by
  induction fuel generalizing blockId frame with
  | zero => exact .fail _
  | succ fuel ih =>
    refine .bind (.lift _) fun block => .bind (executeBlock_same m hcall _ _) fun result => ?_
    obtain ⟨flow, frame⟩ := result
    cases flow with
    | «continue» => exact .pure _
    | jump target => exact ih target frame
    | «return» value => exact .pure _

variable {host : HostEnvironment ν}

omit [F64 ν] in
theorem callHost_same (hhost : Forgetful host) (name : String) (args : List (RuntimeValue ν)) :
    SameRun (callHost host name args) (callHost host name args) := by
  refine .read fun s s' h => ?_
  rw [h.1]
  refine .bind (.lift _) fun converted => ?_
  rw [hhost s.hostCalls s'.hostCalls]
  cases host.call s'.hostCalls name converted with
  | none => exact .pure _
  | some result =>
    refine .bind (.modify fun _ _ hs => hs) fun _ => ?_
    cases result with
    | error error => exact .fail _
    | ok value => exact .bind (setHeap_same rfl) fun _ => .pure _

omit [F64 ν] in
theorem dispatch_same (hhost : Forgetful host) (name : String) (args : List (RuntimeValue ν)) :
    SameRun (dispatch m host name args) (dispatch m host name args) := by
  unfold dispatch
  by_cases hname : name = "console.log"
  · rw [if_pos hname]
    exact .bind (.modify fun _ _ hs => ⟨hs.1, congrArg (· ++ args) hs.2⟩) fun _ => .pure _
  · rw [if_neg hname]
    refine .bind (callHost_same hhost name args) fun result => ?_
    cases result with
    | some value => exact .pure _
    | none => exact .bind (.lift _) fun _ => .pure _

theorem callFunction_same (hhost : Forgetful host) (fuel : ℕ) (name : String)
    (args : List (RuntimeValue ν)) :
    SameRun (Interpreter.callFunction m host fuel name args)
      (Interpreter.callFunction m host fuel name args) := by
  induction fuel generalizing name args with
  | zero => exact .fail _
  | succ fuel ih =>
    refine .bind (dispatch_same m hhost name args) fun result => ?_
    cases result with
    | inl value => exact .pure _
    | inr function => exact executeFrame_same m ih function _ _ _

theorem execute_same (hhost : Forgetful host) (fuel : ℕ) :
    SameRun (execute m host fuel) (execute m host fuel) := by
  refine .bind (callFunction_same m hhost fuel _ _) fun returnValue => .read fun s s' h => ?_
  rw [h.1, h.2]
  exact .bind (setHeap_same rfl) fun _ => .bind (.lift _) fun _ => .bind (.lift _) fun _ => .pure _

end Execution

end Tsvm.HostHistories
