import Tsvm.InterpreterSteps

set_option autoImplicit false

/-!
# Invariants of the points of a run

A `PointInvariant` says what holds of the state whenever a call begins or ends, and
what holds of the points in between. A call that is completed is one step of its
caller, so the rules for one instruction give the states behind calls first, by
induction on the step budget, and then every point that a call passes.
-/
namespace Tsvm.PointInvariants
open Bytecode BytecodeVerifier Interop RuntimeValues Interpreter InterpreterSteps Relation

variable {ν : Type} [F64 ν]

/-- What is to hold behind the instruction at `p`. -/
structure Behind (Holds : Machine ν → Prop) (At : Point ν → Prop) (p : Point ν)
    (flow : ControlFlow ν) (frame : Frame ν) (t : Machine ν) : Prop where
  holds : Holds t
  next : flow = .continue → At (p.after frame t)
  jump : ∀ target block, flow = .jump target → findBlock p.function target = .ok block →
    At ⟨p.function, block, 0, frame, t⟩

/-- `Condition` is what a run is asked to meet at each of its points. -/
structure PointInvariant (m : BytecodeModule) (host : HostEnvironment ν) where
  Holds : Machine ν → Prop
  At : Point ν → Prop
  Condition : Point ν → Prop
  machine {p : Point ν} : At p → Holds p.machine
  dispatch {name : String} {args : List (RuntimeValue ν)} {s t : Machine ν}
    {result : RuntimeValue ν ⊕ BytecodeFunction} :
    Holds s → Interpreter.dispatch m host name args s = (.ok result, t) → Holds t
  starts {p : Point ν} : Starts m p → Holds p.machine → Condition p → At p
  step {p : Point ν} {instruction : Instruction} {call : Call ν} {flow : ControlFlow ν}
    {frame : Frame ν} {t : Machine ν} : At p → Condition p → p.instruction = some instruction →
    instruction.opcode ≠ .call →
    executeInstruction m call instruction p.frame p.machine = (.ok (flow, frame), t) →
    Behind Holds At p flow frame t
  returns {p : Point ν} {name : String} {args : List (RuntimeValue ν)} {value : RuntimeValue ν}
    {t : Machine ν} : At p → CallsWith m p name args → Holds t →
    At (p.after (p.frame.pushValue value) t)

variable {m : BytecodeModule} {host : HostEnvironment ν} (inv : PointInvariant m host)

def Met (p : Point ν) : Prop := ∀ q, Reaches m host p q → inv.Condition q

def MetIn (name : String) (args : List (RuntimeValue ν)) (s : Machine ν) : Prop :=
  ∀ p, Passes m host name args s p → inv.Condition p

def CallHolds (call : Call ν) : Prop :=
  ∀ name args s value t, inv.Holds s → MetIn inv name args s →
    call name args s = (.ok value, t) → inv.Holds t

variable {inv}

theorem Met.reaches {p q : Point ν} (h : Met inv p) (hreach : Reaches m host p q) : Met inv q :=
  fun r hr => h r (hreach.trans hr)

theorem Met.calls {p : Point ν} (h : Met inv p) {name : String} {args : List (RuntimeValue ν)}
    (hcalls : CallsWith m p name args) : MetIn inv name args p.machine := by
  rintro q ⟨start, henter, hreach⟩
  exact h q (.head (.call hcalls henter) hreach)

theorem MetIn.enters {name : String} {args : List (RuntimeValue ν)} {s : Machine ν} {p : Point ν}
    (h : MetIn inv name args s) (henter : Enters m host name args s p) : Met inv p :=
  fun q hreach => h q ⟨p, henter, hreach⟩

theorem instruction_behind {p : Point ν} {call : Call ν} {instruction : Instruction}
    {flow : ControlFlow ν} {frame : Frame ν} {t : Machine ν} (hcall : CallHolds inv call)
    (hat : inv.At p) (hmet : Met inv p) (hi : p.instruction = some instruction)
    (hexec : executeInstruction m call instruction p.frame p.machine = (.ok (flow, frame), t)) :
    Behind inv.Holds inv.At p flow frame t := by
  by_cases hop : instruction.opcode = .call
  · rw [executeInstruction_call hop, FailState.bind_eq_ok] at hexec
    obtain ⟨callee, s, hargs, hrest⟩ := hexec
    rw [FailState.lift_run, Prod.mk.injEq] at hargs
    obtain ⟨hargs, rfl⟩ := hargs
    obtain ⟨value, u, hvalue, hdone⟩ := FailState.bind_eq_ok.mp hrest
    cases hdone
    have hcalls : CallsWith m p callee.1 callee.2 := ⟨instruction, hi, hop, hargs⟩
    have hholds := hcall _ _ _ _ _ (inv.machine hat) (hmet.calls hcalls) hvalue
    exact ⟨hholds, fun _ => inv.returns hat hcalls hholds, nofun⟩
  · exact inv.step hat (hmet p .refl) hi hop hexec

theorem executeBlock_behind {fuel : ℕ} (hcall : CallHolds inv (callFunction m host fuel))
    (rest : List Instruction) {p : Point ν} (hrest : p.block.instructions.drop p.pc = rest)
    (hat : inv.At p) (hmet : Met inv p) {flow : ControlFlow ν} {frame : Frame ν} {t : Machine ν}
    (hexec : executeBlock m (callFunction m host fuel) rest p.frame p.machine =
      (.ok (flow, frame), t)) :
    inv.Holds t ∧ ∀ target block, flow = .jump target → findBlock p.function target = .ok block →
      inv.At ⟨p.function, block, 0, frame, t⟩ := by
  induction rest generalizing p with
  | nil =>
    cases hexec
    exact ⟨inv.machine hat, fun _ _ hflow => by cases hflow⟩
  | cons instruction rest ih =>
    have hlt : p.pc < p.block.instructions.length := by
      by_contra hge
      rw [List.drop_eq_nil_of_le (by omega)] at hrest
      cases hrest
    have hsplit := List.drop_eq_getElem_cons hlt
    rw [hrest, List.cons.injEq] at hsplit
    have hi : p.instruction = some instruction := by
      rw [Point.instruction, List.getElem?_eq_getElem hlt, hsplit.1]
    obtain ⟨⟨first, next⟩, u, hfirst, hbehind⟩ := FailState.bind_eq_ok.mp hexec
    have hstep := instruction_behind hcall hat hmet hi hfirst
    cases first with
    | «continue» =>
      have hnext : Next m host p (p.after next u) := ⟨next, u, ⟨instruction, fuel, hi, hfirst⟩, rfl⟩
      have hrest := @ih (p.after next u) hsplit.2.symm (hstep.next rfl)
        (hmet.reaches (.single hnext.step)) hbehind
      exact hrest
    | jump target =>
      cases hbehind
      exact ⟨hstep.holds, hstep.jump⟩
    | «return» value =>
      cases hbehind
      exact ⟨hstep.holds, fun _ _ hflow => by cases hflow⟩

theorem executeFrame_holds {fuel : ℕ} (hcall : CallHolds inv (callFunction m host fuel))
    {function : BytecodeFunction} {id : UInt32} {block : BytecodeBlock} {frame : Frame ν}
    {s : Machine ν} (turns : ℕ) (hblock : findBlock function id = .ok block)
    (hat : inv.At ⟨function, block, 0, frame, s⟩) (hmet : Met inv ⟨function, block, 0, frame, s⟩)
    {value : RuntimeValue ν} {t : Machine ν}
    (hexec : executeFrame m (callFunction m host fuel) function turns id frame s = (.ok value, t)) :
    inv.Holds t := by
  induction turns generalizing id block frame s with
  | zero => cases hexec
  | succ turns ih =>
    have hends := executeBlock_ends (callFunction_ends m host fuel) block.instructions
      ⟨function, block, 0, frame, s⟩ rfl (Nat.zero_le _)
    rw [executeFrame, hblock, FailState.bind_ok (FailState.lift_run _ _)] at hexec
    obtain ⟨⟨flow, last⟩, u, hd, hrest⟩ := FailState.bind_eq_ok.mp hexec
    rw [hd] at hends
    obtain ⟨hholds, hjump⟩ := executeBlock_behind hcall block.instructions rfl hat hmet hd
    cases flow with
    | «continue» =>
      cases hrest
      exact hholds
    | «return» result =>
      cases hrest
      exact hholds
    | jump target =>
      change executeFrame m _ function turns target last u = _ at hrest
      obtain ⟨q, hwithin, hq⟩ := hends
      have hfunction : q.function = function := hwithin.same.1
      cases hnext : findBlock function target with
      | ok next =>
        have hstep := Step.jump hq (hfunction ▸ hnext)
        rw [hfunction] at hstep
        exact ih hnext (hjump target next rfl hnext) (hmet.reaches (hwithin.reaches.tail hstep)) hrest
      | error e =>
        cases turns with
        | zero => cases hrest
        | succ turns =>
          rw [executeFrame, hnext, FailState.bind_error (FailState.lift_run _ _)] at hrest
          cases hrest

theorem enters_at {name : String} {args : List (RuntimeValue ν)} {s : Machine ν} {p : Point ν}
    (hs : inv.Holds s) (henter : Enters m host name args s p) (hcondition : inv.Condition p) :
    inv.At p := by
  refine inv.starts henter.starts ?_ hcondition
  obtain ⟨function, block, t, hdispatch, _, rfl⟩ := henter
  exact inv.dispatch hs hdispatch

variable (inv) in
theorem callFunction_holds (fuel : ℕ) : CallHolds inv (callFunction m host fuel) := by
  induction fuel with
  | zero =>
    intro name args s value t _ _ h
    cases h
  | succ fuel ih =>
    intro name args s value t hs hmet h
    obtain ⟨result, u, hd, hrest⟩ := FailState.bind_eq_ok.mp h
    cases result with
    | inl found =>
      cases hrest
      exact inv.dispatch hs hd
    | inr function =>
      change executeFrame m _ function (fuel + 1) 0 (.new function args) u = _ at hrest
      cases hblock : findBlock function 0 with
      | ok block =>
        have henter : Enters m host name args s (entry function block args u) :=
          ⟨function, block, u, hd, hblock, rfl⟩
        have hstart := hmet.enters henter
        exact executeFrame_holds ih (fuel + 1) hblock (enters_at hs henter (hstart _ .refl)) hstart
          hrest
      | error e =>
        rw [executeFrame, hblock, FailState.bind_error (FailState.lift_run _ _)] at hrest
        cases hrest

theorem executes_behind {p : Point ν} {flow : ControlFlow ν} {frame : Frame ν} {t : Machine ν}
    (hat : inv.At p) (hmet : Met inv p) (h : Executes m host p flow frame t) :
    Behind inv.Holds inv.At p flow frame t := by
  obtain ⟨instruction, fuel, hi, hexec⟩ := h
  exact instruction_behind (callFunction_holds inv fuel) hat hmet hi hexec

theorem step_at {p q : Point ν} (hat : inv.At p) (hmet : Met inv p) (h : Step m host p q) :
    inv.At q := by
  have hq := hmet.reaches (.single h)
  cases h with
  | next hnext =>
    obtain ⟨frame, t, hexec, rfl⟩ := hnext
    exact (executes_behind hat hmet hexec).next rfl
  | jump hexec hblock => exact (executes_behind hat hmet hexec).jump _ _ rfl hblock
  | call hcalls henter => exact enters_at (inv.machine hat) henter (hq q .refl)

/-- The invariant holds at every point of a call that meets the condition. -/
theorem passes_at {name : String} {args : List (RuntimeValue ν)} {s : Machine ν} (hs : inv.Holds s)
    (hmet : MetIn inv name args s) {p : Point ν} (h : Passes m host name args s p) : inv.At p := by
  obtain ⟨start, henter, hreach⟩ := h
  have hstart := hmet.enters henter
  induction hreach with
  | refl => exact enters_at hs henter (hstart _ .refl)
  | tail hreach hstep ih => exact step_at ih (hstart.reaches hreach) hstep

end Tsvm.PointInvariants
