import Tsvm.ActivationPoints
import Tsvm.HandleIntegrity

set_option autoImplicit false

/-!
# Compound assignments

The operator of an assignment to a variable is dropped. An assignment to a member
reads the member behind its right-hand side and so sees what that has stored.
-/
namespace Tsvm.CompoundAssignments
open Ast Bytecode BytecodeVerifier Interop Ir Lowering Compilation RuntimeValues Interpreter
  InterpreterSteps Semantic
open LoweringCode CompiledOperands CompiledValues FunctionSlots ExpressionRuns ActivationPoints

variable {ν : Type}

theorem storeSlot_self (locals : Locals ν) (index : UInt32) (value : RuntimeValue ν) :
    (storeSlot locals index value)[index.toNat]? = some value :=
  Frame.storeLocal_self ⟨locals, []⟩ index value

section Members

variable {heap stored : Store ν} {object found value : RuntimeValue ν} {property : String}

theorem storeMember_of_loadMember (h : loadMember heap object property = .ok found)
    (value : RuntimeValue ν) : ∃ stored, storeMember heap object property value = .ok stored ∧
      loadMember stored object property = .ok value := by
  cases object with
  | object handle =>
    rw [loadMember] at h
    cases hget : heap.get handle with
    | none =>
      rw [hget] at h
      cases h
    | some contents =>
      rw [hget] at h
      cases contents with
      | array values => cases h
      | object fields =>
        refine ⟨heap.set handle (.object (fields.insert property value)), ?_, ?_⟩
        · rw [storeMember, Heap.GcHeap.getMut, hget]
          rfl
        · rw [loadMember, HandleIntegrity.set_get _ hget, if_pos rfl]
          dsimp only
          rw [Std.TreeMap.getElem?_insert_self]
          rfl
  | _ => cases h

end Members

section Assignments

variable [F64 ν] {program : Program} {host : HostEnvironment ν} {function : IrFunction}
  {start p q : Point ν} {types : List (String × IrType)} {right : Expression} {n : ℕ}
  {name : String} {nameSpan span : Span} {operator : AssignmentOperator}
  {value result : RuntimeValue ν}

/-- The operator of a compound assignment, applied to what is found and the right-hand side. -/
def compounded (operator : AssignmentOperator) (heap : Store ν)
    (found : Except Stop (RuntimeValue ν)) (value : RuntimeValue ν) : Except Stop (RuntimeValue ν) := do
  let found ← found
  binary (binaryOpCode (assignmentBinaryOp operator)) heap found value

/-- The assignment has the value of its right-hand side, whatever the operator, and so it
    is the compound assignment only where the operator gives that value. -/
theorem variableAssignment_iff (hsize : irSize (lowerProgram program) ≤ 2 ^ 32)
    (h : Activation program host function start p)
    (hat : AtCode function p
      (expressionCode types (.assignment (.identifier name nameSpan) operator right span) n).code)
    (hright : Evaluates (compile (lowerProgram program)) host p q (expressionCode types right n)
      value)
    (hresult : compounded operator q.machine.heap
      (loadSlot p.frame.locals (slotOf (finalSlots function) name)) value = .ok result) :
    (∃ q', Evaluates (compile (lowerProgram program)) host p q'
          (expressionCode types (.assignment (.identifier name nameSpan) operator right span) n)
          result ∧
        variableAt function q' name = some result) ↔
      compounded operator q.machine.heap
        (loadSlot p.frame.locals (slotOf (finalSlots function) name)) value = .ok value := by
  obtain ⟨offset, hsited⟩ := h.sited hsize
  obtain ⟨hn, fuel, hfuel⟩ := run_of_evaluates hsited hat.left hright
  have hrun (fuel' : ℕ) (hle : fuel ≤ fuel') : runExpression (slotOf (finalSlots function))
      (callFunction (compile (lowerProgram program)) host fuel')
      (.assignment (.identifier name nameSpan) operator right span) p.frame.locals p.machine =
        (.ok (value, storeSlot q.frame.locals (slotOf (finalSlots function) name) value),
          q.machine) := by
    rw [runExpression, FailState.bind_ok (hfuel fuel' hle)]
    rfl
  rw [hresult]
  constructor
  · rintro ⟨q', hq', _⟩
    obtain ⟨_, fuel', hfuel'⟩ := run_of_evaluates hsited hat hq'
    have hsame := (hfuel' _ (Nat.le_max_right fuel fuel')).symm.trans
      (hrun _ (Nat.le_max_left fuel fuel'))
    exact congrArg Except.ok (Prod.mk.inj (Except.ok.inj (Prod.mk.inj hsame).1)).1
  · intro hvalue
    obtain ⟨q', hq', hlocals, _⟩ := evaluates_of_run hsited hat hn (hrun fuel (Nat.le_refl fuel))
    rw [Except.ok.inj hvalue]
    refine ⟨q', hq', ?_⟩
    rw [variableAt, hlocals]
    exact storeSlot_self _ _ _

variable {object : Expression} {property : String} {memberSpan : Span} {r : Point ν}
  {target : RuntimeValue ν}

theorem memberAssignment_run (hsize : irSize (lowerProgram program) ≤ 2 ^ 32)
    (h : Activation program host function start p)
    (hat : AtCode function p
      (expressionCode types (.assignment (.member object property memberSpan) operator right span)
        n).code)
    (hobject : Evaluates (compile (lowerProgram program)) host p q (expressionCode types object n)
      target)
    (hright : Evaluates (compile (lowerProgram program)) host q r
      (expressionCode types right (expressionCode types object n).next) value) :
    p.frame.values.length = n ∧ ∃ fuel, ∀ fuel', fuel ≤ fuel' →
      runExpression (slotOf (finalSlots function))
          (callFunction (compile (lowerProgram program)) host fuel')
          (.assignment (.member object property memberSpan) operator right span) p.frame.locals
          p.machine =
        (memberStoreRun target property operator value >>= fun stored =>
          pure (stored, r.frame.locals)) r.machine := by
  obtain ⟨offset, hsited⟩ := h.sited hsize
  obtain ⟨offset', hsited'⟩ := (h.tail hobject.within).sited hsize
  obtain ⟨hn, fuel, hfuel⟩ := run_of_evaluates hsited hat.left.left hobject
  have hat' : AtCode function q
      (expressionCode types right (expressionCode types object n).next).code :=
    hat.left.behind hobject.within hobject.behind
  obtain ⟨_, fuel', hfuel'⟩ := run_of_evaluates hsited' hat' hright
  refine ⟨hn, max fuel fuel', fun k hk => ?_⟩
  rw [runExpression, FailState.bind_ok (hfuel k (Nat.le_trans (Nat.le_max_left _ _) hk)),
    FailState.bind_ok (hfuel' k (Nat.le_trans (Nat.le_max_right _ _) hk))]

theorem memberStoreRun_ok {s t : Machine ν} (hcompound : operator ≠ .assign)
    (h : memberStoreRun target property operator value s = (.ok result, t)) :
    compounded operator s.heap (loadMember s.heap target property) value = .ok result := by
  rw [memberStoreRun_compound target property value hcompound] at h
  obtain ⟨current, s₁, hload, hthen⟩ := FailState.bind_eq_ok.mp h
  obtain ⟨hcurrent, rfl⟩ := Prod.mk.inj hload
  obtain ⟨result', s₂, hbinary, hstore⟩ := FailState.bind_eq_ok.mp hthen
  obtain ⟨hresult, rfl⟩ := Prod.mk.inj hbinary
  obtain ⟨_, s₃, _, hpure⟩ := FailState.bind_eq_ok.mp hstore
  cases hpure
  change loadMember s.heap target property = .ok current at hcurrent
  rw [compounded, hcurrent]
  exact hresult

theorem memberStoreRun_of_compounded {s : Machine ν} (hcompound : operator ≠ .assign)
    (h : compounded operator s.heap (loadMember s.heap target property) value = .ok result) :
    ∃ t, memberStoreRun target property operator value s = (.ok result, t) ∧
      loadMember t.heap target property = .ok result := by
  cases hload : loadMember s.heap target property with
  | error e =>
    rw [hload] at h
    cases h
  | ok current =>
    rw [hload] at h
    obtain ⟨stored, hstore, hread⟩ := storeMember_of_loadMember hload result
    refine ⟨{ s with heap := stored }, ?_, hread⟩
    have hcurrent : loadRun target property s = (.ok current, s) := congrArg (fun x => (x, s)) hload
    have hbinary : binaryRun (assignmentBinaryOp operator) current value s = (.ok result, s) :=
      congrArg (fun x => (x, s)) h
    rw [memberStoreRun_compound target property value hcompound, FailState.bind_ok hcurrent,
      FailState.bind_ok hbinary]
    change (FailState.lift (storeMember s.heap target property result) >>= setHeap >>=
      fun _ => pure result : Run ν (RuntimeValue ν)) s = _
    rw [hstore]
    rfl

/-- A compound assignment to a member reads the member behind its right-hand side, and so
    it stores what is meant only where the operator gives the same for what is then found. -/
theorem memberAssignment_iff (hsize : irSize (lowerProgram program) ≤ 2 ^ 32)
    (h : Activation program host function start p)
    (hat : AtCode function p
      (expressionCode types (.assignment (.member object property memberSpan) operator right span)
        n).code)
    (hcompound : operator ≠ .assign)
    (hobject : Evaluates (compile (lowerProgram program)) host p q (expressionCode types object n)
      target)
    (hright : Evaluates (compile (lowerProgram program)) host q r
      (expressionCode types right (expressionCode types object n).next) value)
    (hresult : compounded operator r.machine.heap (loadMember q.machine.heap target property) value =
      .ok result) :
    (∃ q', Evaluates (compile (lowerProgram program)) host p q'
          (expressionCode types (.assignment (.member object property memberSpan) operator right span)
            n) result ∧
        loadMember q'.machine.heap target property = .ok result) ↔
      compounded operator r.machine.heap (loadMember r.machine.heap target property) value =
        compounded operator r.machine.heap (loadMember q.machine.heap target property) value := by
  obtain ⟨offset, hsited⟩ := h.sited hsize
  obtain ⟨hn, fuel, hfuel⟩ := memberAssignment_run hsize h hat hobject hright
  rw [hresult]
  constructor
  · rintro ⟨q', hq', _⟩
    obtain ⟨_, fuel', hfuel'⟩ := run_of_evaluates hsited hat hq'
    have hsame := (hfuel _ (Nat.le_max_left fuel fuel')).symm.trans
      (hfuel' _ (Nat.le_max_right fuel fuel'))
    obtain ⟨stored, t, hstore, hpure⟩ := FailState.bind_eq_ok.mp hsame
    have hstored : stored = result := (Prod.mk.inj (Except.ok.inj (Prod.mk.inj hpure).1)).1
    rw [hstored] at hstore
    exact memberStoreRun_ok hcompound hstore
  · intro hsame
    obtain ⟨t, hstore, hread⟩ := memberStoreRun_of_compounded hcompound hsame
    have hrun := hfuel fuel (Nat.le_refl fuel)
    rw [FailState.bind_ok hstore] at hrun
    obtain ⟨q', hq', _, hmachine⟩ := evaluates_of_run hsited hat hn hrun
    refine ⟨q', hq', ?_⟩
    rw [hmachine]
    exact hread

end Assignments

def fiveExpression : Expression := .number "5" emptySpan

def console (argument : Expression) : Statement :=
  .expression (.call (.member (.identifier "console" emptySpan) "log" emptySpan) [argument] emptySpan)
    emptySpan

def addition : Expression :=
  .assignment (.identifier "x" emptySpan) .addAssign fiveExpression emptySpan

/-- `let x = initial; x += 5; console.log(x);` -/
def additionProgram (initial : String) : Ast.Program where
  body := [.variable ⟨.let, "x", none, some (.number initial emptySpan)⟩ emptySpan,
    .expression addition emptySpan, console (.identifier "x" emptySpan)]
  span := none

def additionModule (initial : String) : BytecodeModule := compile (lowerProgram (additionProgram initial))

def additionPoint (initial : String) (pc : ℕ) (locals values : List ℤ) : Point Int :=
  let compiled := (compileFunction (lowerProgram (additionProgram initial)).entry .new).1
  ⟨compiled, (compiled.blocks.head?).getD ⟨0, []⟩, pc, ⟨locals.map .number, values.map .number⟩, .new⟩

theorem zero_activation :
    Activation (additionProgram "0") .new (lowerProgram (additionProgram "0")).entry
      (additionPoint "0" 0 [] []) (additionPoint "0" 2 [0] [0]) :=
  (entry_activation rfl rfl [] .new).tail (within_of_run 2 0 rfl rfl rfl rfl)

theorem ten_activation :
    Activation (additionProgram "10") .new (lowerProgram (additionProgram "10")).entry
      (additionPoint "10" 0 [] []) (additionPoint "10" 2 [10] [10]) :=
  (entry_activation rfl rfl [] .new).tail (within_of_run 2 0 rfl rfl rfl rfl)

theorem zero_addition :
    ∃ q, Evaluates (additionModule "0") .new (additionPoint "0" 2 [0] [0]) q
        (expressionCode [("x", .number)] addition 1) (.number 5) ∧
      variableAt (lowerProgram (additionProgram "0")).entry q "x" = some (.number 5) := by
  have hright : Evaluates (additionModule "0") .new (additionPoint "0" 2 [0] [0])
      (additionPoint "0" 3 [0] [0, 5]) (expressionCode [("x", .number)] fiveExpression 1)
      (.number 5) := ⟨within_of_run 1 0 rfl rfl rfl rfl, rfl, rfl⟩
  exact (variableAssignment_iff (by decide) zero_activation ⟨_, rfl⟩ hright rfl).mpr rfl

/-- `let x = 10; x += 5; console.log(x);` prints 5. -/
theorem ten_addition :
    (analyzeProgram .listed (additionProgram "10") .new).diagnostics.isEmpty = true ∧
      verifyModule (additionModule "10") = .ok () ∧
      Activation (additionProgram "10") .new (lowerProgram (additionProgram "10")).entry
        (additionPoint "10" 0 [] []) (additionPoint "10" 2 [10] [10]) ∧
      AtCode (lowerProgram (additionProgram "10")).entry (additionPoint "10" 2 [10] [10])
        (expressionCode [("x", .number)] addition 1).code ∧
      variableAt (lowerProgram (additionProgram "10")).entry (additionPoint "10" 2 [10] [10]) "x" =
        some (.number 10) ∧
      (¬ ∃ q, Evaluates (additionModule "10") .new (additionPoint "10" 2 [10] [10]) q
        (expressionCode [("x", .number)] addition 1) (.number 15)) ∧
      (callFunction (additionModule "10") (.new : HostEnvironment Int) 2 "__entry" [] .new).2.console =
        [.number 5] := by
  have hat : AtCode (lowerProgram (additionProgram "10")).entry (additionPoint "10" 2 [10] [10])
    (expressionCode [("x", .number)] addition 1).code := ⟨_, rfl⟩
  refine ⟨by decide +kernel, by decide +kernel, ten_activation, hat, rfl, ?_, rfl⟩
  rintro ⟨q, hq⟩
  obtain ⟨offset, hsited⟩ := ten_activation.sited (by decide)
  obtain ⟨_, fuel, hfuel⟩ := run_of_evaluates hsited hat hq
  have hrun := hfuel fuel (Nat.le_refl fuel)
  cases hrun

def member : Expression := .member (.identifier "o" emptySpan) "p" emptySpan

def memberAddition (right : Expression) : Expression := .assignment member .addAssign right emptySpan

def fiveStored : Expression := .assignment member .assign fiveExpression emptySpan

/-- `let o = { p: 1 }; o.p += right; console.log(o.p);` -/
def memberProgram (right : Expression) : Ast.Program where
  body := [
    .variable ⟨.let, "o", none,
      some (.object [.mk "p" (.number "1" emptySpan) emptySpan] emptySpan)⟩ emptySpan,
    .expression (memberAddition right) emptySpan, console member]
  span := none

def memberModule (right : Expression) : BytecodeModule := compile (lowerProgram (memberProgram right))

def memberTypes : List (String × IrType) := [("o", .object [("p", .number)])]

def machineWith (fields : Std.TreeMap String (RuntimeValue Int)) : Machine Int :=
  { (.new : Machine Int) with heap := ⟨[⟨0, some (.object fields)⟩], [], 1⟩ }

def memberPoint (right : Expression) (pc : ℕ) (values : List (RuntimeValue Int))
    (fields : Std.TreeMap String (RuntimeValue Int)) : Point Int :=
  let compiled := (compileFunction (lowerProgram (memberProgram right)).entry .new).1
  ⟨compiled, (compiled.blocks.head?).getD ⟨0, []⟩, pc, ⟨[.object ⟨0, 0⟩], .number 1 :: values⟩,
    machineWith fields⟩

def memberStart (right : Expression) : Point Int :=
  let compiled := (compileFunction (lowerProgram (memberProgram right)).entry .new).1
  entry compiled ((compiled.blocks.head?).getD ⟨0, []⟩) [] .new

def oneStored : Std.TreeMap String (RuntimeValue Int) := Std.TreeMap.insert ∅ "p" (.number 1)

def fiveStoredBehind : Std.TreeMap String (RuntimeValue Int) := oneStored.insert "p" (.number 5)

def only : RuntimeValue Int := .object ⟨0, 0⟩

theorem five_activation :
    Activation (memberProgram fiveExpression) .new (lowerProgram (memberProgram fiveExpression)).entry
      (memberStart fiveExpression) (memberPoint fiveExpression 3 [only] oneStored) :=
  (entry_activation rfl rfl [] .new).tail (within_of_run 3 0 rfl rfl rfl rfl)

theorem fiveStored_activation :
    Activation (memberProgram fiveStored) .new (lowerProgram (memberProgram fiveStored)).entry
      (memberStart fiveStored) (memberPoint fiveStored 3 [only] oneStored) :=
  (entry_activation rfl rfl [] .new).tail (within_of_run 3 0 rfl rfl rfl rfl)

/-- With 1 in the member, `o.p += 5` stores 6. -/
theorem five_addition :
    ∃ q, Evaluates (memberModule fiveExpression) .new (memberPoint fiveExpression 3 [only] oneStored) q
        (expressionCode memberTypes (memberAddition fiveExpression) 2) (.number 6) ∧
      loadMember q.machine.heap only "p" = .ok (.number 6) := by
  have hobject : Evaluates (memberModule fiveExpression) .new
      (memberPoint fiveExpression 3 [only] oneStored)
      (memberPoint fiveExpression 4 [only, only] oneStored)
      (expressionCode memberTypes (.identifier "o" emptySpan) 2) only :=
    ⟨within_of_run 1 0 rfl rfl rfl rfl, rfl, rfl⟩
  have hright : Evaluates (memberModule fiveExpression) .new
      (memberPoint fiveExpression 4 [only, only] oneStored)
      (memberPoint fiveExpression 5 [only, only, .number 5] oneStored)
      (expressionCode memberTypes fiveExpression 3) (.number 5) :=
    ⟨within_of_run 1 0 rfl rfl rfl rfl, rfl, rfl⟩
  exact (memberAssignment_iff (by decide) five_activation ⟨_, rfl⟩ (fun h => by cases h) hobject hright
    rfl).mpr rfl

/-- `let o = { p: 1 }; o.p += (o.p = 5); console.log(o.p);` prints 10. -/
theorem fiveStored_addition :
    (analyzeProgram .listed (memberProgram fiveStored) .new).diagnostics.isEmpty = true ∧
      verifyModule (memberModule fiveStored) = .ok () ∧
      Activation (memberProgram fiveStored) .new (lowerProgram (memberProgram fiveStored)).entry
        (memberStart fiveStored) (memberPoint fiveStored 3 [only] oneStored) ∧
      AtCode (lowerProgram (memberProgram fiveStored)).entry
        (memberPoint fiveStored 3 [only] oneStored)
        (expressionCode memberTypes (memberAddition fiveStored) 2).code ∧
      loadMember (memberPoint fiveStored 3 [only] oneStored).machine.heap only "p" = .ok (.number 1) ∧
      Evaluates (memberModule fiveStored) .new (memberPoint fiveStored 3 [only] oneStored)
        (memberPoint fiveStored 4 [only, only] oneStored)
        (expressionCode memberTypes (.identifier "o" emptySpan) 2) only ∧
      Evaluates (memberModule fiveStored) .new (memberPoint fiveStored 4 [only, only] oneStored)
        (memberPoint fiveStored 7 [only, only, only, .number 5] fiveStoredBehind)
        (expressionCode memberTypes fiveStored 3) (.number 5) ∧
      (¬ ∃ q, Evaluates (memberModule fiveStored) .new (memberPoint fiveStored 3 [only] oneStored) q
          (expressionCode memberTypes (memberAddition fiveStored) 2) (.number 6) ∧
        loadMember q.machine.heap only "p" = .ok (.number 6)) ∧
      (callFunction (memberModule fiveStored) (.new : HostEnvironment Int) 2 "__entry" [] .new).2.console =
        [.number 10] := by
  have hat : AtCode (lowerProgram (memberProgram fiveStored)).entry
    (memberPoint fiveStored 3 [only] oneStored)
    (expressionCode memberTypes (memberAddition fiveStored) 2).code := ⟨_, rfl⟩
  have hobject : Evaluates (memberModule fiveStored) .new (memberPoint fiveStored 3 [only] oneStored)
      (memberPoint fiveStored 4 [only, only] oneStored)
      (expressionCode memberTypes (.identifier "o" emptySpan) 2) only :=
    ⟨within_of_run 1 0 rfl rfl rfl rfl, rfl, rfl⟩
  have hright : Evaluates (memberModule fiveStored) .new
      (memberPoint fiveStored 4 [only, only] oneStored)
      (memberPoint fiveStored 7 [only, only, only, .number 5] fiveStoredBehind)
      (expressionCode memberTypes fiveStored 3) (.number 5) :=
    ⟨within_of_run 3 0 rfl rfl rfl rfl, rfl, rfl⟩
  refine ⟨by decide +kernel, by decide +kernel, fiveStored_activation, hat, rfl, hobject, hright, ?_,
    rfl⟩
  rintro ⟨q, hq, _⟩
  obtain ⟨offset, hsited⟩ := fiveStored_activation.sited (by decide)
  obtain ⟨_, fuel, hfuel⟩ := run_of_evaluates hsited hat hq
  obtain ⟨_, fuel', hfuel'⟩ := memberAssignment_run (by decide) fiveStored_activation hat hobject hright
  have hsame := (hfuel' _ (Nat.le_max_right fuel fuel')).symm.trans
    (hfuel _ (Nat.le_max_left fuel fuel'))
  cases hsame

end Tsvm.CompoundAssignments
