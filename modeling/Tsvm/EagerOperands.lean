import Tsvm.ActivationPoints

set_option autoImplicit false

/-!
# Eager operands

The operators `&&`, `||` and `??` are lowered like the others: the code of the right
operand comes behind that of the left one, whose value does not matter for it.
-/
namespace Tsvm.EagerOperands
open Ast Bytecode BytecodeVerifier Interop Ir Lowering Compilation RuntimeValues Interpreter
  InterpreterSteps Semantic
open LoweringCode CompiledOperands CompiledValues FunctionSlots ExpressionRuns ActivationPoints
  VerifiedValues

variable {ν : Type}

def required [F64 ν] (operator : BinaryOperator) (left : RuntimeValue ν) : Bool :=
  match operator with
  | .logicalAnd => truthy left
  | .logicalOr => !truthy left
  | .nullishCoalesce => isNullish left
  | _ => true

mutual

def effectful : Expression → Bool
  | .identifier _ _ | .number _ _ | .string _ _ | .boolean _ _ | .null _ | .undefined _
  | .error _ => false
  | .object properties _ => effectfulProperties properties
  | .array elements _ => effectfulExpressions elements
  | .member object _ _ => effectful object
  | .call _ _ _ => true
  | .binary left _ right _ => effectful left || effectful right
  | .assignment left _ right _ =>
    match left with
    | .identifier _ _ | .member _ _ _ => true
    | _ => effectful right
  | .unary _ argument _ => effectful argument

def effectfulExpressions : List Expression → Bool
  | [] => false
  | expression :: expressions => effectful expression || effectfulExpressions expressions

def effectfulProperties : List ObjectProperty → Bool
  | [] => false
  | .mk _ value _ :: properties => effectful value || effectfulProperties properties

end

def affecting : IrInstructionKind → Bool
  | .call _ _ | .storeLocal _ _ | .storeMember _ _ _ => true
  | _ => false

def affectingCode (code : List IrInstruction) : Bool := code.any fun i => affecting i.kind

def affectingOpcode : Opcode → Bool
  | .call | .storeLocal | .storeMember => true
  | _ => false

section Code

variable (types : List (String × IrType))

theorem affectingCode_append (first second : List IrInstruction) :
    affectingCode (first ++ second) = (affectingCode first || affectingCode second) :=
  List.any_append

theorem memberStoreCode_affecting (object : ValueId) (property : String)
    (operator : AssignmentOperator) (right : Lowered) (leftSpan span : Span) :
    affectingCode (memberStoreCode object property operator right leftSpan span).1 = true := by
  cases operator with
  | _ => rfl

mutual

theorem expressionCode_affecting (expression : Expression) (n : ℕ) :
    affectingCode (expressionCode types expression n).code = effectful expression := by
  cases expression with
  | identifier name span | number value span | string value span | boolean value span | null span
  | undefined span | error span => rfl
  | object properties span =>
    exact (affectingCode_append _ _).trans
      ((Bool.or_false _).trans (propertiesCode_affecting properties n))
  | array elements span =>
    exact (affectingCode_append _ _).trans
      ((Bool.or_false _).trans (expressionsCode_affecting elements n))
  | member object property span =>
    exact (affectingCode_append _ _).trans ((Bool.or_false _).trans (expressionCode_affecting object n))
  | call callee arguments span => exact (affectingCode_append _ _).trans (Bool.or_true _)
  | binary left operator right span =>
    have hleft := expressionCode_affecting left n
    have hright := expressionCode_affecting right (expressionCode types left n).next
    change affectingCode ((_ ++ _) ++ [_]) = (effectful left || effectful right)
    rw [affectingCode_append, affectingCode_append, hleft, hright]
    exact Bool.or_false _
  | assignment left operator right span =>
    cases left with
    | identifier name nameSpan => exact (affectingCode_append _ _).trans (Bool.or_true _)
    | member object property memberSpan =>
      have hstore := memberStoreCode_affecting (expressionCode types object n).value property operator
        (expressionCode types right (expressionCode types object n).next) memberSpan span
      exact (affectingCode_append _ _).trans
        ((congrArg (fun found => _ || found) hstore).trans (Bool.or_true _))
    | _ => exact expressionCode_affecting right n
  | unary operator argument span => exact expressionCode_affecting argument n

theorem expressionsCode_affecting (expressions : List Expression) (n : ℕ) :
    affectingCode (expressionsCode types expressions n).1 = effectfulExpressions expressions := by
  cases expressions with
  | nil => rfl
  | cons expression expressions =>
    change affectingCode (_ ++ _) = _
    rw [affectingCode_append, expressionCode_affecting expression n,
      expressionsCode_affecting expressions _]
    rfl

theorem propertiesCode_affecting (properties : List ObjectProperty) (n : ℕ) :
    affectingCode (propertiesCode types properties n).1 = effectfulProperties properties := by
  cases properties with
  | nil => rfl
  | cons property properties =>
    obtain ⟨name, value, span⟩ := property
    change affectingCode (_ ++ _) = _
    rw [affectingCode_append, expressionCode_affecting value n, propertiesCode_affecting properties _]
    rfl

end

end Code

section Effects

variable [F64 ν] (m : BytecodeModule) (host : HostEnvironment ν)

/-- A call or an assignment is made, or the instruction fails. -/
def Affects (p : Point ν) : Prop :=
  (∃ instruction, p.instruction = some instruction ∧ affectingOpcode instruction.opcode = true) ∨
    ∃ e, Fails m host p e

/-- An effect happens in the execution of this code from `p`. -/
def Happens (p : Point ν) (code : List IrInstruction) : Prop :=
  ∃ q, Within m host p q ∧ q.pc < p.pc + code.length ∧ Affects m host q

/-- The evaluation would make no call and no assignment and would not fail. -/
def Effectless (function : IrFunction) (p : Point ν) (expression : Expression) : Prop :=
  effectful expression = false ∧ ∃ fuel result machine,
    runExpression (slotOf (finalSlots function)) (callFunction m host fuel) expression p.frame.locals
      p.machine = (.ok result, machine)

variable {m host} {function : IrFunction} {offset : ℕ → ℕ} {p q : Point ν}

omit [F64 ν] in
theorem Refers.affecting {slots : LocalSlots} {kind : IrInstructionKind} {opcode : Opcode}
    {operands : List UInt32} (h : Refers m slots kind opcode operands) :
    affectingOpcode opcode = EagerOperands.affecting kind := by
  cases h with
  | _ => rfl

omit [F64 ν] in
theorem affectingOpcode_eq {final : LocalSlots} {i : IrInstruction} {instruction : Instruction}
    (h : Allotted m final i instruction) :
    affectingOpcode instruction.opcode = affecting i.kind := by
  obtain ⟨slots, _, hrefers⟩ := h.refers
  exact Refers.affecting hrefers

omit [F64 ν] in
theorem ne_call_of_affectingOpcode {opcode : Opcode} (h : affectingOpcode opcode = false) :
    opcode ≠ .call := by
  intro hcall
  rw [hcall] at h
  cases h

theorem next_or_fails {instruction : Instruction} (hi : p.instruction = some instruction)
    (haffecting : affectingOpcode instruction.opcode = false)
    (hterminator : isTerminator instruction.opcode = false) :
    (∃ q, Next m host p q) ∨ ∃ e, Fails m host p e := by
  have hcall := ne_call_of_affectingOpcode haffecting
  cases hexec : executeInstruction m (callFunction m host 0) instruction p.frame p.machine with
  | mk result machine =>
    cases result with
    | error e =>
      rw [executeInstruction_of_ne_call hcall] at hexec
      exact .inr ⟨e, .instruction hi (congrArg Prod.fst hexec)⟩
    | ok result =>
      obtain ⟨flow, frame⟩ := result
      cases executeInstruction_effect hexec with
      | push _ value => exact .inl ⟨_, _, _, ⟨instruction, 0, hi, hexec⟩, rfl⟩
      | storeLocal _ _ value => exact .inl ⟨_, _, _, ⟨instruction, 0, hi, hexec⟩, rfl⟩
      | storeMember _ => exact .inl ⟨_, _, _, ⟨instruction, 0, hi, hexec⟩, rfl⟩
      | branch hop | jump hop | «return» hop =>
        rw [hop] at hterminator
        cases hterminator

theorem not_fails_of_next {instruction : Instruction} (hi : p.instruction = some instruction)
    (haffecting : affectingOpcode instruction.opcode = false) (hnext : Next m host p q) {e : Stop} :
    ¬ Fails m host p e := by
  have hcall := ne_call_of_affectingOpcode haffecting
  obtain ⟨frame, machine, hexecutes, _⟩ := hnext
  intro hfails
  cases hfails with
  | instruction hi' herror =>
    obtain ⟨instruction', fuel, hi'', hexec⟩ := hexecutes
    rw [hi] at hi' hi''
    cases hi'
    cases hi''
    have hsame : executeInstruction m (fun _ _ => pure .undefined) instruction p.frame =
      executeInstruction m (callFunction m host fuel) instruction p.frame :=
        executeInstruction_of_ne_call hcall
    rw [hsame, hexec] at herror
    cases herror
  | call hcalls _ =>
    obtain ⟨instruction', hi', hop, _⟩ := hcalls
    rw [hi] at hi'
    cases hi'
    exact hcall hop
  | jump hjump _ => cases (executes_unique hexecutes hjump).1

theorem within_of_not_happens {code : List IrInstruction} (hsited : Sited m function offset p)
    (hat : AtCode function p code) (hplain : Plain code) (hnone : ¬ Happens m host p code) (k : ℕ)
    (hk : k ≤ code.length) : ∃ q, Within m host p q ∧ q.pc = p.pc + k := by
  induction k with
  | zero => exact ⟨p, .refl, rfl⟩
  | succ k ih =>
    obtain ⟨q, hwithin, hpc⟩ := ih (by omega)
    obtain ⟨instruction, hi, hallotted⟩ := hat.instruction hsited hwithin.same.2 hpc (by omega)
    have hlt : q.pc < p.pc + code.length := by omega
    have haffecting : affectingOpcode instruction.opcode = false := by
      by_contra htrue
      exact hnone ⟨q, hwithin, hlt, .inl ⟨instruction, hi, by simpa using htrue⟩⟩
    obtain ⟨slots, _, hrefers⟩ := hallotted.refers
    have hterminator : isTerminator instruction.opcode = false :=
      hrefers.isTerminator.trans (hplain _ (List.getElem_mem (by omega)))
    cases next_or_fails hi haffecting hterminator with
    | inl hnext =>
      obtain ⟨r, hnext⟩ := hnext
      exact ⟨r, hwithin.tail hnext, by rw [next_pc hnext, hpc]; rfl⟩
    | inr hfails => exact absurd ⟨q, hwithin, hlt, .inr hfails⟩ hnone

/-- The effects of an expression happen as soon as its code is executed. -/
theorem happens_iff (hsited : Sited m function offset p) {types : List (String × IrType)}
    {expression : Expression} {n : ℕ}
    (hat : AtCode function p (expressionCode types expression n).code)
    (hn : p.frame.values.length = n) :
    Happens m host p (expressionCode types expression n).code ↔
      ¬ Effectless m host function p expression := by
  have hcode := expressionCode_affecting types expression n
  constructor
  · rintro ⟨q, hwithin, hlt, haffects⟩ ⟨heffectful, fuel, ⟨value, locals⟩, machine, hrun⟩
    obtain ⟨behind, hbehind, _⟩ := evaluates_of_run hsited hat hn hrun
    obtain ⟨r, hnext⟩ := within_next hbehind.within hwithin (by rw [hbehind.behind]; exact hlt)
    have hle := within_pc hwithin
    obtain ⟨instruction, hi, hallotted⟩ := hat.instruction hsited hwithin.same.2
      (k := q.pc - p.pc) (by omega) (by omega)
    have haffecting : affectingOpcode instruction.opcode = false := by
      rw [affectingOpcode_eq hallotted]
      rw [heffectful, affectingCode, List.any_eq_false] at hcode
      simpa using hcode _ (List.getElem_mem (by omega))
    cases haffects with
    | inl hopcode =>
      obtain ⟨instruction', hi', htrue⟩ := hopcode
      rw [hi] at hi'
      cases hi'
      rw [haffecting] at htrue
      cases htrue
    | inr hfails =>
      obtain ⟨e, hfails⟩ := hfails
      exact not_fails_of_next hi haffecting hnext hfails
  · intro heffects
    by_contra hnone
    have hplain := (expressionCode_wellNumbered types expression n).plain
    have hreach := within_of_not_happens hsited hat hplain hnone
    obtain ⟨q, hwithin, hpc⟩ := hreach _ (Nat.le_refl _)
    obtain ⟨value, _, fuel, hfuel⟩ := run_of_within hsited hat hn hwithin hpc
    refine heffects ⟨?_, fuel, _, _, hfuel fuel (Nat.le_refl fuel)⟩
    rw [← hcode, affectingCode, List.any_eq_false]
    intro i hi htrue
    obtain ⟨k, hk, rfl⟩ := List.getElem_of_mem hi
    obtain ⟨r, hwithin', hpc'⟩ := hreach k (by omega)
    obtain ⟨instruction, hinstruction, hallotted⟩ :=
      hat.instruction hsited hwithin'.same.2 hpc' hk
    exact hnone ⟨r, hwithin', by omega, .inl ⟨instruction, hinstruction,
      (affectingOpcode_eq hallotted).trans htrue⟩⟩

end Effects

section Operands

variable [F64 ν] {program : Program} {host : HostEnvironment ν} {function : IrFunction}
  {start p q : Point ν}

/-- The effects of the right operand happen exactly when the left one requires it, if and
    only if it does require it or there are no effects. -/
theorem rightOperand_iff (hsize : irSize (lowerProgram program) ≤ 2 ^ 32)
    (h : Activation program host function start p) {types : List (String × IrType)}
    {left right : Expression} {operator : BinaryOperator} {span : Span} {n : ℕ}
    (hat : AtCode function p (expressionCode types (.binary left operator right span) n).code)
    {value : RuntimeValue ν}
    (hleft : Evaluates (compile (lowerProgram program)) host p q (expressionCode types left n)
      value) :
    (Happens (compile (lowerProgram program)) host q
        (expressionCode types right (expressionCode types left n).next).code ↔
      required operator value = true ∧
        ¬ Effectless (compile (lowerProgram program)) host function q right) ↔
    required operator value = true ∨
      Effectless (compile (lowerProgram program)) host function q right := by
  obtain ⟨offset, hsited⟩ := h.sited hsize
  obtain ⟨offset', hsited'⟩ := (h.tail hleft.within).sited hsize
  have hat' : AtCode function q
      (expressionCode types right (expressionCode types left n).next).code :=
    hat.left.behind hleft.within hleft.behind
  have hlength := Evaluates.length hsited hat.left.left hleft
  rw [happens_iff hsited' hat' hlength]
  by_cases hrequired : required operator value = true
  · simp only [hrequired, true_and, true_or]
  · simp only [hrequired, false_and, iff_false, not_not, false_or, Bool.false_eq_true]

end Operands

def flag : Expression := .identifier "x" emptySpan

def raising : Expression := .assignment flag .assign (.boolean true emptySpan) emptySpan

def guarded (left : Bool) : Expression :=
  .binary (.boolean left emptySpan) .logicalAnd raising emptySpan

/-- `let x = false; left && (x = true); console.log(x);` -/
def guardedProgram (left : Bool) : Ast.Program where
  body := [.variable ⟨.let, "x", none, some (.boolean false emptySpan)⟩ emptySpan,
    .expression (guarded left) emptySpan,
    .expression (.call (.member (.identifier "console" emptySpan) "log" emptySpan) [flag] emptySpan)
      emptySpan]
  span := none

def guardedModule (left : Bool) : BytecodeModule := compile (lowerProgram (guardedProgram left))

def guardedTypes : List (String × IrType) := [("x", .boolean)]

def guardedPoint (left : Bool) (pc : ℕ) (locals values : List Bool) : Point Int :=
  let compiled := (compileFunction (lowerProgram (guardedProgram left)).entry .new).1
  ⟨compiled, (compiled.blocks.head?).getD ⟨0, []⟩, pc, ⟨locals.map .boolean, values.map .boolean⟩, .new⟩

theorem guarded_activation (left : Bool) :
    Activation (guardedProgram left) .new (lowerProgram (guardedProgram left)).entry
      (guardedPoint left 0 [] []) (guardedPoint left 2 [false] [false]) := by
  cases left with
  | false => exact (entry_activation rfl rfl [] .new).tail (within_of_run 2 0 rfl rfl rfl rfl)
  | true => exact (entry_activation rfl rfl [] .new).tail (within_of_run 2 0 rfl rfl rfl rfl)

theorem guarded_left (left : Bool) :
    Evaluates (guardedModule left) .new (guardedPoint left 2 [false] [false])
      (guardedPoint left 3 [false] [false, left])
      (expressionCode guardedTypes (.boolean left emptySpan) 1) (.boolean left) := by
  cases left with
  | false => exact ⟨within_of_run 1 0 rfl rfl rfl rfl, rfl, rfl⟩
  | true => exact ⟨within_of_run 1 0 rfl rfl rfl rfl, rfl, rfl⟩

theorem guarded_true :
    Happens (guardedModule true) .new (guardedPoint true 3 [false] [false, true])
        (expressionCode guardedTypes raising 2).code ↔
      required .logicalAnd (.boolean true : RuntimeValue Int) = true ∧
        ¬ Effectless (guardedModule true) .new (lowerProgram (guardedProgram true)).entry
          (guardedPoint true 3 [false] [false, true]) raising := by
  have hat : AtCode (lowerProgram (guardedProgram true)).entry (guardedPoint true 2 [false] [false])
    (expressionCode guardedTypes (guarded true) 1).code := ⟨_, rfl⟩
  exact (rightOperand_iff (by decide) (guarded_activation true) hat (guarded_left true)).mpr (.inl rfl)

/-- `let x = false; false && (x = true); console.log(x);` prints `true`. -/
theorem guarded_false :
    (analyzeProgram .listed (guardedProgram false) .new).diagnostics.isEmpty = true ∧
      verifyModule (guardedModule false) = .ok () ∧
      Activation (guardedProgram false) .new (lowerProgram (guardedProgram false)).entry
        (guardedPoint false 0 [] []) (guardedPoint false 2 [false] [false]) ∧
      AtCode (lowerProgram (guardedProgram false)).entry (guardedPoint false 2 [false] [false])
        (expressionCode guardedTypes (guarded false) 1).code ∧
      Evaluates (guardedModule false) .new (guardedPoint false 2 [false] [false])
        (guardedPoint false 3 [false] [false, false])
        (expressionCode guardedTypes (.boolean false emptySpan) 1) (.boolean false) ∧
      required .logicalAnd (.boolean false : RuntimeValue Int) = false ∧
      Happens (guardedModule false) .new (guardedPoint false 3 [false] [false, false])
        (expressionCode guardedTypes raising 2).code ∧
      (callFunction (guardedModule false) (.new : HostEnvironment Int) 2 "__entry" [] .new).2.console =
        [.boolean true] := by
  refine ⟨by decide +kernel, by decide +kernel, guarded_activation false, ⟨_, rfl⟩, guarded_left false,
    rfl, ?_, rfl⟩
  exact ⟨guardedPoint false 4 [false] [false, false, true], within_of_run 1 0 rfl rfl rfl rfl,
    by decide, .inl ⟨_, rfl, rfl⟩⟩

end Tsvm.EagerOperands
