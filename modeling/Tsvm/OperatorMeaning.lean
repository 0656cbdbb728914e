import Tsvm.ActivationPoints

set_option autoImplicit false

/-!
# The meaning of operators

`meaning` gives the operators of expressions without effects their usual meaning.
The code of an expression computes the meaning of its `reading`: unary operators
are left out, and `==` is read as `===`.
-/
namespace Tsvm.OperatorMeaning
open Ast Bytecode BytecodeVerifier Interop Ir Lowering Semantic Compilation RuntimeValues Interpreter
  InterpreterSteps
open LoweringCode CompiledOperands CompiledValues FunctionSlots ExpressionRuns ActivationPoints

variable {ν : Type}

def strict : BinaryOperator → Bool
  | .logicalAnd | .logicalOr | .nullishCoalesce => false
  | _ => true

def relational : BinaryOperator → Bool
  | .less | .lessEqual | .greater | .greaterEqual => true
  | _ => false

/-- Literals and variables under unary, arithmetic and comparison operators. -/
def arithmetical : Expression → Bool
  | .identifier _ _ | .number _ _ | .string _ _ | .boolean _ _ | .null _ | .undefined _ => true
  | .unary _ argument _ => arithmetical argument
  | .binary left operator right _ => strict operator && arithmetical left && arithmetical right
  | _ => false

def isText : RuntimeValue ν → Bool
  | .string _ => true
  | _ => false

section Values

variable [F64 ν]

def sameKind : RuntimeValue ν → RuntimeValue ν → Bool
  | .number _, .number _ | .string _, .string _ | .boolean _, .boolean _ | .null, .null
  | .undefined, .undefined | .object _, .object _ | .array _, .array _ => true
  | _, _ => false

/-- `==` takes null and undefined for the same. Values of two other kinds are not to be
    compared with it. -/
def looselyEqual (left right : RuntimeValue ν) : Option Bool :=
  if isNullish left || isNullish right then some (isNullish left && isNullish right)
  else if sameKind left right then some (equal left right) else none

def plus (heap : Store ν) : RuntimeValue ν → RuntimeValue ν → Option (RuntimeValue ν)
  | .string left, right => (display heap right).toOption.map fun text => .string (left ++ text)
  | left, .string right => (display heap left).toOption.map fun text => .string (text ++ right)
  | .number left, .number right => some (.number (F64.add left right))
  | _, _ => none

def numeric (op : ν → ν → ν) : RuntimeValue ν → RuntimeValue ν → Option (RuntimeValue ν)
  | .number left, .number right => some (.number (op left right))
  | _, _ => none

def ordered (op : ν → ν → Bool) (textOp : String → String → Bool) :
    RuntimeValue ν → RuntimeValue ν → Option (RuntimeValue ν)
  | .number left, .number right => some (.boolean (op left right))
  | .string left, .string right => some (.boolean (textOp left right))
  | _, _ => none

def operate (heap : Store ν) (operator : BinaryOperator) (left right : RuntimeValue ν) :
    Option (RuntimeValue ν) :=
  match operator with
  | .add => plus heap left right
  | .subtract => numeric F64.sub left right
  | .multiply => numeric F64.mul left right
  | .divide => numeric F64.div left right
  | .remainder => numeric F64.rem left right
  | .strictEqual => some (.boolean (equal left right))
  | .strictNotEqual => some (.boolean (!equal left right))
  | .equal => (looselyEqual left right).map .boolean
  | .notEqual => (looselyEqual left right).map fun same => .boolean (!same)
  | .less => ordered F64.lt (fun a b => decide (a < b)) left right
  | .lessEqual => ordered F64.le (fun a b => decide (a ≤ b)) left right
  | .greater => ordered F64.gt (fun a b => decide (b < a)) left right
  | .greaterEqual => ordered F64.ge (fun a b => decide (b ≤ a)) left right
  | .logicalAnd | .logicalOr | .nullishCoalesce => none

/-- The machine has no negation of numbers, so the one that is meant is a parameter. -/
def applyUnary (negate : ν → ν) : UnaryOperator → RuntimeValue ν → Option (RuntimeValue ν)
  | .negate, .number value => some (.number (negate value))
  | .negate, _ => none
  | .not, value => some (.boolean (!truthy value))

variable (negate : ν → ν) (heap : Store ν) (valueOf : String → Option (RuntimeValue ν))

def meaning : Expression → Option (RuntimeValue ν)
  | .identifier name _ => valueOf name
  | .number value _ => (F64.parse value).toOption.map .number
  | .string value _ => some (.string value)
  | .boolean value _ => some (.boolean value)
  | .null _ => some .null
  | .undefined _ => some .undefined
  | .unary operator argument _ => do
    let value ← meaning argument
    applyUnary negate operator value
  | .binary left operator right _ => do
    let leftValue ← meaning left
    let rightValue ← meaning right
    operate heap operator leftValue rightValue
  | _ => none

/-- Somewhere `<`, `<=`, `>` or `>=` has a text on its left side. -/
def ordersText : Expression → Bool
  | .unary _ argument _ => ordersText argument
  | .binary left operator right _ =>
    ordersText left || ordersText right ||
      (relational operator && (meaning negate heap valueOf left).any isText)
  | _ => false

end Values

def strictly : BinaryOperator → BinaryOperator
  | .equal => .strictEqual
  | .notEqual => .strictNotEqual
  | operator => operator

def reading : Expression → Expression
  | .unary _ argument _ => reading argument
  | .binary left operator right span => .binary (reading left) (strictly operator) (reading right) span
  | expression => expression

section Operators

variable [F64 ν] {heap : Store ν} {left right value : RuntimeValue ν}

theorem toOption_eq_some {α ε : Type} {x : Except ε α} {a : α} : x.toOption = some a ↔ x = .ok a := by
  cases x with
  | error e => exact ⟨fun h => (by cases h), fun h => (by cases h)⟩
  | ok found => exact ⟨fun h => (by cases h; rfl), fun h => (by cases h; rfl)⟩

theorem toOption_map {α β ε : Type} (x : Except ε α) (f : α → β) :
    (x >>= fun a => pure (f a)).toOption = x.toOption.map f := by
  cases x with
  | error e => rfl
  | ok a => rfl

theorem add_toOption (heap : Store ν) (left right : RuntimeValue ν) :
    (add heap left right).toOption = plus heap left right := by
  cases left with
  | string left => exact toOption_map _ _
  | _ =>
    cases right with
    | string right => exact toOption_map _ _
    | _ => rfl

omit [F64 ν] in
theorem arithmetic_toOption (op : ν → ν → ν) (left right : RuntimeValue ν) :
    (arithmetic op left right).toOption = numeric op left right := by
  cases left with
  | number left => cases right <;> rfl
  | _ => rfl

omit [F64 ν] in
theorem comparison_ok_iff {op : ν → ν → Bool} (textOp : String → String → Bool) :
    comparison op left right = .ok value ↔
      ordered op textOp left right = some value ∧ isText left = false := by
  rw [← toOption_eq_some]
  cases left with
  | number left =>
    cases right with
    | _ => exact (and_iff_left rfl).symm
  | string left => exact ⟨fun h => (by cases h), fun h => (by cases h.2)⟩
  | _ => exact ⟨fun h => (by cases h), fun h => (by cases h.1)⟩

theorem binary_toOption {operator : BinaryOperator} (hstrict : strict operator = true)
    (hrelational : relational operator = false) (heap : Store ν) (left right : RuntimeValue ν) :
    (binary (binaryOpCode (binaryOp operator)) heap left right).toOption =
      operate heap (strictly operator) left right := by
  cases operator with
  | logicalAnd | logicalOr | nullishCoalesce => cases hstrict
  | less | lessEqual | greater | greaterEqual => cases hrelational
  | add => exact add_toOption heap left right
  | subtract | multiply | divide | remainder => exact arithmetic_toOption _ left right
  | equal | strictEqual | notEqual | strictNotEqual => rfl

theorem binary_ok_iff {operator : BinaryOperator} (hstrict : strict operator = true) :
    binary (binaryOpCode (binaryOp operator)) heap left right = .ok value ↔
      operate heap (strictly operator) left right = some value ∧
        (relational operator && isText left) = false := by
  by_cases hrelational : relational operator = true
  · cases operator with
    | less | lessEqual | greater | greaterEqual => exact comparison_ok_iff _
    | _ => cases hrelational
  · rw [Bool.not_eq_true] at hrelational
    rw [← toOption_eq_some, binary_toOption hstrict hrelational, hrelational, Bool.false_and,
      and_iff_left rfl]

theorem binaryRun_ok_iff {operator : BinaryOperator} {s t : Machine ν} :
    binaryRun (binaryOp operator) left right s = (.ok value, t) ↔
      binary (binaryOpCode (binaryOp operator)) s.heap left right = .ok value ∧ t = s := by
  change (binary (binaryOpCode (binaryOp operator)) s.heap left right, s) = (.ok value, t) ↔ _
  rw [Prod.mk.injEq, eq_comm (a := s)]

end Operators

section Evaluation

variable [F64 ν] (negate : ν → ν) {slot : String → UInt32} {call : Call ν} {locals locals' : Locals ν}
  {s t : Machine ν} {value : RuntimeValue ν}

theorem relational_strictly (operator : BinaryOperator) :
    relational (strictly operator) = relational operator := by
  cases operator with
  | _ => rfl

omit [F64 ν] in
theorem lifted_ok_iff {x : Except Stop (RuntimeValue ν)} :
    (FailState.lift x >>= fun found => pure (found, locals) : Run ν (RuntimeValue ν × Locals ν)) s =
        (.ok (value, locals'), t) ↔
      x = .ok value ∧ locals' = locals ∧ t = s := by
  cases x with
  | error e => exact ⟨fun h => (by cases h), fun h => (by cases h.1)⟩
  | ok found =>
    constructor
    · intro h
      cases h
      exact ⟨rfl, rfl, rfl⟩
    · rintro ⟨hfound, rfl, rfl⟩
      cases hfound
      rfl

theorem constantRun_ok_iff {constant : Constant} {found : Option (RuntimeValue ν)}
    (hfound : (valueFromConstant constant : Except Stop (RuntimeValue ν)).toOption = found) :
    constantRun constant locals s = (.ok (value, locals'), t) ↔
      (found = some value ∧ false = false) ∧ locals' = locals ∧ t = s := by
  rw [and_iff_left rfl, ← hfound, toOption_eq_some]
  exact lifted_ok_iff

omit [F64 ν] in
theorem loadSlot_toOption (index : UInt32) :
    (loadSlot locals index).toOption = locals[index.toNat]? := by
  unfold loadSlot Frame.loadLocal
  cases locals[index.toNat]? with
  | none => rfl
  | some found => rfl

theorem meaning_binary {heap : Store ν} {valueOf : String → Option (RuntimeValue ν)}
    {operator : BinaryOperator} {left right : Expression} {span : Span} :
    meaning negate heap valueOf (.binary left operator right span) = some value ↔
      ∃ first, meaning negate heap valueOf left = some first ∧
        ∃ second, meaning negate heap valueOf right = some second ∧
          operate heap operator first second = some value := by
  rw [meaning, Option.bind_eq_bind, Option.bind_eq_some_iff]
  refine exists_congr fun first => and_congr_right fun _ => ?_
  exact Option.bind_eq_some_iff

theorem ordersText_binary {heap : Store ν} {valueOf : String → Option (RuntimeValue ν)}
    {operator : BinaryOperator} {left right : Expression} {span : Span} :
    ordersText negate heap valueOf (.binary left operator right span) = false ↔
      ordersText negate heap valueOf left = false ∧ ordersText negate heap valueOf right = false ∧
        (relational operator && (meaning negate heap valueOf left).any isText) = false := by
  rw [ordersText, Bool.or_eq_false_iff, Bool.or_eq_false_iff, and_assoc]

/-- What the code of an expression computes, and when it ends in an error instead. -/
theorem runExpression_ok_iff (expression : Expression) (h : arithmetical expression = true)
    {locals locals' : Locals ν} {s t : Machine ν} {value : RuntimeValue ν} :
    runExpression slot call expression locals s = (.ok (value, locals'), t) ↔
      (meaning negate s.heap (fun name => locals[(slot name).toNat]?) (reading expression) =
          some value ∧
        ordersText negate s.heap (fun name => locals[(slot name).toNat]?) (reading expression) =
          false) ∧ locals' = locals ∧ t = s := by
  cases expression with
  | identifier name span =>
    change _ ↔ (locals[(slot name).toNat]? = some value ∧ false = false) ∧ _
    rw [and_iff_left rfl, ← loadSlot_toOption, toOption_eq_some]
    exact lifted_ok_iff
  | number text span =>
    refine constantRun_ok_iff ?_
    rw [valueFromConstant]
    change _ = (F64.parse text : Except String ν).toOption.map RuntimeValue.number
    cases (F64.parse text : Except String ν) with
    | error e => rfl
    | ok number => rfl
  | string text span => exact constantRun_ok_iff rfl
  | boolean flag span => exact constantRun_ok_iff rfl
  | null span => exact constantRun_ok_iff rfl
  | undefined span => exact constantRun_ok_iff rfl
  | unary operator argument span => exact runExpression_ok_iff argument h
  | binary left operator right span =>
    rw [arithmetical, Bool.and_eq_true, Bool.and_eq_true] at h
    obtain ⟨⟨hstrict, hleft⟩, hright⟩ := h
    rw [runExpression, reading, meaning_binary, ordersText_binary, relational_strictly]
    constructor
    · intro hrun
      obtain ⟨⟨first, _⟩, _, hfirst, hthen⟩ := FailState.bind_eq_ok.mp hrun
      obtain ⟨⟨hfirstMeaning, hfirstText⟩, rfl, rfl⟩ := (runExpression_ok_iff left hleft).mp hfirst
      obtain ⟨⟨second, _⟩, _, hsecond, hlast⟩ := FailState.bind_eq_ok.mp hthen
      obtain ⟨⟨hsecondMeaning, hsecondText⟩, rfl, rfl⟩ :=
        (runExpression_ok_iff right hright).mp hsecond
      obtain ⟨result, _, hresult, hpure⟩ := FailState.bind_eq_ok.mp hlast
      obtain ⟨hbinary, rfl⟩ := binaryRun_ok_iff.mp hresult
      obtain ⟨hoperate, htext⟩ := (binary_ok_iff hstrict).mp hbinary
      cases hpure
      refine ⟨⟨⟨first, hfirstMeaning, second, hsecondMeaning, hoperate⟩, hfirstText, hsecondText, ?_⟩,
        rfl, rfl⟩
      rw [hfirstMeaning]
      exact htext
    · rintro ⟨⟨⟨first, hfirst, second, hsecond, hoperate⟩, hfirstText, hsecondText, htext⟩, rfl, rfl⟩
      rw [hfirst] at htext
      have hleftRun := (runExpression_ok_iff left hleft).mpr ⟨⟨hfirst, hfirstText⟩, rfl, rfl⟩
      have hrightRun := (runExpression_ok_iff right hright).mpr ⟨⟨hsecond, hsecondText⟩, rfl, rfl⟩
      have hbinary := binaryRun_ok_iff.mpr ⟨(binary_ok_iff hstrict).mpr ⟨hoperate, htext⟩, rfl⟩
      rw [FailState.bind_ok hleftRun, FailState.bind_ok hrightRun, FailState.bind_ok hbinary]
      rfl
  | _ => cases h

end Evaluation

section Compiled

variable [F64 ν] {program : Program} {host : HostEnvironment ν} {function : IrFunction}
  {start p : Point ν}

/-- The code of an expression computes its meaning exactly when the frame has all values
    numbered before, its reading has the same meaning, and only numbers are ordered. -/
theorem expressionCode_meaning_iff (hsize : irSize (lowerProgram program) ≤ 2 ^ 32)
    (h : Activation program host function start p) {types : List (String × IrType)}
    {expression : Expression} {n : ℕ}
    (hat : AtCode function p (expressionCode types expression n).code)
    (harithmetical : arithmetical expression = true) (negate : ν → ν) {value : RuntimeValue ν}
    (hmeaning : meaning negate p.machine.heap (variableAt function p) expression = some value) :
    (∃ q, Evaluates (compile (lowerProgram program)) host p q (expressionCode types expression n)
        value) ↔
      p.frame.values.length = n ∧
        meaning negate p.machine.heap (variableAt function p) (reading expression) =
          meaning negate p.machine.heap (variableAt function p) expression ∧
        ordersText negate p.machine.heap (variableAt function p) (reading expression) = false := by
  obtain ⟨offset, hsited⟩ := h.sited hsize
  rw [hmeaning]
  constructor
  · rintro ⟨q, hq⟩
    obtain ⟨hn, fuel, hfuel⟩ := run_of_evaluates hsited hat hq
    have hrun := hfuel fuel (Nat.le_refl fuel)
    exact ⟨hn, ((runExpression_ok_iff negate expression harithmetical).mp hrun).1⟩
  · rintro ⟨hn, hreading, htext⟩
    have hrun : runExpression (slotOf (finalSlots function))
        (callFunction (compile (lowerProgram program)) host 0) expression p.frame.locals p.machine =
          (.ok (value, p.frame.locals), p.machine) :=
      (runExpression_ok_iff negate expression harithmetical).mpr ⟨⟨hreading, htext⟩, rfl, rfl⟩
    obtain ⟨q, hq, _⟩ := evaluates_of_run hsited hat hn hrun
    exact ⟨q, hq⟩

end Compiled

def printing (expression : Expression) : Ast.Program where
  body := [.expression (.call (.member (.identifier "console" emptySpan) "log" emptySpan) [expression]
    emptySpan) emptySpan]
  span := none

def printingStart (expression : Expression) : Point Int :=
  let compiled := (compileFunction (lowerProgram (printing expression)).entry .new).1
  entry compiled ((compiled.blocks.head?).getD ⟨0, []⟩) [] .new

def sum : Expression := .binary (.number "1" emptySpan) .add (.number "2" emptySpan) emptySpan

def negated : Expression := .unary .negate (.number "5" emptySpan) emptySpan

theorem sum_computed :
    (∃ q : Point Int, Evaluates (compile (lowerProgram (printing sum))) .new (printingStart sum) q
        (expressionCode [] sum 0) (.number 3)) ↔
      (printingStart sum).frame.values.length = 0 ∧
        meaning (fun value => -value) (printingStart sum).machine.heap
            (variableAt (lowerProgram (printing sum)).entry (printingStart sum)) (reading sum) =
          meaning (fun value => -value) (printingStart sum).machine.heap
            (variableAt (lowerProgram (printing sum)).entry (printingStart sum)) sum ∧
        ordersText (fun value => -value) (printingStart sum).machine.heap
            (variableAt (lowerProgram (printing sum)).entry (printingStart sum)) (reading sum) =
          false :=
  expressionCode_meaning_iff (by decide) (entry_activation rfl rfl [] .new) ⟨_, rfl⟩ rfl
    (fun value => -value) rfl

/-- `console.log(-5);` prints 5. -/
theorem negated_not_computed :
    (analyzeProgram .listed (printing negated) .new).diagnostics.isEmpty = true ∧
      verifyModule (compile (lowerProgram (printing negated))) = .ok () ∧
      Activation (printing negated) .new (lowerProgram (printing negated)).entry
        (printingStart negated) (printingStart negated) ∧
      AtCode (lowerProgram (printing negated)).entry (printingStart negated)
        (expressionCode [] negated 0).code ∧
      arithmetical negated = true ∧
      meaning (fun value => -value) (printingStart negated).machine.heap
        (variableAt (lowerProgram (printing negated)).entry (printingStart negated)) negated =
          some (.number (-5)) ∧
      (¬ ∃ q, Evaluates (compile (lowerProgram (printing negated))) .new (printingStart negated) q
        (expressionCode [] negated 0) (.number (-5))) ∧
      (callFunction (compile (lowerProgram (printing negated))) (.new : HostEnvironment Int) 2
        "__entry" [] .new).2.console = [.number 5] := by
  have hactivation : Activation (printing negated) .new (lowerProgram (printing negated)).entry
    (printingStart negated) (printingStart negated) := entry_activation rfl rfl [] .new
  have hat : AtCode (lowerProgram (printing negated)).entry (printingStart negated)
    (expressionCode [] negated 0).code := ⟨_, rfl⟩
  refine ⟨by decide +kernel, by decide +kernel, hactivation, hat, rfl, rfl, ?_, rfl⟩
  rintro ⟨q, hq⟩
  obtain ⟨offset, hsited⟩ := hactivation.sited (by decide)
  obtain ⟨_, fuel, hfuel⟩ := run_of_evaluates hsited hat hq
  have hrun := hfuel fuel (Nat.le_refl fuel)
  cases hrun

end Tsvm.OperatorMeaning
