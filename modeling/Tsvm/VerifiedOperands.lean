import Tsvm.VerifiedReferences

set_option autoImplicit false

/-!
# Kinds of operands

The verifier checks that a constant exists, not what it is, and no operator code
at all. `OperandKinds` is what the interpreter needs of an instruction beyond
that: a run of an accepted module meets a malformed operand exactly where it
comes to an instruction without it.
-/
namespace Tsvm.VerifiedOperands
open Bytecode BytecodeVerifier BytecodeVerifierFacts Interop RuntimeValues Interpreter
  InterpreterSteps RuntimeFailures VerifiedReferences

/-- The errors of an operand that is not of the kind its instruction needs. -/
inductive MalformedOperand : Stop → Prop where
  | name : MalformedOperand (.runtime .expectedSymbolConstant)
  | operator (op : UInt32) : MalformedOperand (.runtime (.unknownBinaryOp op))
  | number (text reason : String) : MalformedOperand (.runtime (.invalidNumberConstant text reason))

structure OperandKinds (ν : Type) [F64 ν] (m : BytecodeModule) (instruction : Instruction) :
    Prop where
  names : ∀ c ∈ nameOperands instruction, IsName m c
  operator : instruction.opcode = .binary → ∀ op, instruction.operands[0]? = some op →
    op.toNat ≤ 15
  number : instruction.opcode = .loadConst → ∀ c text, instruction.operands[0]? = some c →
    m.constants[c.toNat]? = some (.number text) → ∃ value : ν, F64.parse text = .ok value

variable {ν : Type} [F64 ν] {m : BytecodeModule} {host : HostEnvironment ν}

theorem CheckedFailure.not_malformed {instruction : Instruction} {e : Stop}
    (h : CheckedFailure ν m instruction e) (hkinds : OperandKinds ν m instruction) :
    ¬ MalformedOperand e := by
  intro hmalformed
  cases h with
  | number hop hc htext hparse =>
    obtain ⟨value, hvalue⟩ := hkinds.number hop _ _ hc htext
    rw [hvalue] at hparse
    cases hparse
  | name hc hname => exact hname (hkinds.names _ hc)
  | operator hop hcode hbig =>
    have hle := hkinds.operator hop _ hcode
    omega
  | expectedNumber => cases hmalformed
  | read => cases hmalformed
  | write => cases hmalformed
  | heap h => cases h <;> cases hmalformed

section Kinds

variable {c : UInt32}

omit [F64 ν] in
theorem symbol_ok {name : String} (h : symbol m c = .ok name) : IsName m c := by
  unfold symbol constant at h
  cases hfound : m.constants[c.toNat]? with
  | none =>
    rw [hfound] at h
    cases h
  | some found =>
    rw [hfound] at h
    cases found with
    | symbol text => exact ⟨text, .inl hfound⟩
    | string text => exact ⟨text, .inr hfound⟩
    | _ => cases h

theorem symbol_not_name (hc : ConstantIndex m c) (hname : ¬ IsName m c) :
    symbol m c = .error (.runtime .expectedSymbolConstant) := by
  cases h : symbol m c with
  | ok name => exact absurd (symbol_ok h) hname
  | error e => rw [(symbol_error hc h).1]

omit [F64 ν] in
theorem objectFields_names {instruction : Instruction} {count : UInt32} {frame : Frame ν}
    {pairs : List (UInt32 × UInt32)}
    (hoperands : instruction.operands = count :: flattenPairs pairs) {indices : List ℕ}
    {object fields : Std.TreeMap String (RuntimeValue ν)}
    (h : objectFields m instruction frame indices object = .ok fields) {index : ℕ}
    (hmem : index ∈ indices) (hlt : index < pairs.length) : IsName m pairs[index].1 := by
  induction indices generalizing object with
  | nil => cases hmem
  | cons first rest ih =>
    rw [objectFields] at h
    cases hfield : objectField m instruction frame first with
    | error e =>
      rw [hfield] at h
      cases h
    | ok field =>
      rw [hfield] at h
      rcases List.mem_cons.mp hmem with rfl | hmem
      · obtain ⟨hname, hvalue⟩ := flattenPairs_getElem count hlt
        rw [← hoperands, ← operand_eq_ok] at hname hvalue
        rw [objectField, hname, hvalue] at hfield
        by_contra hnot
        cases hconstant : constant m pairs[index].1 with
        | error e =>
          change (constant m pairs[index].1 >>= _) = _ at hfield
          rw [hconstant] at hfield
          cases hfield
        | ok found =>
          change (constant m pairs[index].1 >>= fun nameConstant =>
            symbolName nameConstant >>= fun name =>
              frame.value pairs[index].2 >>= fun value => pure (name, value)) = _ at hfield
          rw [hconstant] at hfield
          change (symbolName found >>= _) = _ at hfield
          cases hsymbol : symbolName found with
          | error e =>
            rw [hsymbol] at hfield
            cases hfield
          | ok name =>
            have hname : symbol m pairs[index].1 = .ok name := by
              rw [symbol, hconstant]
              exact hsymbol
            exact hnot (symbol_ok hname)
      · exact ih h hmem

end Kinds

theorem operandKinds_of_names {instruction : Instruction}
    (hnames : ∀ c ∈ nameOperands instruction, IsName m c) (hbinary : instruction.opcode ≠ .binary)
    (hconst : instruction.opcode ≠ .loadConst) : OperandKinds ν m instruction :=
  ⟨hnames, fun hop => absurd hop hbinary, fun hop => absurd hop hconst⟩

theorem Checked.malformed {ids : List UInt32} {instruction : Instruction} {s t : BlockState}
    {frame : Frame ν} (machine : Machine ν) (hchecked : Checked m ids instruction s t)
    (hframe : Supplies frame s) (hkinds : ¬ OperandKinds ν m instruction) :
    ∃ e, MalformedOperand e ∧
      (executeInstruction m (fun _ _ => pure .undefined) instruction frame machine).1 =
        .error e := by
  cases hchecked with
  | @loadConst c src tag _ hc =>
    obtain ⟨found, hconstant, hfound⟩ := constant_of_index hc
    cases hvalue : (valueFromConstant found : Except Stop (RuntimeValue ν)) with
    | ok value =>
      refine absurd ⟨fun _ hc => absurd hc List.not_mem_nil, fun hop => (by cases hop), ?_⟩ hkinds
      rintro _ c' text ⟨rfl⟩ htext
      rw [hfound] at htext
      cases htext
      cases hparse : (F64.parse text : Except String ν) with
      | ok value => exact ⟨value, rfl⟩
      | error reason =>
        rw [valueFromConstant, hparse] at hvalue
        cases hvalue
    | error e =>
      obtain ⟨text, reason, rfl, _, rfl⟩ := valueFromConstant_error hvalue
      refine ⟨_, .number text reason, ?_⟩
      change ((FailState.lift (constant m c) >>= fun constant =>
        FailState.lift (valueFromConstant constant) >>= _) machine).1 = _
      rw [hconstant, FailState.bind_ok (FailState.lift_run _ _), hvalue,
        FailState.bind_error (FailState.lift_run _ _)]
  | @buildObject count src tag _ pairs hcount hpairs =>
    refine ⟨_, .name, ?_⟩
    change ((FailState.lift (objectFields m ⟨.buildObject, count :: flattenPairs pairs, tag, src⟩
      frame (List.range count.toNat) ∅) >>= _) machine).1 = _
    cases hfields : objectFields m ⟨.buildObject, count :: flattenPairs pairs, tag, src⟩ frame
      (List.range count.toNat) ∅ with
    | error e =>
      rw [FailState.bind_error (FailState.lift_run _ _)]
      have he := objectFields_error rfl
        (fun pair hmem => ⟨(hpairs pair hmem).1, hframe.value (hpairs pair hmem).2⟩)
        (fun index hindex => hcount ▸ List.mem_range.mp hindex) hfields
      rw [he.1]
    | ok fields =>
      refine absurd (operandKinds_of_names (fun c hc => ?_) (fun hop => by cases hop) (fun hop => by cases hop)) hkinds
      simp only [nameOperands, List.tail_cons, chunkPairs_flattenPairs, List.map_map] at hc
      obtain ⟨pair, hmem, rfl⟩ := List.mem_map.mp hc
      obtain ⟨index, hlt, rfl⟩ := List.mem_iff_getElem.mp hmem
      exact objectFields_names rfl hfields (List.mem_range.mpr (hcount ▸ hlt)) hlt
  | @loadMember object property src tag _ hobject hproperty =>
    obtain ⟨found, hfound⟩ := hframe.value hobject
    have hname : ¬ IsName m property := fun hname => hkinds (operandKinds_of_names
      (fun c hc => List.mem_singleton.mp hc ▸ hname) (fun hop => by cases hop) (fun hop => by cases hop))
    refine ⟨_, .name, ?_⟩
    change ((FailState.lift (frame.value object) >>= fun object =>
      FailState.lift (symbol m property) >>= _) machine).1 = _
    rw [hfound, FailState.bind_ok (FailState.lift_run _ _), symbol_not_name hproperty hname,
      FailState.bind_error (FailState.lift_run _ _)]
  | @storeMember object property value src tag _ hobject hproperty hvalue =>
    obtain ⟨found, hfound⟩ := hframe.value hobject
    have hname : ¬ IsName m property := fun hname => hkinds (operandKinds_of_names
      (fun c hc => List.mem_singleton.mp hc ▸ hname) (fun hop => by cases hop) (fun hop => by cases hop))
    refine ⟨_, .name, ?_⟩
    change ((FailState.lift (frame.value object) >>= fun object =>
      FailState.lift (symbol m property) >>= _) machine).1 = _
    rw [hfound, FailState.bind_ok (FailState.lift_run _ _), symbol_not_name hproperty hname,
      FailState.bind_error (FailState.lift_run _ _)]
  | @binary op left right src tag _ hleft hright htag =>
    obtain ⟨x, hx⟩ := hframe.value hleft
    obtain ⟨y, hy⟩ := hframe.value hright
    have hop : 15 < op.toNat := by
      by_contra hsmall
      refine hkinds ⟨fun _ hc => absurd hc List.not_mem_nil, ?_, fun hop => by cases hop⟩
      rintro _ code ⟨rfl⟩
      omega
    refine ⟨_, .operator op, ?_⟩
    change ((FailState.lift (frame.value left) >>= fun left =>
      FailState.lift (frame.value right) >>= fun right => FailState.lift (.ok op) >>= fun op =>
        FailState.read >>= fun s => FailState.lift (binary op s.heap left right) >>= _)
          machine).1 = _
    rw [hx, hy, FailState.bind_ok (FailState.lift_run _ _),
      FailState.bind_ok (FailState.lift_run _ _), FailState.bind_ok (FailState.lift_run _ _),
      FailState.bind_ok (FailState.read_run _), binary_unknown hop,
      FailState.bind_error (FailState.lift_run _ _)]
  | @call callee argc src tag _ args hcallee hargc hargs =>
    have hname : ¬ IsName m callee := fun hname => hkinds (operandKinds_of_names
      (fun c hc => List.mem_singleton.mp hc ▸ hname) (fun hop => by cases hop) (fun hop => by cases hop))
    have hoperands : callOperands m ⟨.call, callee :: argc :: args, tag, src⟩ frame =
        .error (.runtime .expectedSymbolConstant) := by
      change (symbol m callee >>= _) = _
      rw [symbol_not_name hcallee hname]
      rfl
    refine ⟨_, .name, ?_⟩
    rw [executeInstruction_call rfl, hoperands, FailState.bind_error (FailState.lift_run _ _)]
  | buildArray | loadLocal | storeLocal | branch | jump | returnVoid | returnValue =>
    exact absurd (operandKinds_of_names (fun _ hc => absurd hc List.not_mem_nil) (fun hop => by cases hop)
      (fun hop => by cases hop)) hkinds

omit [F64 ν] in
theorem refuses_not_malformed {name : String} {args : List (RuntimeValue ν)} {s : Machine ν}
    {e : Stop} (h : Refuses m host name args s e) : ¬ MalformedOperand e := by
  intro hmalformed
  rcases h with h | ⟨function, t, _, h⟩
  · rcases dispatch_error h with h | ⟨error, rfl⟩ | rfl
    · cases h <;> cases hmalformed
    · cases hmalformed
    · cases hmalformed
  · obtain ⟨rfl, _⟩ := findBlock_error h
    cases hmalformed

theorem Fails.not_malformed (haccepted : Accepted m) {p : Point ν} (hp : Verified m p)
    (hkinds : ∀ instruction, p.instruction = some instruction → OperandKinds ν m instruction)
    {e : Stop} (h : Fails m host p e) : ¬ MalformedOperand e := by
  cases h with
  | instruction hi h =>
    exact CheckedFailure.not_malformed
      (Checked.failure (hp.checked haccepted hi) (hp.supplies haccepted) h) (hkinds _ hi)
  | call hcalls hrefuse => exact refuses_not_malformed hrefuse
  | jump hexec hblock =>
    obtain ⟨rfl, _⟩ := findBlock_error hblock
    rintro ⟨⟩

/-- A call in an accepted module never ends with a malformed operand exactly when
    all the instructions it comes to have operands of their kinds. -/
theorem callFunction_operandKinds_iff (haccepted : Accepted m) (name : String)
    (args : List (RuntimeValue ν)) (s : Machine ν) :
    (∀ fuel e, (callFunction m host fuel name args s).1 = .error e → ¬ MalformedOperand e) ↔
      ∀ p, Passes m host name args s p → ∀ instruction, p.instruction = some instruction →
        OperandKinds ν m instruction := by
  constructor
  · intro h p hpasses instruction hi
    have hp := Verified.reachable haccepted hpasses.reachable
    by_contra hkinds
    obtain ⟨e, hmalformed, herror⟩ := Checked.malformed p.machine
      (hp.checked haccepted hi) (hp.supplies haccepted) hkinds
    have hne : e ≠ .outOfFuel := by
      rintro rfl
      cases hmalformed
    obtain ⟨fuel, hfuel⟩ := (callFunction_error_iff hne).mpr
      (.inr ⟨p, hpasses, .instruction hi herror⟩)
    exact h fuel e hfuel hmalformed
  · intro h fuel e hfuel hmalformed
    have hne : e ≠ .outOfFuel := by
      rintro rfl
      cases hmalformed
    rcases (callFunction_error_iff hne).mp ⟨fuel, hfuel⟩ with hrefuse | ⟨p, hpasses, hfails⟩
    · exact refuses_not_malformed hrefuse hmalformed
    · have hp := Verified.reachable haccepted hpasses.reachable
      exact Fails.not_malformed haccepted hp (h p hpasses) hfails hmalformed

/-- A callee that is a boolean, an operator code past the last one, a number that
    is none. -/
def malformedModules : List BytecodeModule :=
  [entryModule [.boolean true] [⟨0, [⟨.call, [0, 0], .unknown, 0⟩, returnVoid]⟩],
    entryModule [.boolean true] [⟨0, [loadTrue, ⟨.binary, [16, 0, 0], .number, 0⟩, returnVoid]⟩],
    entryModule [.number "x"] [⟨0, [⟨.loadConst, [0], .number, 0⟩, returnVoid]⟩]]

def stopOf {α : Type} (result : Except Stop α) : Option Stop :=
  match result with
  | .ok _ => none
  | .error e => some e

theorem malformedModules_fail :
    malformedModules.map verifyModule = [.ok (), .ok (), .ok ()] ∧
      malformedModules.map (fun m =>
        stopOf (executeModuleWithHost m (.new : HostEnvironment Int) 1)) =
      [some (.runtime .expectedSymbolConstant), some (.runtime (.unknownBinaryOp 16)),
        some (.runtime (.invalidNumberConstant "x" "invalid float literal"))] := by
  refine ⟨?_, ?_⟩ <;> decide +kernel

def returningModule : BytecodeModule := entryModule [.boolean true] [⟨0, [loadTrue, returnVoid]⟩]

theorem returningModule_operandKinds :
    (∀ fuel e, (callFunction returningModule (.new : HostEnvironment Int) fuel "__entry" []
      .new).1 = .error e → ¬ MalformedOperand e) ↔
      ∀ p, Passes returningModule (.new : HostEnvironment Int) "__entry" [] .new p →
        ∀ instruction, p.instruction = some instruction →
          OperandKinds Int returningModule instruction :=
  have haccepted : Accepted returningModule := rfl
  callFunction_operandKinds_iff haccepted "__entry" [] .new

end Tsvm.VerifiedOperands
