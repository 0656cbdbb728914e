import Tsvm.BytecodeVerifierFacts
import Tsvm.RuntimeFailures

set_option autoImplicit false

/-!
# References of verified modules

At every point of a run of an accepted module the frame has at least the values
and the locals the verifier counts there. So what still can fail is listed by
`CheckedFailure`, and a missing reference is not on that list.
-/
namespace Tsvm.VerifiedReferences
open Bytecode BytecodeVerifier BytecodeVerifierFacts Interop RuntimeValues Interpreter
  InterpreterSteps RuntimeFailures

def nameOperands (instruction : Instruction) : List UInt32 :=
  match instruction.opcode with
  | .buildObject => (chunkPairs instruction.operands.tail).map Prod.fst
  | .loadMember | .storeMember => instruction.operands[1]?.toList
  | .call => instruction.operands[0]?.toList
  | _ => []

def IsName (m : BytecodeModule) (index : UInt32) : Prop :=
  ∃ name, m.constants[index.toNat]? = some (.symbol name) ∨
    m.constants[index.toNat]? = some (.string name)

/-- An operand that refers to nothing: a panic, or a constant, a local or a value
    that is missing. -/
inductive MissingReference : Stop → Prop where
  | operand : MissingReference .panic
  | constant (index : UInt32) : MissingReference (.runtime (.constantMissing index))
  | local (index : UInt32) : MissingReference (.runtime (.localMissing index))
  | value (index : UInt32) : MissingReference (.runtime (.valueMissing index))

variable {ν : Type}

/-- The frame has what the verifier counts on in the state `s`. -/
structure Supplies (frame : Frame ν) (s : BlockState) : Prop where
  values : ∀ v ∈ s.definedValues, v.toNat < frame.values.length
  locals : s.localCount.toNat ≤ frame.locals.length

/-- How a verified instruction can fail by itself. -/
inductive CheckedFailure (ν : Type) [F64 ν] (m : BytecodeModule) (instruction : Instruction) :
    Stop → Prop where
  | number {c : UInt32} {text reason : String} (hop : instruction.opcode = .loadConst)
      (hc : instruction.operands[0]? = some c)
      (htext : m.constants[c.toNat]? = some (.number text))
      (hparse : (F64.parse text : Except String ν) = .error reason) :
      CheckedFailure ν m instruction (.runtime (.invalidNumberConstant text reason))
  | name {c : UInt32} (hc : c ∈ nameOperands instruction) (hname : ¬ IsName m c) :
      CheckedFailure ν m instruction (.runtime .expectedSymbolConstant)
  | operator {op : UInt32} (hop : instruction.opcode = .binary)
      (hcode : instruction.operands[0]? = some op) (hbig : 15 < op.toNat) :
      CheckedFailure ν m instruction (.runtime (.unknownBinaryOp op))
  | expectedNumber (hop : instruction.opcode = .binary) :
      CheckedFailure ν m instruction (.runtime .expectedNumber)
  | read (property : String) (hop : instruction.opcode = .loadMember) :
      CheckedFailure ν m instruction (.runtime (.cannotReadProperty property))
  | write (property : String) (hop : instruction.opcode = .storeMember) :
      CheckedFailure ν m instruction (.runtime (.cannotWriteProperty property))
  | heap {e : Stop} (h : HeapFailure e) : CheckedFailure ν m instruction e

section Primitives

variable {m : BytecodeModule} {frame : Frame ν} {s : BlockState} {v c slot : UInt32}

theorem Supplies.value (h : Supplies frame s) (hv : v ∈ s.definedValues) :
    ∃ value, frame.value v = .ok value := by
  have hlt := h.values v hv
  exact ⟨frame.values[v.toNat], by rw [Frame.value, List.getElem?_eq_getElem hlt]⟩

theorem Supplies.loadLocal (h : Supplies frame s) (hslot : slot < s.localCount) :
    ∃ value, frame.loadLocal slot = .ok value := by
  have hlt : slot.toNat < frame.locals.length :=
    Nat.lt_of_lt_of_le (UInt32.lt_iff_toNat_lt.mp hslot) h.locals
  exact ⟨frame.locals[slot.toNat], by rw [Frame.loadLocal, List.getElem?_eq_getElem hlt]⟩

theorem Supplies.frameValues (h : Supplies frame s) {operands : List UInt32}
    (hv : ∀ v ∈ operands, v ∈ s.definedValues) :
    ∃ values, Interpreter.frameValues frame operands = .ok values := by
  cases hd : Interpreter.frameValues frame operands with
  | ok values => exact ⟨values, rfl⟩
  | error e =>
    obtain ⟨v, hmem, herror⟩ := Except.mapM_eq_error hd
    obtain ⟨value, hvalue⟩ := h.value (hv v hmem)
    rw [hvalue] at herror
    cases herror

theorem constant_of_index (hc : ConstantIndex m c) :
    ∃ found, constant m c = .ok found ∧ m.constants[c.toNat]? = some found :=
  ⟨m.constants[c.toNat], by rw [constant, List.getElem?_eq_getElem hc],
    List.getElem?_eq_getElem hc⟩

theorem symbolName_error {found : Constant} {e : Stop} (hfound : m.constants[c.toNat]? = some found)
    (h : symbolName found = .error e) : e = .runtime .expectedSymbolConstant ∧ ¬ IsName m c := by
  have hname : ¬ IsName m c := by
    rintro ⟨name, hname | hname⟩ <;>
      · rw [hname] at hfound
        cases hfound
        cases h
  unfold symbolName at h
  split at h <;> cases h
  exact ⟨rfl, hname⟩

theorem symbol_error {e : Stop} (hc : ConstantIndex m c) (h : symbol m c = .error e) :
    e = .runtime .expectedSymbolConstant ∧ ¬ IsName m c := by
  obtain ⟨found, hconstant, hfound⟩ := constant_of_index hc
  rw [symbol, hconstant] at h
  exact symbolName_error hfound h

theorem valueFromConstant_error [F64 ν] {found : Constant} {e : Stop}
    (h : (valueFromConstant found : Except Stop (RuntimeValue ν)) = .error e) :
    ∃ text reason, found = .number text ∧ (F64.parse text : Except String ν) = .error reason ∧
      e = .runtime (.invalidNumberConstant text reason) := by
  unfold valueFromConstant at h
  split at h
  · rename_i text
    split at h
    · cases h
    · rename_i reason hparse
      cases h
      exact ⟨text, reason, rfl, hparse, rfl⟩
  all_goals cases h

theorem flattenPairs_getElem (count : UInt32) {pairs : List (UInt32 × UInt32)} {index : ℕ}
    (h : index < pairs.length) :
    (count :: flattenPairs pairs)[1 + index * 2]? = some (pairs[index].1) ∧
      (count :: flattenPairs pairs)[2 + index * 2]? = some (pairs[index].2) := by
  induction pairs generalizing count index with
  | nil => simp at h
  | cons pair pairs ih =>
    have hflat : flattenPairs (pair :: pairs) = pair.1 :: pair.2 :: flattenPairs pairs := rfl
    cases index with
    | zero => simp [hflat]
    | succ index =>
      have hrest := ih pair.2 (show index < pairs.length by simpa using h)
      rw [hflat, show 1 + (index + 1) * 2 = (1 + index * 2) + 1 + 1 by omega,
        show 2 + (index + 1) * 2 = (2 + index * 2) + 1 + 1 by omega]
      simpa using hrest

theorem objectFields_error {instruction : Instruction} {count : UInt32}
    {pairs : List (UInt32 × UInt32)}
    (hoperands : instruction.operands = count :: flattenPairs pairs)
    (hpairs : ∀ pair ∈ pairs, ConstantIndex m pair.1 ∧ ∃ value, frame.value pair.2 = .ok value)
    {indices : List ℕ} (hindices : ∀ index ∈ indices, index < pairs.length)
    {object : Std.TreeMap String (RuntimeValue ν)} {e : Stop}
    (h : objectFields m instruction frame indices object = .error e) :
    e = .runtime .expectedSymbolConstant ∧ ∃ pair ∈ pairs, ¬ IsName m pair.1 := by
  induction indices generalizing object with
  | nil => cases h
  | cons index indices ih =>
    rw [objectFields] at h
    rcases Except.bind_eq_error h with h | ⟨field, _, h⟩
    · have hlt := hindices index List.mem_cons_self
      obtain ⟨hname, hvalue⟩ := flattenPairs_getElem count hlt
      rw [← hoperands, ← operand_eq_ok] at hname hvalue
      have hmem : pairs[index] ∈ pairs := List.getElem_mem hlt
      obtain ⟨hc, value, hv⟩ := hpairs _ hmem
      obtain ⟨found, hconstant, hfound⟩ := constant_of_index hc
      rw [objectField, hname, hvalue] at h
      change (constant m pairs[index].1 >>= fun nameConstant =>
        symbolName nameConstant >>= fun name =>
          frame.value pairs[index].2 >>= fun value => pure (name, value)) = _ at h
      rw [hconstant, hv] at h
      change (symbolName found >>= fun name => pure (name, value)) = _ at h
      rcases Except.bind_eq_error h with h | ⟨_, _, h⟩
      · obtain ⟨he, hname⟩ := symbolName_error hfound h
        exact ⟨he, _, hmem, hname⟩
      · cases h
    · exact ih (fun index hmem => hindices index (List.mem_cons_of_mem _ hmem)) h

end Primitives

section Failures

variable [F64 ν] {m : BytecodeModule}

theorem nameOperands_buildObject {count src : UInt32} {tag : TypeTag}
    {pairs : List (UInt32 × UInt32)} {pair : UInt32 × UInt32} (h : pair ∈ pairs) :
    pair.1 ∈ nameOperands ⟨.buildObject, count :: flattenPairs pairs, tag, src⟩ := by
  simp only [nameOperands, List.tail_cons, chunkPairs_flattenPairs, List.map_map]
  exact List.mem_map.mpr ⟨pair, h, rfl⟩

/-- An instruction the verifier accepts, in a frame that supplies what it checked,
    only fails in the listed ways. -/
theorem Checked.failure {ids : List UInt32} {instruction : Instruction} {s t : BlockState}
    {frame : Frame ν} {machine : Machine ν} {e : Stop} (hchecked : Checked m ids instruction s t)
    (hframe : Supplies frame s)
    (h : (executeInstruction m (fun _ _ => pure .undefined) instruction frame machine).1 =
      .error e) :
    CheckedFailure ν m instruction e := by
  obtain ⟨after, h⟩ : ∃ after, executeInstruction m (fun _ _ => pure .undefined) instruction frame
      machine = (.error e, after) := ⟨_, Prod.ext h rfl⟩
  cases hchecked with
  | @loadConst c _ _ _ hc =>
    obtain ⟨found, hconstant, hfound⟩ := constant_of_index hc
    change (FailState.lift (constant m c) >>= _) machine = _ at h
    rw [hconstant, FailState.bind_ok (FailState.lift_run _ _)] at h
    rcases FailState.bind_eq_error.mp h with h | ⟨_, _, _, h⟩
    · obtain ⟨text, reason, rfl, hparse, rfl⟩ := valueFromConstant_error (congrArg Prod.fst h)
      exact .number rfl rfl hfound hparse
    · cases h
  | @buildObject count _ _ _ pairs hcount hpairs =>
    change (FailState.lift (objectFields m _ frame (List.range count.toNat) ∅) >>= _) machine = _
      at h
    rcases FailState.bind_eq_error.mp h with h | ⟨_, _, _, h⟩
    · obtain ⟨rfl, pair, hmem, hname⟩ := objectFields_error rfl
        (fun pair hmem => ⟨(hpairs pair hmem).1, hframe.value (hpairs pair hmem).2⟩)
        (fun index hindex => hcount ▸ List.mem_range.mp hindex) (congrArg Prod.fst h)
      exact .name (nameOperands_buildObject hmem) hname
    · rcases FailState.bind_eq_error.mp h with h | ⟨_, _, _, h⟩ <;> cases h
  | @buildArray count _ _ _ elements hcount helements =>
    obtain ⟨values, hvalues⟩ := hframe.frameValues helements
    change (FailState.lift (frameValues frame elements) >>= _) machine = _ at h
    rw [hvalues, FailState.bind_ok (FailState.lift_run _ _)] at h
    rcases FailState.bind_eq_error.mp h with h | ⟨_, _, _, h⟩ <;> cases h
  | @loadLocal slot _ _ _ hslot =>
    obtain ⟨value, hvalue⟩ := hframe.loadLocal hslot
    change (FailState.lift (frame.loadLocal slot) >>= _) machine = _ at h
    rw [hvalue] at h
    cases h
  | @storeLocal slot value _ _ _ _ hvalue =>
    obtain ⟨found, hfound⟩ := hframe.value hvalue
    change (FailState.lift (frame.value value) >>= _) machine = _ at h
    rw [hfound] at h
    cases h
  | @loadMember object property _ _ _ hobject hproperty =>
    obtain ⟨found, hfound⟩ := hframe.value hobject
    change (FailState.lift (frame.value object) >>= _) machine = _ at h
    rw [hfound, FailState.bind_ok (FailState.lift_run _ _)] at h
    rcases FailState.bind_eq_error.mp h with h | ⟨name, _, _, h⟩
    · obtain ⟨rfl, hname⟩ := symbol_error hproperty (congrArg Prod.fst h)
      exact .name (List.mem_singleton_self _) hname
    · rcases FailState.bind_eq_error.mp h with h | ⟨_, _, _, h⟩
      · cases h
      · rcases FailState.bind_eq_error.mp h with h | ⟨_, _, _, h⟩
        · rcases loadMember_error (congrArg Prod.fst h) with h | rfl
          · exact .heap h
          · exact .read name rfl
        · cases h
  | @storeMember object property value _ _ _ hobject hproperty hvalue =>
    obtain ⟨found, hfound⟩ := hframe.value hobject
    obtain ⟨stored, hstored⟩ := hframe.value hvalue
    change (FailState.lift (frame.value object) >>= _) machine = _ at h
    rw [hfound, FailState.bind_ok (FailState.lift_run _ _)] at h
    rcases FailState.bind_eq_error.mp h with h | ⟨name, u, _, h⟩
    · obtain ⟨rfl, hname⟩ := symbol_error hproperty (congrArg Prod.fst h)
      exact .name (List.mem_singleton_self _) hname
    · change (FailState.lift (frame.value value) >>= _) u = _ at h
      rw [hstored, FailState.bind_ok (FailState.lift_run _ _)] at h
      rcases FailState.bind_eq_error.mp h with h | ⟨_, _, _, h⟩
      · cases h
      · rcases FailState.bind_eq_error.mp h with h | ⟨_, _, _, h⟩
        · rcases storeMember_error (congrArg Prod.fst h) with h | rfl
          · exact .heap h
          · exact .write name rfl
        · rcases FailState.bind_eq_error.mp h with h | ⟨_, _, _, h⟩ <;> cases h
  | @binary op left right _ _ _ hleft hright htag =>
    obtain ⟨x, hx⟩ := hframe.value hleft
    obtain ⟨y, hy⟩ := hframe.value hright
    change (FailState.lift (frame.value left) >>= fun left =>
      FailState.lift (frame.value right) >>= _) machine = _ at h
    rw [hx, hy, FailState.bind_ok (FailState.lift_run _ _),
      FailState.bind_ok (FailState.lift_run _ _)] at h
    rcases FailState.bind_eq_error.mp h with h | ⟨code, _, hcode, h⟩
    · cases h
    · cases hcode
      rcases FailState.bind_eq_error.mp h with h | ⟨_, _, _, h⟩
      · cases h
      · rcases FailState.bind_eq_error.mp h with h | ⟨_, _, _, h⟩
        · rcases binary_error (congrArg Prod.fst h) with h | rfl | ⟨hbig, rfl⟩
          · exact .heap h
          · exact .expectedNumber rfl
          · exact .operator rfl rfl hbig
        · cases h
  | @call callee argc _ _ _ args hcallee hargc hargs =>
    rw [executeInstruction_call rfl] at h
    rcases FailState.bind_eq_error.mp h with h | ⟨_, _, _, h⟩
    · have hop : callOperands m ⟨.call, callee :: argc :: args, _, _⟩ frame = .error e :=
        congrArg Prod.fst h
      rcases Except.bind_eq_error hop with hop | ⟨_, _, hop⟩
      · obtain ⟨rfl, hname⟩ := symbol_error hcallee hop
        exact .name (List.mem_singleton_self _) hname
      · have htaken : ∀ v ∈ args.take argc.toNat, v ∈ s.definedValues :=
          fun v hv => hargs v (List.mem_of_mem_take hv)
        obtain ⟨values, hvalues⟩ := hframe.frameValues htaken
        change (frameValues frame (args.take argc.toNat) >>= _) = _ at hop
        rw [hvalues] at hop
        cases hop
    · rcases FailState.bind_eq_error.mp h with h | ⟨_, _, _, h⟩ <;> cases h
  | @branch condition thenBlock elseBlock _ _ _ hcondition hthen helse =>
    obtain ⟨found, hfound⟩ := hframe.value hcondition
    change (FailState.lift (frame.value condition) >>= _) machine = _ at h
    rw [hfound, FailState.bind_ok (FailState.lift_run _ _)] at h
    rcases FailState.bind_eq_error.mp h with h | ⟨_, _, _, h⟩
    · by_cases htruthy : truthy found = true
      · rw [if_pos htruthy] at h
        cases h
      · rw [if_neg htruthy] at h
        cases h
    · cases h
  | jump => cases h
  | returnVoid => cases h
  | @returnValue value _ _ _ hvalue =>
    obtain ⟨found, hfound⟩ := hframe.value hvalue
    change (FailState.lift (frame.value value) >>= _) machine = _ at h
    rw [hfound] at h
    cases h

theorem CheckedFailure.not_missing {instruction : Instruction} {e : Stop}
    (h : CheckedFailure ν m instruction e) : ¬ MissingReference e := by
  rintro hmissing
  cases h with
  | heap h => cases h <;> cases hmissing
  | _ => cases hmissing

end Failures

@[simp] theorem resize_length (values : List (RuntimeValue ν)) (n : ℕ) :
    (resize values n).length = n := by
  rw [resize, List.length_append, List.length_take, List.length_replicate]
  omega

@[simp] theorem storeLocal_length (frame : Frame ν) (slot : UInt32) (value : RuntimeValue ν) :
    (frame.storeLocal slot value).locals.length = max frame.locals.length (slot.toNat + 1) := by
  by_cases h : frame.locals.length ≤ slot.toNat
  · simp only [Frame.storeLocal, if_pos h, List.length_set, resize_length]
    omega
  · simp only [Frame.storeLocal, if_neg h, List.length_set]
    omega

@[simp] theorem pushValue_length (frame : Frame ν) (value : RuntimeValue ν) :
    (frame.pushValue value).values.length = frame.values.length + 1 := by
  simp [Frame.pushValue]

theorem Checked.effect {m : BytecodeModule} {ids : List UInt32} {instruction : Instruction}
    {s t : BlockState} {frame frame' : Frame ν} (hchecked : Checked m ids instruction s t)
    (heffect : Effect instruction frame .continue frame')
    (hlocals : s.localCount.toNat ≤ frame.locals.length) :
    t.localCount.toNat ≤ frame'.locals.length ∧
      frame'.values.length = frame.values.length + definitions [instruction] ∧
      frame.locals.length ≤ frame'.locals.length := by
  cases heffect with
  | push hop value =>
    cases hchecked with
    | loadConst | buildObject | buildArray | loadLocal | loadMember | binary | call =>
      exact ⟨hlocals, pushValue_length frame value, le_rfl⟩
    | storeLocal | storeMember | branch | jump | returnVoid | returnValue => cases hop
  | @storeLocal slot hop hslot value =>
    cases hchecked with
    | @storeLocal slot' _ _ _ _ hle =>
      cases hslot
      refine ⟨?_, rfl, by rw [storeLocal_length]; omega⟩
      rw [storeLocal_length]
      by_cases heq : slot = s.localCount
      · simp only [BlockState.store, if_pos heq]
        have hadd := UInt32.toNat_add s.localCount 1
        have hone : (1 : UInt32).toNat = 1 := rfl
        have hmod := Nat.mod_le (s.localCount.toNat + (1 : UInt32).toNat) (2 ^ 32)
        rw [← heq] at hadd hmod ⊢
        omega
      · simp only [BlockState.store, if_neg heq]
        omega
    | _ => cases hop
  | storeMember hop =>
    cases hchecked with
    | storeMember => exact ⟨hlocals, rfl, le_rfl⟩
    | _ => cases hop

/-- What holds at every point of a run of an accepted module. -/
structure Verified (m : BytecodeModule) (p : Point ν) : Prop where
  function : p.function ∈ m.functions
  block : p.block ∈ p.function.blocks
  pc : p.pc ≤ p.block.instructions.length
  values : definitions (p.block.instructions.take p.pc) ≤ p.frame.values.length
  locals : (stateBefore m (blockIds p.function) p.block.instructions (blockStart p.function)
    p.pc).localCount.toNat ≤ p.frame.locals.length
  params : p.function.params.length ≤ p.frame.locals.length

section Runs

variable [F64 ν] {m : BytecodeModule} {host : HostEnvironment ν}

theorem blockStart_localCount (function : BytecodeFunction) :
    (blockStart function).localCount.toNat ≤ function.params.length := by
  rw [blockStart, UInt32.toNat_ofNat']
  exact Nat.mod_le _ _

omit [F64 ν] in
theorem Verified.start {function : BytecodeFunction} {block : BytecodeBlock} {id : UInt32}
    {frame : Frame ν} {machine : Machine ν} (hfunction : function ∈ m.functions)
    (hblock : findBlock function id = .ok block)
    (hparams : function.params.length ≤ frame.locals.length) :
    Verified m ⟨function, block, 0, frame, machine⟩ where
  function := hfunction
  block := (findBlock_eq_ok hblock).1
  pc := Nat.zero_le _
  values := Nat.zero_le _
  locals := Nat.le_trans (blockStart_localCount function) hparams
  params := hparams

omit [F64 ν] in
theorem Verified.of_starts {p : Point ν} (h : Starts m p) : Verified m p := by
  obtain ⟨function, hfunction, block, args, machine, hblock, rfl⟩ := h
  exact .start hfunction hblock (by simp [Frame.new])

omit [F64 ν] in
theorem Verified.checked (haccepted : Accepted m) {p : Point ν} (h : Verified m p)
    {instruction : Instruction} (hi : p.instruction = some instruction) :
    Checked m (blockIds p.function) instruction
      (stateBefore m (blockIds p.function) p.block.instructions (blockStart p.function) p.pc)
      (stateBefore m (blockIds p.function) p.block.instructions (blockStart p.function)
        (p.pc + 1)) := by
  have hfunction := ((accepted_iff_parts m).mp haccepted).function p.function h.function
  exact (checked_at (hfunction.blocks p.block h.block) hi).2

omit [F64 ν] in
theorem Verified.supplies (haccepted : Accepted m) {p : Point ν} (h : Verified m p) :
    Supplies p.frame (stateBefore m (blockIds p.function) p.block.instructions
      (blockStart p.function) p.pc) := by
  have hfunction := ((accepted_iff_parts m).mp haccepted).function p.function h.function
  have hnumbered := numbered_before (hfunction.blocks p.block h.block) p.pc h.pc
  refine ⟨fun v hv => ?_, h.locals⟩
  have hlt := (hnumbered.1 v).mp hv
  exact Nat.lt_of_lt_of_le hlt h.values

theorem Verified.step (haccepted : Accepted m) {p q : Point ν} (h : Verified m p)
    (hstep : Step m host p q) : Verified m q := by
  cases hstep with
  | next hnext =>
    obtain ⟨frame, machine, hexec, rfl⟩ := hnext
    obtain ⟨instruction, hi, heffect⟩ := hexec.effect
    obtain ⟨hlocals, hvalues, hgrow⟩ := Checked.effect (h.checked haccepted hi) heffect h.locals
    have hdefinitions := definitions_take_succ hi
    have hprev := h.values
    refine ⟨h.function, h.block, (List.getElem?_eq_some_iff.mp hi).1, ?_, hlocals,
      Nat.le_trans h.params hgrow⟩
    simp only [Point.after]
    omega
  | jump hexec hblock =>
    obtain ⟨instruction, hi, heffect⟩ := hexec.effect
    refine .start h.function hblock ?_
    cases heffect <;> exact h.params
  | call hcalls henter => exact .of_starts henter.starts

theorem Verified.reachable (haccepted : Accepted m) {p : Point ν} (h : Reachable m host p) :
    Verified m p :=
  h.induction (fun _ => .of_starts) fun _ _ hp hstep => hp.step haccepted hstep

omit [F64 ν] in
theorem refuses_not_missing {name : String} {args : List (RuntimeValue ν)} {s : Machine ν}
    {e : Stop} (h : Refuses m host name args s e) : ¬ MissingReference e := by
  rintro hmissing
  rcases h with h | ⟨function, t, _, h⟩
  · rcases dispatch_error h with h | ⟨error, rfl⟩ | rfl
    · cases h <;> cases hmissing
    · cases hmissing
    · cases hmissing
  · obtain ⟨rfl, _⟩ := findBlock_error h
    cases hmissing

theorem Fails.not_missing (haccepted : Accepted m) {p : Point ν} (hp : Verified m p) {e : Stop}
    (h : Fails m host p e) : ¬ MissingReference e := by
  cases h with
  | instruction hi h =>
    exact (Checked.failure (hp.checked haccepted hi) (hp.supplies haccepted) h).not_missing
  | call hcalls hrefuse => exact refuses_not_missing hrefuse
  | jump hexec hblock =>
    obtain ⟨rfl, _⟩ := findBlock_error hblock
    rintro ⟨⟩

/-- A call of a function of an accepted module, in any state, finds every operand. -/
theorem callFunction_references (haccepted : Accepted m) {fuel : ℕ} {name : String}
    {args : List (RuntimeValue ν)} {s : Machine ν} {e : Stop}
    (h : (callFunction m host fuel name args s).1 = .error e) : ¬ MissingReference e := by
  have hends := callFunction_ends m host fuel name args s
  rw [h] at hends
  rcases hends with rfl | hrefuse | ⟨p, q, henter, hreach, hfails⟩
  · rintro ⟨⟩
  · exact refuses_not_missing hrefuse
  · exact Fails.not_missing haccepted (.reachable haccepted ⟨p, henter.starts, hreach⟩) hfails

theorem execute_error {fuel : ℕ} {s : Machine ν} {e : Stop}
    (h : (execute m host fuel s).1 = .error e) :
    (callFunction m host fuel "__entry" [] s).1 = .error e ∨ HeapFailure e := by
  obtain ⟨t, h⟩ : ∃ t, execute m host fuel s = (.error e, t) := ⟨_, Prod.ext h rfl⟩
  rcases FailState.bind_eq_error.mp h with h | ⟨_, _, _, h⟩
  · exact .inl (congrArg Prod.fst h)
  · rcases FailState.bind_eq_error.mp h with h | ⟨_, _, _, h⟩
    · cases h
    · rcases FailState.bind_eq_error.mp h with h | ⟨_, _, _, h⟩
      · cases h
      · rcases FailState.bind_eq_error.mp h with h | ⟨_, _, _, h⟩
        · obtain ⟨value, _, h⟩ := Except.mapM_eq_error (congrArg Prod.fst h)
          exact .inr (materialize_error h)
        · rcases FailState.bind_eq_error.mp h with h | ⟨_, _, _, h⟩
          · exact .inr (materialize_error (congrArg Prod.fst h))
          · cases h

/-- Running an accepted module never meets an operand that refers to nothing, and
    no frame of a run does. -/
theorem executeModule_references (haccepted : Accepted m) :
    (∀ fuel e, executeModuleWithHost m host fuel = .error e → ¬ MissingReference e) ∧
      ∀ p, Reachable m host p → ∀ e, Fails m host p e → ¬ MissingReference e := by
  refine ⟨fun fuel e h => ?_, fun p hp e => Fails.not_missing haccepted (.reachable haccepted hp)⟩
  rw [executeModuleWithHost, show verifyModule m = .ok () from haccepted] at h
  rcases execute_error h with h | h
  · exact callFunction_references haccepted h
  · rintro ⟨⟩ <;> cases h

end Runs

def mainRef : SourceRef := ⟨0, 1, 1, 1, 1, 2⟩

def loadTrue : Instruction := ⟨.loadConst, [0], .boolean, 0⟩

def returnVoid : Instruction := ⟨.return, [], .undefined, 0⟩

def entryModule (constants : List Constant) (blocks : List BytecodeBlock) : BytecodeModule where
  header := currentHeader
  constants := constants
  functions := [⟨"__entry", [], .undefined, blocks, []⟩]
  sourceMap := [mainRef]

/-- A recursive function that stores a local and leaves by one of two arms. -/
def armsModule : BytecodeModule where
  header := currentHeader
  constants := [.boolean true, .string "left", .symbol "__entry"]
  functions := [⟨"__entry", [.boolean], .unknown,
    [⟨0, [⟨.loadLocal, [0], .boolean, 0⟩, ⟨.storeLocal, [1, 0], .boolean, 0⟩,
        ⟨.branch, [0, 1, 7], .undefined, 0⟩]⟩,
      ⟨7, [⟨.loadConst, [0], .boolean, 0⟩, ⟨.call, [2, 1, 0], .unknown, 0⟩,
        ⟨.return, [1], .undefined, 0⟩]⟩,
      ⟨1, [⟨.loadConst, [1], .string, 0⟩, ⟨.jump, [0], .undefined, 0⟩]⟩], []⟩]
  sourceMap := [mainRef]

theorem armsModule_references :
    (∀ fuel e, executeModuleWithHost armsModule (.new : HostEnvironment Int) fuel = .error e →
        ¬ MissingReference e) ∧
      ∀ p, Reachable armsModule (.new : HostEnvironment Int) p → ∀ e,
        Fails armsModule .new p e → ¬ MissingReference e :=
  executeModule_references rfl

end Tsvm.VerifiedReferences
