import Tsvm.VerifiedReferences

set_option autoImplicit false

/-!
# What a value operand denotes

The verifier numbers values from zero in every block, a frame from zero in every
activation. The two agree on an execution of a block that starts before the
activation has pushed a value, and on no other that uses one.
-/
namespace Tsvm.VerifiedValues
open Bytecode BytecodeVerifier BytecodeVerifierFacts Interop RuntimeValues Interpreter
  InterpreterSteps RuntimeFailures VerifiedReferences Relation

def valueOperands (instruction : Instruction) : List UInt32 :=
  match instruction.opcode with
  | .buildObject => (chunkPairs instruction.operands.tail).filterMap Prod.snd
  | .buildArray => instruction.operands.tail
  | .storeLocal => instruction.operands[1]?.toList
  | .loadMember | .branch | .return => instruction.operands[0]?.toList
  | .storeMember => instruction.operands[0]?.toList ++ instruction.operands[2]?.toList
  | .binary => instruction.operands[1]?.toList ++ instruction.operands[2]?.toList
  | .call => instruction.operands.drop 2
  | .loadConst | .loadLocal | .jump => []

variable {ν : Type}

def Uses (p : Point ν) (v : UInt32) : Prop :=
  ∃ instruction, p.instruction = some instruction ∧ v ∈ valueOperands instruction

def Defines (d : Point ν) (v : UInt32) : Prop :=
  (∃ instruction, d.instruction = some instruction ∧ definesValue instruction.opcode = true) ∧
    definitions (d.block.instructions.take d.pc) = v.toNat

variable [F64 ν]

section

variable (m : BytecodeModule) (host : HostEnvironment ν)

/-- At `p` the value `v` is the one that was pushed at `d`. -/
def Denotes (d d' p : Point ν) (v : UInt32) : Prop :=
  ∃ value, d'.frame = d.frame.pushValue value ∧ d.frame.values.length = v.toNat ∧
    p.frame.value v = .ok value

/-- In the execution of a block that starts at `e`, a use of a value gets what
    the instruction that defines the value in this execution has pushed. -/
def Agrees (e : Point ν) : Prop :=
  ∀ p v, Within m host e p → Uses p v →
    ∃ d d', Within m host e d ∧ Defines d v ∧ Next m host d d' ∧ Within m host d' p ∧
      Denotes d d' p v

end

variable {m : BytecodeModule} {host : HostEnvironment ν}

omit [F64 ν] in
theorem Checked.uses {ids : List UInt32} {instruction : Instruction} {s t : BlockState}
    (hchecked : Checked m ids instruction s t) {v : UInt32}
    (hv : v ∈ valueOperands instruction) : v ∈ s.definedValues := by
  cases hchecked with
  | loadConst => cases hv
  | buildObject hcount hpairs =>
    simp only [valueOperands, List.tail_cons, chunkPairs_flattenPairs, List.filterMap_map] at hv
    obtain ⟨pair, hmem, hpair⟩ := List.mem_filterMap.mp hv
    cases hpair
    exact (hpairs pair hmem).2
  | buildArray hcount helements => exact helements v hv
  | loadLocal => cases hv
  | storeLocal hslot hvalue =>
    obtain rfl := List.mem_singleton.mp hv
    exact hvalue
  | loadMember hobject =>
    obtain rfl := List.mem_singleton.mp hv
    exact hobject
  | storeMember hobject hproperty hvalue =>
    simp only [valueOperands, List.mem_append] at hv
    rcases hv with hv | hv
    · obtain rfl := List.mem_singleton.mp hv
      exact hobject
    · obtain rfl := List.mem_singleton.mp hv
      exact hvalue
  | binary hleft hright =>
    simp only [valueOperands, List.mem_append] at hv
    rcases hv with hv | hv
    · obtain rfl := List.mem_singleton.mp hv
      exact hleft
    · obtain rfl := List.mem_singleton.mp hv
      exact hright
  | call hcallee hargc hargs => exact hargs v hv
  | branch hcondition =>
    obtain rfl := List.mem_singleton.mp hv
    exact hcondition
  | jump => cases hv
  | returnVoid => cases hv
  | returnValue hvalue =>
    obtain rfl := List.mem_singleton.mp hv
    exact hvalue

theorem next_values {p q : Point ν} (h : Next m host p q) :
    ∃ instruction, p.instruction = some instruction ∧
      q.frame.values.length = p.frame.values.length + definitions [instruction] ∧
      p.frame.values <+: q.frame.values := by
  obtain ⟨frame, machine, hexec, rfl⟩ := h
  obtain ⟨instruction, hi, heffect⟩ := hexec.effect
  refine ⟨instruction, hi, ?_⟩
  cases heffect with
  | push hop value =>
    have hone : definitions [instruction] = 1 := by simp [definitions, hop]
    exact ⟨by simp [Point.after, hone], List.prefix_append _ _⟩
  | storeLocal hop hslot value =>
    have hzero : definitions [instruction] = 0 := by simp [definitions, hop, definesValue]
    exact ⟨by rw [hzero]; rfl, List.prefix_rfl⟩
  | storeMember hop =>
    have hzero : definitions [instruction] = 0 := by simp [definitions, hop, definesValue]
    exact ⟨by rw [hzero]; rfl, List.prefix_rfl⟩

theorem next_pc {p q : Point ν} (h : Next m host p q) : q.pc = p.pc + 1 := by
  obtain ⟨frame, machine, _, rfl⟩ := h
  rfl

theorem within_values {e p : Point ν} (h : Within m host e p) (hpc : e.pc = 0) :
    p.frame.values.length =
        e.frame.values.length + definitions (p.block.instructions.take p.pc) ∧
      e.frame.values <+: p.frame.values := by
  induction h with
  | refl => exact ⟨by rw [hpc]; rfl, List.prefix_rfl⟩
  | tail hwithin hnext ih =>
    obtain ⟨instruction, hi, hlength, hprefix⟩ := next_values hnext
    have hdefinitions := definitions_take_succ hi
    refine ⟨?_, ih.2.trans hprefix⟩
    rw [hnext.same.2, next_pc hnext]
    omega

theorem within_prefix {e p : Point ν} (h : Within m host e p) :
    e.frame.values <+: p.frame.values := by
  induction h with
  | refl => exact List.prefix_rfl
  | tail _ hnext ih =>
    obtain ⟨_, _, _, hprefix⟩ := next_values hnext
    exact ih.trans hprefix

theorem exists_definer {e p : Point ν} (h : Within m host e p) (hpc : e.pc = 0)
    {v : UInt32} (hv : v.toNat < definitions (p.block.instructions.take p.pc)) :
    ∃ d d', Within m host e d ∧ Defines d v ∧ Next m host d d' ∧ Within m host d' p := by
  induction h with
  | refl =>
    rw [hpc] at hv
    cases hv
  | @tail p q hwithin hnext ih =>
    obtain ⟨instruction, hi, _, _⟩ := next_values hnext
    have hdefinitions := definitions_take_succ hi
    rw [hnext.same.2, next_pc hnext, hdefinitions] at hv
    by_cases hbefore : v.toNat < definitions (p.block.instructions.take p.pc)
    · obtain ⟨d, d', hd, hdefines, hpush, hrest⟩ := ih hbefore
      exact ⟨d, d', hd, hdefines, hpush, hrest.tail hnext⟩
    · have hle : definitions [instruction] ≤ 1 := List.countP_le_length
      have hop : definesValue instruction.opcode = true := by
        by_contra hnot
        have hzero : definitions [instruction] = 0 := by simp [definitions, hnot]
        omega
      exact ⟨p, q, hwithin, ⟨⟨instruction, hi, hop⟩, by omega⟩, hnext, .refl⟩

theorem next_pushes {d d' : Point ν} {v : UInt32} (h : Next m host d d') (hdefines : Defines d v) :
    ∃ value, d'.frame = d.frame.pushValue value := by
  obtain ⟨frame, machine, hexec, rfl⟩ := h
  obtain ⟨instruction, hi, heffect⟩ := hexec.effect
  obtain ⟨⟨instruction', hi', hop⟩, _⟩ := hdefines
  rw [hi] at hi'
  cases hi'
  cases heffect with
  | push _ value => exact ⟨value, rfl⟩
  | storeLocal hstore => rw [hstore] at hop; cases hop
  | storeMember hstore => rw [hstore] at hop; cases hop

/-- A definition and a later use agree exactly when the execution of the block
    started without values. -/
theorem denotes_iff {e d d' p : Point ν} {v : UInt32} (hpc : e.pc = 0) (hd : Within m host e d)
    (hdefines : Defines d v) (hnext : Next m host d d') (hp : Within m host d' p) :
    Denotes d d' p v ↔ e.frame.values = [] := by
  have hlength := (within_values hd hpc).1
  rw [hdefines.2] at hlength
  constructor
  · rintro ⟨_, _, hslot, _⟩
    exact List.length_eq_zero_iff.mp (by omega)
  · intro hempty
    obtain ⟨value, hpush⟩ := next_pushes hnext hdefines
    rw [hempty, List.length_nil, Nat.zero_add] at hlength
    refine ⟨value, hpush, hlength, ?_⟩
    obtain ⟨rest, hrest⟩ := within_prefix hp
    have hget : p.frame.values[v.toNat]? = some value := by
      rw [← hrest, hpush, Frame.pushValue, ← hlength]
      simp
    rw [Frame.value, hget]

/-- In a run of an accepted module the verifier's numbering of the values and
    the frame's agree in an execution of a block that comes to use a value
    exactly when it starts before the activation has pushed one. -/
theorem callFunction_agrees_iff (haccepted : Accepted m) (name : String)
    (args : List (RuntimeValue ν)) (s : Machine ν) :
    (∀ e, Passes m host name args s e → e.pc = 0 → Agrees m host e) ↔
      ∀ e, Passes m host name args s e → e.pc = 0 →
        (∃ p v, Within m host e p ∧ Uses p v) → e.frame.values = [] := by
  constructor
  · rintro h e hpasses hpc ⟨p, v, hp, huses⟩
    obtain ⟨d, d', hd, hdefines, hnext, hrest, hdenotes⟩ := h e hpasses hpc p v hp huses
    exact (denotes_iff hpc hd hdefines hnext hrest).mp hdenotes
  · intro h e hpasses hpc p v hp huses
    obtain ⟨start, henter, hreach⟩ := hpasses
    have hreachable : Reachable m host p := ⟨start, henter.starts, hreach.trans hp.reaches⟩
    have hverified := Verified.reachable haccepted hreachable
    obtain ⟨instruction, hi, hv⟩ := huses
    have hdefined := Checked.uses (hverified.checked haccepted hi) hv
    have hfunction := ((accepted_iff_parts m).mp haccepted).function p.function hverified.function
    have hnumbered := numbered_before (hfunction.blocks p.block hverified.block) p.pc hverified.pc
    obtain ⟨d, d', hd, hdefines, hnext, hrest⟩ :=
      exists_definer hp hpc ((hnumbered.1 v).mp hdefined)
    have hempty := h e ⟨start, henter, hreach⟩ hpc ⟨p, v, hp, instruction, hi, hv⟩
    exact ⟨d, d', hd, hdefines, hnext, hrest,
      (denotes_iff hpc hd hdefines hnext hrest).mpr hempty⟩

def slotBlock : BytecodeBlock :=
  ⟨1, [⟨.loadConst, [1], .string, 0⟩, ⟨.return, [0], .undefined, 0⟩]⟩

def slotModule : BytecodeModule :=
  entryModule [.boolean true, .string "own"]
    [⟨0, [loadTrue, ⟨.jump, [1], .undefined, 0⟩]⟩, slotBlock]

def slotFunction : BytecodeFunction :=
  ⟨"__entry", [], .undefined, [⟨0, [loadTrue, ⟨.jump, [1], .undefined, 0⟩]⟩, slotBlock], []⟩

def slotPoint (block : BytecodeBlock) (pc : ℕ) (values : List (RuntimeValue Int)) : Point Int :=
  ⟨slotFunction, block, pc, ⟨[], values⟩, .new⟩

theorem slotModule_disagrees :
    verifyModule slotModule = .ok () ∧
      (callFunction slotModule (.new : HostEnvironment Int) 2 "__entry" [] .new).1 =
        .ok (.boolean true) ∧
      Passes slotModule .new "__entry" [] .new (slotPoint slotBlock 0 [.boolean true]) ∧
      ¬ Agrees slotModule .new (slotPoint slotBlock 0 [.boolean true]) := by
  refine ⟨rfl, rfl, ?_, fun hagrees => ?_⟩
  · have hload : Step slotModule .new
        (slotPoint ⟨0, [loadTrue, ⟨.jump, [1], .undefined, 0⟩]⟩ 0 [])
        (slotPoint ⟨0, [loadTrue, ⟨.jump, [1], .undefined, 0⟩]⟩ 1 [.boolean true]) :=
      .next ⟨⟨[], [.boolean true]⟩, .new, ⟨loadTrue, 0, rfl, rfl⟩, rfl⟩
    have hjump : Step slotModule .new
        (slotPoint ⟨0, [loadTrue, ⟨.jump, [1], .undefined, 0⟩]⟩ 1 [.boolean true])
        (slotPoint slotBlock 0 [.boolean true]) :=
      .jump ⟨⟨.jump, [1], .undefined, 0⟩, 0, rfl, rfl⟩ rfl
    exact ⟨_, ⟨slotFunction, _, .new, rfl, rfl, rfl⟩, .tail (.single hload) hjump⟩
  · have hnext : Next slotModule .new (slotPoint slotBlock 0 [.boolean true])
        (slotPoint slotBlock 1 [.boolean true, .string "own"]) :=
      ⟨⟨[], [.boolean true, .string "own"]⟩, .new, ⟨⟨.loadConst, [1], .string, 0⟩, 0, rfl, rfl⟩,
        rfl⟩
    obtain ⟨d, d', hd, hdefines, hpush, hrest, hdenotes⟩ :=
      hagrees _ 0 (.single hnext) ⟨⟨.return, [0], .undefined, 0⟩, rfl, List.mem_singleton_self _⟩
    have hempty := (denotes_iff rfl hd hdefines hpush hrest).mp hdenotes
    cases hempty

theorem armsModule_agrees_iff :
    (∀ e, Passes armsModule (.new : HostEnvironment Int) "__entry" [.boolean true] .new e →
        e.pc = 0 → Agrees armsModule .new e) ↔
      ∀ e, Passes armsModule (.new : HostEnvironment Int) "__entry" [.boolean true] .new e →
        e.pc = 0 → (∃ p v, Within armsModule .new e p ∧ Uses p v) → e.frame.values = [] :=
  have haccepted : Accepted armsModule := rfl
  callFunction_agrees_iff haccepted "__entry" _ _

end Tsvm.VerifiedValues
