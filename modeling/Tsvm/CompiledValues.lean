import Tsvm.CompiledCode
import Tsvm.Pipeline
import Tsvm.VerifiedValues

set_option autoImplicit false

/-!
# Value ids of the compiled code

The lowerer numbers the values of a function in the order of its source, a frame
in the order the activation computes them. An operand finds the value it is meant
to find exactly on the paths that have computed every value numbered before it.
-/
namespace Tsvm.CompiledValues
open Bytecode BytecodeVerifier BytecodeVerifierFacts Ir Lowering Compilation Interop RuntimeValues
  Interpreter InterpreterSteps LoweringCode LoweringBlocks CompiledCode VerifiedValues Relation

variable {ν : Type}

section

variable [F64 ν] (m : BytecodeModule) (host : HostEnvironment ν)

inductive Flow (p : Point ν) : Point ν → Prop where
  | next {q : Point ν} (h : Next m host p q) : Flow p q
  | jump {target : UInt32} {frame : Frame ν} {machine : Machine ν} {block : BytecodeBlock}
      (h : Executes m host p (.jump target) frame machine)
      (hblock : findBlock p.function target = .ok block) :
      Flow p ⟨p.function, block, 0, frame, machine⟩

/-- A path through the blocks of one activation. -/
abbrev Path : Point ν → Point ν → Prop := ReflTransGen (Flow m host)

end

def Begins (compiled : BytecodeFunction) (start : Point ν) : Prop :=
  ∃ block args machine, findBlock compiled 0 = .ok block ∧
    start = entry compiled block args machine

def irCode (function : IrFunction) (p : Point ν) : List IrInstruction :=
  ((function.blocks[p.block.id.toNat]?).map IrBlock.instructions).getD []

def irInstruction (function : IrFunction) (p : Point ν) : Option IrInstruction :=
  (irCode function p)[p.pc]?

def HasOperand (function : IrFunction) (p : Point ν) (v : ℕ) : Prop :=
  ∃ instruction, irInstruction function p = some instruction ∧ v ∈ values instruction.kind

def HasResult (function : IrFunction) (d : Point ν) (v : ℕ) : Prop :=
  ∃ instruction, irInstruction function d = some instruction ∧ instruction.result = some v

section

variable [F64 ν] (m : BytecodeModule) (host : HostEnvironment ν) (function : IrFunction)

def Computes (start p : Point ν) (v : ℕ) : Prop :=
  ∃ d d', Path m host start d ∧ HasResult function d v ∧ Next m host d d' ∧ Path m host d' p

/-- The value the path has computed for `v` is the entry `v` of the frame at `p`. -/
def Survives (start p : Point ν) (v : ℕ) : Prop :=
  ∃ d d' value, Path m host start d ∧ HasResult function d v ∧ Next m host d d' ∧
    Path m host d' p ∧ d'.frame = d.frame.pushValue value ∧ d.frame.values.length = v ∧
    p.frame.values[v]? = some value

end

variable [F64 ν] {m : BytecodeModule} {host : HostEnvironment ν}

theorem executes_unique {p : Point ν} {flow flow' : ControlFlow ν} {frame frame' : Frame ν}
    {s s' : Machine ν} (h : Executes m host p flow frame s)
    (h' : Executes m host p flow' frame' s') : flow = flow' ∧ frame = frame' ∧ s = s' := by
  obtain ⟨instruction, k, hi, hexec⟩ := h
  obtain ⟨instruction', k', hi', hexec'⟩ := h'
  rw [hi] at hi'
  cases hi'
  have hlarger := (executeInstruction_extends
    (callFunction_extends m host (Nat.le_max_left k k')) instruction p.frame).ok
      hexec
  have hlarger' := (executeInstruction_extends
    (callFunction_extends m host (Nat.le_max_right k k')) instruction p.frame).ok
      hexec'
  rw [hlarger] at hlarger'
  cases hlarger'
  exact ⟨rfl, rfl, rfl⟩

theorem Flow.unique {p q q' : Point ν} (h : Flow m host p q) (h' : Flow m host p q') : q = q' := by
  cases h with
  | next hnext =>
    obtain ⟨frame, machine, hexec, rfl⟩ := hnext
    cases h' with
    | next hnext' =>
      obtain ⟨frame', machine', hexec', rfl⟩ := hnext'
      obtain ⟨_, rfl, rfl⟩ := executes_unique hexec hexec'
      rfl
    | jump hexec' _ => cases (executes_unique hexec hexec').1
  | jump hexec hblock =>
    cases h' with
    | next hnext' =>
      obtain ⟨frame', machine', hexec', rfl⟩ := hnext'
      cases (executes_unique hexec hexec').1
    | jump hexec' hblock' =>
      obtain ⟨htarget, rfl, rfl⟩ := executes_unique hexec hexec'
      cases htarget
      rw [hblock] at hblock'
      cases hblock'
      rfl

theorem path_total {start p q : Point ν} (hp : Path m host start p) (hq : Path m host start q) :
    Path m host p q ∨ Path m host q p :=
  ReflTransGen.total_of_right_unique (fun _ _ _ h h' => h.unique h') hp hq

theorem within_path {p q : Point ν} (h : Within m host p q) : Path m host p q :=
  ReflTransGen.mono (fun _ _ => Flow.next) _ _ h

/-- `p` is a point of an activation of the compiled function. -/
structure Placed (function : IrFunction) (compiled : BytecodeFunction) (p : Point ν) : Prop where
  runs : p.function = compiled
  inside : p.block.id.toNat < function.blocks.length
  code : List.Forall₂ Compiles (irCode function p) p.block.instructions

def number (function : IrFunction) (offset : ℕ → ℕ) (p : Point ν) : ℕ :=
  offset p.block.id.toNat + results ((irCode function p).take p.pc)

/-- From `p` to `q` no more values are computed than are numbered. -/
structure Ahead (function : IrFunction) (offset : ℕ → ℕ) (p q : Point ν) : Prop where
  length : p.frame.values.length ≤ q.frame.values.length
  number : number function offset p + q.frame.values.length ≤
    CompiledValues.number function offset q + p.frame.values.length

omit [F64 ν] in
theorem Ahead.trans {function : IrFunction} {offset : ℕ → ℕ} {p q r : Point ν}
    (h : Ahead function offset p q) (h' : Ahead function offset q r) :
    Ahead function offset p r := by
  have hlength := h.length
  have hnumber := h.number
  have hlength' := h'.length
  have hnumber' := h'.number
  exact ⟨by omega, by omega⟩

section

variable {function : IrFunction} {c : Compiler} {offset : ℕ → ℕ}

omit [F64 ν] in
theorem findBlock_placed (hblocks : function.blocks.length ≤ 2 ^ 32)
    (hnumbering : Numbering function offset) {target : UInt32} {block : BytecodeBlock}
    (h : findBlock (compileFunction function c).1 target = .ok block) (p : Point ν)
    (hfunction : p.function = (compileFunction function c).1) (hblock : p.block = block) :
    Placed function (compileFunction function c).1 p ∧ p.block.id = target := by
  obtain ⟨hmem, hid⟩ := findBlock_eq_ok h
  obtain ⟨k, hk⟩ := List.getElem?_of_mem hmem
  obtain ⟨irBlock, hirBlock, hcompiledId, hcode⟩ :=
    forall₂_getElem? (compileFunction_forall₂ function c) hk
  have hlt : k < function.blocks.length := (List.getElem?_eq_some_iff.mp hirBlock).1
  have htoNat : p.block.id.toNat = k := by
    rw [hblock, hcompiledId, hnumbering.ids k irBlock hirBlock, UInt32.toNat_ofNat']
    exact Nat.mod_eq_of_lt (by omega)
  refine ⟨⟨hfunction, by omega, ?_⟩, by rw [hblock, hid]⟩
  rw [irCode, htoNat, hirBlock, hblock]
  exact hcode

omit [F64 ν] in
theorem Begins.placed (hblocks : function.blocks.length ≤ 2 ^ 32)
    (hnumbering : Numbering function offset) {start : Point ν}
    (h : Begins (compileFunction function c).1 start) :
    Placed function (compileFunction function c).1 start ∧
      number function offset start = 0 ∧ start.frame.values = [] ∧ start.pc = 0 := by
  obtain ⟨block, args, machine, hblock, rfl⟩ := h
  obtain ⟨hplaced, hid⟩ := findBlock_placed hblocks hnumbering hblock
    (entry (compileFunction function c).1 block args machine) rfl rfl
  refine ⟨hplaced, ?_, rfl, rfl⟩
  rw [number, hid]
  exact hnumbering.first

omit [F64 ν] in
theorem Placed.numbered {compiled : BytecodeFunction} {p : Point ν}
    (h : Placed function compiled p) (hnumbering : Numbering function offset)
    {instruction : IrInstruction} (hi : irInstruction function p = some instruction) :
    (∀ v ∈ values instruction.kind, offset p.block.id.toNat ≤ v ∧ v < number function offset p) ∧
      instruction.result =
        (if produces instruction.kind then some (number function offset p) else none) := by
  obtain ⟨block, hblock⟩ : ∃ block, function.blocks[p.block.id.toNat]? = some block :=
    ⟨_, List.getElem?_eq_getElem h.inside⟩
  have hcode : irCode function p = block.instructions := by
    rw [irCode, hblock]
    rfl
  have hnumbered := hnumbering.numbered _ _ hblock
  rw [← hcode] at hnumbered
  exact hnumbered.at hi

omit [F64 ν] in
theorem Placed.instruction {compiled : BytecodeFunction} {p : Point ν}
    (h : Placed function compiled p) {compiledInstruction : Instruction}
    (hi : p.instruction = some compiledInstruction) :
    ∃ instruction, irInstruction function p = some instruction ∧
      Compiles instruction compiledInstruction :=
  forall₂_getElem? h.code hi

theorem Placed.next {compiled : BytecodeFunction} {p q : Point ν} (h : Placed function compiled p)
    (hnext : Next m host p q) : Placed function compiled q := by
  obtain ⟨hfunction, hblock⟩ := hnext.same
  exact ⟨hfunction.trans h.runs, by rw [hblock]; exact h.inside, by
    rw [irCode, hblock]
    exact h.code⟩

theorem Placed.next_number (offset : ℕ → ℕ) {compiled : BytecodeFunction} {p q : Point ν}
    (h : Placed function compiled p) (hnext : Next m host p q) :
    ∃ instruction, irInstruction function p = some instruction ∧
      number function offset q = number function offset p + results [instruction] ∧
      q.frame.values.length = p.frame.values.length + results [instruction] := by
  obtain ⟨compiledInstruction, hi, hlength, _⟩ := next_values hnext
  obtain ⟨instruction, hinstruction, hcompiles⟩ := h.instruction hi
  refine ⟨instruction, hinstruction, ?_, ?_⟩
  · have hcode : irCode function q = irCode function p := by rw [irCode, hnext.same.2, irCode]
    rw [number, hcode, hnext.same.2, next_pc hnext, results_take_succ hinstruction,
      ← Nat.add_assoc]
    rfl
  · rw [hlength, hcompiles.definitions]

theorem Placed.jump_number (hblocks : function.blocks.length ≤ 2 ^ 32) {p : Point ν}
    (h : Placed function (compileFunction function c).1 p) (hnumbering : Numbering function offset)
    {target : UInt32} {frame : Frame ν} {machine : Machine ν} {block : BytecodeBlock}
    (hexec : Executes m host p (.jump target) frame machine)
    (hblock : findBlock p.function target = .ok block) :
    let q : Point ν := ⟨p.function, block, 0, frame, machine⟩
    Placed function (compileFunction function c).1 q ∧
      number function offset p ≤ number function offset q ∧
      q.frame.values = p.frame.values := by
  obtain ⟨compiledInstruction, hi, heffect⟩ := hexec.effect
  obtain ⟨instruction, hinstruction, hcompiles⟩ := h.instruction hi
  rw [h.runs] at hblock
  obtain ⟨hplaced, hid⟩ := findBlock_placed hblocks hnumbering hblock
    (⟨p.function, block, 0, frame, machine⟩ : Point ν) h.runs rfl
  have hframe : frame = p.frame := by cases heffect <;> rfl
  refine ⟨hplaced, ?_, by rw [hframe]⟩
  have hoperand : compiledInstruction.opcode = .branch ∧
        (compiledInstruction.operands[1]? = some target ∨
          compiledInstruction.operands[2]? = some target) ∨
      compiledInstruction.opcode = .jump ∧ compiledInstruction.operands[0]? = some target := by
    cases heffect with
    | branch hop htarget => exact .inl ⟨hop, htarget⟩
    | jump hop htarget => exact .inr ⟨hop, htarget⟩
  obtain ⟨t, ht, htarget⟩ := hcompiles.targets hoperand
  obtain ⟨irBlock, hirBlock⟩ : ∃ irBlock, function.blocks[p.block.id.toNat]? = some irBlock :=
    ⟨_, List.getElem?_eq_getElem h.inside⟩
  have hcode : irCode function p = irBlock.instructions := by
    rw [irCode, hirBlock]
    rfl
  have hmem : instruction ∈ irBlock.instructions := by
    rw [← hcode]
    exact List.mem_of_getElem? hinstruction
  obtain ⟨hlt, hedge⟩ := hnumbering.edges _ _ hirBlock instruction hmem t ht
  have htoNat : block.id.toNat = t := by
    change block.id = target at hid
    rw [hid, htarget, UInt32.toNat_ofNat']
    exact Nat.mod_eq_of_lt (by omega)
  have hle := results_take_le irBlock.instructions p.pc
  change number function offset p ≤ offset block.id.toNat + results (List.take 0 _)
  rw [number, hcode, htoNat, List.take_zero, results_nil]
  omega

theorem Placed.flow (hblocks : function.blocks.length ≤ 2 ^ 32)
    (hnumbering : Numbering function offset) {p q : Point ν}
    (h : Placed function (compileFunction function c).1 p) (hflow : Flow m host p q) :
    Placed function (compileFunction function c).1 q ∧ Ahead function offset p q := by
  cases hflow with
  | next hnext =>
    obtain ⟨instruction, _, hnumber, hlength⟩ := h.next_number offset hnext
    exact ⟨h.next hnext, by omega, by omega⟩
  | jump hexec hblock =>
    obtain ⟨hplaced, hnumber, hvalues⟩ := h.jump_number hblocks hnumbering hexec hblock
    refine ⟨hplaced, ?_, ?_⟩
    · rw [hvalues]
    · rw [hvalues]
      omega

theorem Placed.path (hblocks : function.blocks.length ≤ 2 ^ 32)
    (hnumbering : Numbering function offset) {p q : Point ν}
    (h : Placed function (compileFunction function c).1 p) (hpath : Path m host p q) :
    Placed function (compileFunction function c).1 q ∧ Ahead function offset p q := by
  induction hpath with
  | refl => exact ⟨h, Nat.le_refl _, Nat.le_refl _⟩
  | tail _ hflow ih =>
    obtain ⟨hplaced, hahead⟩ := ih
    obtain ⟨hplaced', hahead'⟩ := hplaced.flow hblocks hnumbering hflow
    exact ⟨hplaced', hahead.trans hahead'⟩

theorem path_values {p q : Point ν} (h : Path m host p q) : p.frame.values <+: q.frame.values := by
  induction h with
  | refl => exact List.prefix_rfl
  | tail _ hflow ih =>
    cases hflow with
    | next hnext =>
      obtain ⟨_, _, _, hprefix⟩ := next_values hnext
      exact ih.trans hprefix
    | jump hexec _ =>
      obtain ⟨_, _, heffect⟩ := hexec.effect
      cases heffect <;> exact ih

theorem path_blockStart {start p : Point ν} (h : Path m host start p) (hstart : start.pc = 0) :
    ∃ e, Path m host start e ∧ e.pc = 0 ∧ Within m host e p := by
  induction h with
  | refl => exact ⟨start, .refl, hstart, .refl⟩
  | tail hpath hflow ih =>
    cases hflow with
    | next hnext =>
      obtain ⟨e, he, hpc, hwithin⟩ := ih
      exact ⟨e, he, hpc, hwithin.tail hnext⟩
    | jump hexec hblock => exact ⟨_, hpath.tail (.jump hexec hblock), rfl, .refl⟩

theorem Placed.within {compiled : BytecodeFunction} {e p : Point ν}
    (he : Placed function compiled e) (h : Within m host e p) : Placed function compiled p := by
  induction h with
  | refl => exact he
  | tail _ hnext ih => exact ih.next hnext

theorem Placed.hasResult {compiled : BytecodeFunction} {p q : Point ν}
    (h : Placed function compiled p) (hnumbering : Numbering function offset)
    (hnext : Next m host p q) {v : ℕ} (hle : number function offset p ≤ v)
    (hlt : v < number function offset q) : HasResult function p v := by
  obtain ⟨compiledInstruction, hi, _, _⟩ := next_values hnext
  obtain ⟨instruction, hinstruction, _⟩ := h.instruction hi
  have hresult := (h.numbered hnumbering hinstruction).2
  obtain ⟨same, hsame, hnumber, _⟩ := h.next_number offset hnext
  rw [hinstruction] at hsame
  cases hsame
  refine ⟨instruction, hinstruction, ?_⟩
  by_cases hproduces : produces instruction.kind = true
  · rw [results_of_produces hproduces] at hnumber
    have hv : v = number function offset p := by omega
    rw [hresult, if_pos hproduces, hv]
  · rw [results_of_not_produces (by simpa using hproduces)] at hnumber
    omega

theorem within_computes {compiled : BytecodeFunction} (hnumbering : Numbering function offset)
    {e p : Point ν} (he : Placed function compiled e) (hpc : e.pc = 0) (h : Within m host e p)
    {v : ℕ} (hlow : offset p.block.id.toNat ≤ v) (hv : v < number function offset p) :
    ∃ d d', Within m host e d ∧ HasResult function d v ∧ Next m host d d' ∧
      Within m host d' p := by
  induction h with
  | refl =>
    rw [number, hpc, List.take_zero, results_nil] at hv
    omega
  | @tail p q hwithin hnext ih =>
    have hplaced := he.within hwithin
    rw [hnext.same.2] at hlow
    by_cases hbefore : v < number function offset p
    · obtain ⟨d, d', hd, hresult, hpush, hrest⟩ := ih hlow hbefore
      exact ⟨d, d', hd, hresult, hpush, hrest.tail hnext⟩
    · exact ⟨p, q, hwithin, hplaced.hasResult hnumbering hnext (by omega) hv, hnext, .refl⟩

omit [F64 ν] in
theorem Placed.hasResult_number {compiled : BytecodeFunction} {d : Point ν}
    (h : Placed function compiled d) (hnumbering : Numbering function offset) {v : ℕ}
    (hresult : HasResult function d v) {compiledInstruction : Instruction}
    (hi : d.instruction = some compiledInstruction) :
    number function offset d = v ∧ definesValue compiledInstruction.opcode = true := by
  obtain ⟨instruction, hinstruction, hcompiles⟩ := h.instruction hi
  have hexpected := (h.numbered hnumbering hinstruction).2
  obtain ⟨same, hsame, hv⟩ := hresult
  rw [hinstruction] at hsame
  cases hsame
  rw [hcompiles.definesValue]
  by_cases hproduces : produces instruction.kind = true
  · rw [hexpected, if_pos hproduces] at hv
    cases hv
    exact ⟨rfl, hproduces⟩
  · rw [hexpected, if_neg hproduces] at hv
    cases hv

theorem Placed.pushes {compiled : BytecodeFunction} {d d' : Point ν}
    (h : Placed function compiled d) (hnumbering : Numbering function offset) {v : ℕ}
    (hresult : HasResult function d v) (hnext : Next m host d d') :
    number function offset d = v ∧ number function offset d' = v + 1 ∧
      ∃ value, d'.frame = d.frame.pushValue value := by
  obtain ⟨frame, machine, hexec, rfl⟩ := hnext
  obtain ⟨compiledInstruction, hi, heffect⟩ := hexec.effect
  obtain ⟨hnumber, hop⟩ := h.hasResult_number hnumbering hresult hi
  obtain ⟨instruction, hinstruction, hnumber', _⟩ :=
    h.next_number offset ⟨frame, machine, hexec, rfl⟩
  obtain ⟨same, hsame, hcompiles⟩ := h.instruction hi
  rw [hinstruction] at hsame
  cases hsame
  rw [← hcompiles.definitions] at hnumber'
  have hone : definitions [compiledInstruction] = 1 := by simp [definitions, hop]
  refine ⟨hnumber, by omega, ?_⟩
  cases heffect with
  | push _ value => exact ⟨value, rfl⟩
  | storeLocal hstore => rw [hstore] at hop; cases hop
  | storeMember hstore => rw [hstore] at hop; cases hop

theorem computes_below (hblocks : function.blocks.length ≤ 2 ^ 32)
    (hnumbering : Numbering function offset) {start p : Point ν}
    (hstart : Placed function (compileFunction function c).1 start)
    (hzero : number function offset start = 0) (hempty : start.frame.values = [])
    (hpath : Path m host start p)
    (hall : number function offset p ≤ p.frame.values.length) {u : ℕ}
    (hu : u < number function offset p) : Computes m host function start p u := by
  induction hpath generalizing u with
  | refl => omega
  | @tail p q hpath hflow ih =>
    obtain ⟨hplaced, hahead⟩ := hstart.path hblocks hnumbering hpath
    obtain ⟨_, hahead'⟩ := hplaced.flow hblocks hnumbering hflow
    have hnumber := hahead'.number
    have hlength := hahead'.length
    by_cases hbefore : u < number function offset p
    · obtain ⟨d, d', hd, hresult, hpush, hrest⟩ := ih (by omega) hbefore
      exact ⟨d, d', hd, hresult, hpush, hrest.tail hflow⟩
    · cases hflow with
      | next hnext =>
        exact ⟨p, _, hpath, hplaced.hasResult hnumbering hnext (by omega) hu, hnext, .refl⟩
      | jump hexec hblock =>
        have hvalues := (hplaced.jump_number hblocks hnumbering hexec hblock).2.2
        have hstartNumber := hahead.number
        rw [hempty, List.length_nil] at hstartNumber
        rw [hvalues] at hall
        omega

/-- Where every smaller value is computed, a value gets the entry of its number. -/
theorem length_of_computes (hblocks : function.blocks.length ≤ 2 ^ 32)
    (hnumbering : Numbering function offset) {start p : Point ν}
    (hstart : Placed function (compileFunction function c).1 start)
    (hzero : number function offset start = 0) (hempty : start.frame.values = []) {v : ℕ}
    (hall : ∀ u < v, Computes m host function start p u) {d : Point ν}
    (hd : Path m host start d) (hnumber : number function offset d = v) :
    d.frame.values.length = v := by
  have hle : ∀ {q : Point ν}, Path m host start q →
      q.frame.values.length ≤ number function offset q := by
    intro q hq
    have hahead := (hstart.path hblocks hnumbering hq).2.number
    rw [hempty, List.length_nil] at hahead
    omega
  induction v generalizing d with
  | zero =>
    have hbound := hle hd
    omega
  | succ u ih =>
    -- The instruction that computes `u` leaves `u + 1` values behind.
    obtain ⟨e, e', he, hresult, hnext, _⟩ := hall u (Nat.lt_succ_self u)
    have hplaced := (hstart.path hblocks hnumbering he).1
    obtain ⟨hnumberE, hnumberE', value, hpush⟩ := hplaced.pushes hnumbering hresult hnext
    have hlengthE := ih (fun w hw => hall w (Nat.lt_succ_of_lt hw)) he hnumberE
    have hlengthE' : e'.frame.values.length = u + 1 := by simp [hpush, hlengthE]
    have he' : Path m host start e' := he.tail (.next hnext)
    have hbound := hle hd
    rcases path_total hd he' with hbefore | hafter
    · have hahead := ((hstart.path hblocks hnumbering hd).1.path hblocks hnumbering hbefore).2
      have hlength := hahead.number
      omega
    · have hahead := ((hstart.path hblocks hnumbering he').1.path hblocks hnumbering hafter).2
      have hlength := hahead.length
      omega

end

/-- On a path through a compiled function an operand finds the value with its id
    exactly when the path has computed every value with a smaller id. -/
theorem compileFunction_survives_iff (program : Ast.Program) {function : IrFunction}
    (hfunction : function ∈ allFunctions (lowerProgram program))
    (hblocks : function.blocks.length ≤ 2 ^ 32) (c : Compiler) {start p : Point ν}
    (hbegins : Begins (compileFunction function c).1 start) (hpath : Path m host start p) {v : ℕ}
    (hoperand : HasOperand function p v) :
    Survives m host function start p v ↔ ∀ u < v, Computes m host function start p u := by
  obtain ⟨offset, hnumbering⟩ := lowerProgram_numbering program hfunction
  obtain ⟨hstart, hzero, hempty, hpc⟩ := hbegins.placed hblocks hnumbering
  constructor
  · rintro ⟨d, d', value, hd, hresult, hnext, hrest, _, hlength, _⟩ u hu
    have hplaced := (hstart.path hblocks hnumbering hd).1
    have hnumber := (hplaced.pushes hnumbering hresult hnext).1
    obtain ⟨e, e', he, hresult', hpush, hrest'⟩ :=
      computes_below hblocks hnumbering hstart hzero hempty hd (by omega) (u := u) (by omega)
    exact ⟨e, e', he, hresult', hpush, (hrest'.tail (.next hnext)).trans hrest⟩
  · intro hall
    obtain ⟨e, he, hepc, hwithin⟩ := path_blockStart hpath hpc
    have hplacedE := (hstart.path hblocks hnumbering he).1
    have hplaced := (hstart.path hblocks hnumbering hpath).1
    obtain ⟨instruction, hinstruction, hv⟩ := hoperand
    obtain ⟨hlow, hdue⟩ := (hplaced.numbered hnumbering hinstruction).1 v hv
    obtain ⟨d, d', hd, hresult, hnext, hrest⟩ :=
      within_computes hnumbering hplacedE hepc hwithin hlow hdue
    obtain ⟨hnumber, _, value, hpush⟩ := (hplacedE.within hd).pushes hnumbering hresult hnext
    have hlength := length_of_computes hblocks hnumbering hstart hzero hempty hall
      (he.trans (within_path hd)) hnumber
    refine ⟨d, d', value, he.trans (within_path hd), hresult, hnext, within_path hrest, hpush,
      hlength, ?_⟩
    obtain ⟨later, hlater⟩ := path_values (within_path hrest)
    rw [← hlater, hpush, Frame.pushValue, ← hlength]
    simp

/-- `function pick(flag: boolean): number { if (flag) { 1; } return 2; }` -/
def pickProgram : Ast.Program where
  body := [.function ⟨"pick", [⟨"flag", some (.boolean emptySpan), emptySpan⟩],
    some (.number emptySpan),
    [.if (.identifier "flag" emptySpan)
      (.block [.expression (.number "1" emptySpan) emptySpan] emptySpan) none emptySpan,
      .return (some (.number "2" emptySpan)) emptySpan]⟩ emptySpan]
  span := none

def pickFunction : IrFunction :=
  ((lowerProgram pickProgram).functions.head?).getD (lowerProgram pickProgram).entry

def pickModule : BytecodeModule := compile (lowerProgram pickProgram)

def pickCompiled : BytecodeFunction := (compileFunction pickFunction .new).1

def pickPoint (block : BytecodeBlock) (pc : ℕ) (values : List (RuntimeValue Int)) : Point Int :=
  ⟨pickCompiled, block, pc, ⟨[.boolean false], values⟩, .new⟩

def pickBlock (k : ℕ) : BytecodeBlock := (pickCompiled.blocks[k]?).getD ⟨0, []⟩

theorem pickPoint_path :
    Path pickModule .new (pickPoint (pickBlock 0) 0 [])
      (pickPoint (pickBlock 3) 1 [.boolean false, .number 2]) := by
  have hload : Flow pickModule .new (pickPoint (pickBlock 0) 0 [])
      (pickPoint (pickBlock 0) 1 [.boolean false]) :=
    .next ⟨⟨[.boolean false], [.boolean false]⟩, .new,
      ⟨⟨.loadLocal, [0], .boolean, 0⟩, 0, rfl, rfl⟩, rfl⟩
  have hbranch : Flow pickModule .new (pickPoint (pickBlock 0) 1 [.boolean false])
      (pickPoint (pickBlock 2) 0 [.boolean false]) :=
    .jump ⟨⟨.branch, [0, 1, 2], .undefined, 0⟩, 0, rfl, rfl⟩ rfl
  have hjump : Flow pickModule .new (pickPoint (pickBlock 2) 0 [.boolean false])
      (pickPoint (pickBlock 3) 0 [.boolean false]) :=
    .jump ⟨⟨.jump, [3], .undefined, 0⟩, 0, rfl, rfl⟩ rfl
  have hconst : Flow pickModule .new (pickPoint (pickBlock 3) 0 [.boolean false])
      (pickPoint (pickBlock 3) 1 [.boolean false, .number 2]) :=
    .next ⟨⟨[.boolean false], [.boolean false, .number 2]⟩, .new,
      ⟨⟨.loadConst, [1], .number, 0⟩, 0, rfl, rfl⟩, rfl⟩
  exact .tail (.tail (.tail (.single hload) hbranch) hjump) hconst

/-- The `return` of `pick` uses value 2, and with `false` the frame has two values. -/
theorem pickFunction_loses_value :
    pickFunction ∈ allFunctions (lowerProgram pickProgram) ∧
      Begins pickCompiled (pickPoint (pickBlock 0) 0 []) ∧
      Path pickModule .new (pickPoint (pickBlock 0) 0 [])
        (pickPoint (pickBlock 3) 1 [.boolean false, .number 2]) ∧
      HasOperand pickFunction (pickPoint (pickBlock 3) 1 [.boolean false, .number 2]) 2 ∧
      ¬ Survives pickModule .new pickFunction (pickPoint (pickBlock 0) 0 [])
        (pickPoint (pickBlock 3) 1 [.boolean false, .number 2]) 2 ∧
      (callFunction pickModule (.new : HostEnvironment Int) 5 "pick" [.boolean false] .new).1 =
        .error (.runtime (.valueMissing 2)) := by
  refine ⟨List.mem_cons_self, ⟨pickBlock 0, [.boolean false], .new, rfl, rfl⟩, pickPoint_path,
    ⟨_, rfl, List.mem_cons_self⟩, ?_, rfl⟩
  rintro ⟨_, _, _, _, _, _, _, _, _, hvalue⟩
  cases hvalue

theorem pickFunction_survives_iff :
    Survives pickModule .new pickFunction (pickPoint (pickBlock 0) 0 [])
        (pickPoint (pickBlock 3) 1 [.boolean false, .number 2]) 2 ↔
      ∀ u < 2, Computes pickModule .new pickFunction (pickPoint (pickBlock 0) 0 [])
        (pickPoint (pickBlock 3) 1 [.boolean false, .number 2]) u :=
  compileFunction_survives_iff pickProgram List.mem_cons_self (by decide) .new
    ⟨pickBlock 0, [.boolean false], .new, rfl, rfl⟩ pickPoint_path ⟨_, rfl, List.mem_cons_self⟩

end Tsvm.CompiledValues
