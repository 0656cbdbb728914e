import Tsvm.CompiledCode

set_option autoImplicit false

/-!
# What the operands of a compiled instruction refer to

`Refers` relates an instruction of the intermediate representation to its opcode
and operands in a module whose constants they index. The pools only grow, so it
holds in the finished module for everything that was compiled on the way.
-/
namespace Tsvm.CompiledOperands
open Bytecode BytecodeVerifier BytecodeVerifierFacts Interning Ir Compilation LoweringCode
  LoweringBlocks CompiledCode

/-- Both pools have room for `n` more entries. -/
structure Room (n : ℕ) (s : Compiler) : Prop where
  constants : s.constants.Room n
  sourceMap : s.sourceMap.Room n

structure Grows (s s' : Compiler) : Prop where
  constants : s.constants.Grows s'.constants
  sourceMap : s.sourceMap.Grows s'.sourceMap

theorem Grows.refl (s : Compiler) : Grows s s := ⟨.refl _, .refl _⟩

theorem Grows.trans {s₁ s₂ s₃ : Compiler} (h : Grows s₁ s₂) (h' : Grows s₂ s₃) : Grows s₁ s₃ :=
  ⟨h.constants.trans h'.constants, h.sourceMap.trans h'.sourceMap⟩

theorem Room.mono {n k : ℕ} {s : Compiler} (h : Room n s) (hle : k ≤ n) : Room k s :=
  ⟨h.constants.mono hle, h.sourceMap.mono hle⟩

theorem Room.internConstant {n : ℕ} {s : Compiler} (h : Room (n + 1) s) (constant : Constant) :
    Room n (internConstant constant s).2 ∧ Grows s (internConstant constant s).2 ∧
      (internConstant constant s).2.constants.entries[(internConstant constant s).1.toNat]? =
        some constant := by
  obtain ⟨hroom, hindex⟩ := h.constants.intern constant
  exact ⟨⟨hroom, h.sourceMap.mono (Nat.le_succ n)⟩,
    ⟨Pool.intern_grows _ constant, .refl _⟩, hindex⟩

theorem Room.internSource {n : ℕ} {s : Compiler} (h : Room (n + 1) s) (source : SourceRef) :
    Room n (internSource source s).2 ∧ Grows s (internSource source s).2 ∧
      (internSource source s).2.sourceMap.entries[(internSource source s).1.toNat]? =
        some source := by
  obtain ⟨hroom, hindex⟩ := h.sourceMap.intern source
  exact ⟨⟨h.constants.mono (Nat.le_succ n), hroom⟩,
    ⟨.refl _, Pool.intern_grows _ source⟩, hindex⟩

structure Contains (m : BytecodeModule) (s : Compiler) : Prop where
  constants : s.constants.entries <+: m.constants
  sourceMap : s.sourceMap.entries <+: m.sourceMap

theorem Contains.of_grows {m : BytecodeModule} {s s' : Compiler} (h : Contains m s')
    (hgrows : Grows s s') : Contains m s :=
  ⟨List.IsPrefix.trans hgrows.constants h.constants,
    List.IsPrefix.trans hgrows.sourceMap h.sourceMap⟩

theorem Contains.constant {m : BytecodeModule} {s : Compiler} (h : Contains m s) {k : ℕ}
    {constant : Constant} (hk : s.constants.entries[k]? = some constant) :
    m.constants[k]? = some constant := by
  obtain ⟨rest, hrest⟩ := h.constants
  rw [← hrest, List.getElem?_append_left (List.getElem?_eq_some_iff.mp hk).1]
  exact hk

def literal : IrConst → Option Constant
  | .number value => some (.number value)
  | .string value => some (.string value)
  | .boolean value => some (.boolean value)
  | .null => some .null
  | .undefined => some .undefined
  | .object _ | .array _ => none

/-- The slot a name has, or gets. -/
def slotOf (slots : LocalSlots) (name : String) : UInt32 := (localId name slots).1

def NameAt (m : BytecodeModule) (index : UInt32) (name : String) : Prop :=
  m.constants[index.toNat]? = some (.symbol name)

inductive Refers (m : BytecodeModule) (slots : LocalSlots) :
    IrInstructionKind → Opcode → List UInt32 → Prop where
  | literal {constant : IrConst} {found : Constant} {index : UInt32}
      (hliteral : literal constant = some found)
      (hindex : m.constants[index.toNat]? = some found) :
      Refers m slots (.loadConst constant) .loadConst [index]
  | object {properties : List (String × ValueId)} {pairs : List (UInt32 × UInt32)}
      (hpairs : List.Forall₂ (fun property pair =>
        NameAt m pair.1 property.1 ∧ pair.2 = .ofNat property.2) properties pairs) :
      Refers m slots (.loadConst (.object properties)) .buildObject
        (.ofNat properties.length :: flattenPairs pairs)
  | array {elements : List ValueId} :
      Refers m slots (.loadConst (.array elements)) .buildArray
        (.ofNat elements.length :: elements.map .ofNat)
  | loadLocal {name : String} :
      Refers m slots (.loadLocal name) .loadLocal [slotOf slots name]
  | storeLocal {name : String} {value : ValueId} :
      Refers m slots (.storeLocal name value) .storeLocal [slotOf slots name, .ofNat value]
  | loadMember {object : ValueId} {property : String} {index : UInt32}
      (hproperty : NameAt m index property) :
      Refers m slots (.loadMember object property) .loadMember [.ofNat object, index]
  | storeMember {object value : ValueId} {property : String} {index : UInt32}
      (hproperty : NameAt m index property) :
      Refers m slots (.storeMember object property value) .storeMember
        [.ofNat object, index, .ofNat value]
  | binary {op : IrBinaryOp} {left right : ValueId} :
      Refers m slots (.binary op left right) .binary
        [binaryOpCode op, .ofNat left, .ofNat right]
  | call {callee : String} {args : List ValueId} {index : UInt32}
      (hcallee : NameAt m index callee) :
      Refers m slots (.call callee args) .call
        (index :: .ofNat args.length :: args.map .ofNat)
  | branch {condition : ValueId} {thenBlock elseBlock : BlockId} :
      Refers m slots (.branch condition thenBlock elseBlock) .branch
        [.ofNat condition, .ofNat thenBlock, .ofNat elseBlock]
  | jump {target : BlockId} : Refers m slots (.jump target) .jump [.ofNat target]
  | return {value : Option ValueId} :
      Refers m slots (.return value) .return (value.toList.map .ofNat)

def slotsAfter (kind : IrInstructionKind) (slots : LocalSlots) : LocalSlots :=
  match kind with
  | .loadLocal name | .storeLocal name _ => (localId name slots).2
  | _ => slots

/-- How many constants an instruction needs at most. -/
def constantCount : IrInstructionKind → ℕ
  | .loadConst (.object properties) => properties.length
  | .loadConst (.array _) => 0
  | .loadConst _ | .loadMember _ _ | .storeMember _ _ _ | .call _ _ => 1
  | _ => 0

theorem propertyOperands_refers {m : BytecodeModule} {n : ℕ}
    (properties : List (String × ValueId)) {s : Compiler} (h : Room (properties.length + n) s) :
    Room n (propertyOperands properties s).2 ∧ Grows s (propertyOperands properties s).2 ∧
      (Contains m (propertyOperands properties s).2 → ∃ pairs,
        (propertyOperands properties s).1 = flattenPairs pairs ∧
          List.Forall₂ (fun property pair =>
            NameAt m pair.1 property.1 ∧ pair.2 = .ofNat property.2) properties pairs) := by
  induction properties generalizing s with
  | nil => exact ⟨h.mono (by omega), .refl s, fun _ => ⟨[], rfl, .nil⟩⟩
  | cons property properties ih =>
    obtain ⟨name, value⟩ := property
    rw [List.length_cons, Nat.add_right_comm] at h
    obtain ⟨hroom, hgrows, hindex⟩ := h.internConstant (.symbol name)
    obtain ⟨hroom', hgrows', hpairs⟩ := ih hroom
    refine ⟨hroom', hgrows.trans hgrows', fun hcontains => ?_⟩
    obtain ⟨pairs, hoperands, hrefers⟩ := hpairs hcontains
    refine ⟨((internConstant (.symbol name) s).1, .ofNat value) :: pairs, ?_, .cons ⟨?_, rfl⟩ hrefers⟩
    · exact congrArg (fun operands => (internConstant (.symbol name) s).1 :: .ofNat value :: operands)
        hoperands
    · exact (hcontains.of_grows hgrows').constant hindex

/-- The compiler keeps what an instruction means. -/
theorem compileKind_refers {m : BytecodeModule} {n : ℕ} (kind : IrInstructionKind) {s : Compiler}
    (slots : LocalSlots) (h : Room (constantCount kind + n) s) :
    let compiled := compileKind kind s slots
    Room n compiled.2.2.1 ∧ Grows s compiled.2.2.1 ∧ compiled.2.2.2 = slotsAfter kind slots ∧
      (Contains m compiled.2.2.1 → Refers m slots kind compiled.1 compiled.2.1) := by
  have hnone (hcount : constantCount kind = 0) : Room n s ∧ Grows s s := by
    rw [hcount, Nat.zero_add] at h
    exact ⟨h, .refl s⟩
  have hone (hcount : constantCount kind = 1) (constant : Constant) :
      Room n (internConstant constant s).2 ∧ Grows s (internConstant constant s).2 ∧
        (Contains m (internConstant constant s).2 →
          m.constants[(internConstant constant s).1.toNat]? = some constant) := by
    rw [hcount, Nat.add_comm] at h
    obtain ⟨hroom, hgrows, hindex⟩ := h.internConstant constant
    exact ⟨hroom, hgrows, fun hcontains => hcontains.constant hindex⟩
  cases kind with
  | loadConst constant =>
    cases constant with
    | object properties =>
      obtain ⟨hroom, hgrows, hpairs⟩ := propertyOperands_refers (m := m) properties h
      refine ⟨hroom, hgrows, rfl, fun hcontains => ?_⟩
      obtain ⟨pairs, hoperands, hrefers⟩ := hpairs hcontains
      change Refers m slots _ .buildObject (_ :: (propertyOperands properties s).1)
      rw [hoperands]
      exact .object hrefers
    | array elements => exact ⟨(hnone rfl).1, (hnone rfl).2, rfl, fun _ => .array⟩
    | number value =>
      obtain ⟨hroom, hgrows, hindex⟩ := hone rfl (.number value)
      exact ⟨hroom, hgrows, rfl, fun hcontains => .literal rfl (hindex hcontains)⟩
    | string value =>
      obtain ⟨hroom, hgrows, hindex⟩ := hone rfl (.string value)
      exact ⟨hroom, hgrows, rfl, fun hcontains => .literal rfl (hindex hcontains)⟩
    | boolean value =>
      obtain ⟨hroom, hgrows, hindex⟩ := hone rfl (.boolean value)
      exact ⟨hroom, hgrows, rfl, fun hcontains => .literal rfl (hindex hcontains)⟩
    | null =>
      obtain ⟨hroom, hgrows, hindex⟩ := hone rfl .null
      exact ⟨hroom, hgrows, rfl, fun hcontains => .literal rfl (hindex hcontains)⟩
    | undefined =>
      obtain ⟨hroom, hgrows, hindex⟩ := hone rfl .undefined
      exact ⟨hroom, hgrows, rfl, fun hcontains => .literal rfl (hindex hcontains)⟩
  | loadLocal name => exact ⟨(hnone rfl).1, (hnone rfl).2, rfl, fun _ => .loadLocal⟩
  | storeLocal name value => exact ⟨(hnone rfl).1, (hnone rfl).2, rfl, fun _ => .storeLocal⟩
  | loadMember object property =>
    obtain ⟨hroom, hgrows, hindex⟩ := hone rfl (.symbol property)
    exact ⟨hroom, hgrows, rfl, fun hcontains => .loadMember (hindex hcontains)⟩
  | storeMember object property value =>
    obtain ⟨hroom, hgrows, hindex⟩ := hone rfl (.symbol property)
    exact ⟨hroom, hgrows, rfl, fun hcontains => .storeMember (hindex hcontains)⟩
  | binary op left right => exact ⟨(hnone rfl).1, (hnone rfl).2, rfl, fun _ => .binary⟩
  | call callee args =>
    obtain ⟨hroom, hgrows, hindex⟩ := hone rfl (.symbol callee)
    exact ⟨hroom, hgrows, rfl, fun hcontains => .call (hindex hcontains)⟩
  | branch condition thenBlock elseBlock =>
    exact ⟨(hnone rfl).1, (hnone rfl).2, rfl, fun _ => .branch⟩
  | jump target => exact ⟨(hnone rfl).1, (hnone rfl).2, rfl, fun _ => .jump⟩
  | «return» value => exact ⟨(hnone rfl).1, (hnone rfl).2, rfl, fun _ => .return⟩

inductive RefersCode (m : BytecodeModule) :
    LocalSlots → List IrInstruction → List Instruction → LocalSlots → Prop where
  | nil {slots : LocalSlots} : RefersCode m slots [] [] slots
  | cons {slots next slots' : LocalSlots} {instruction : IrInstruction} {code : List IrInstruction}
      {opcode : Opcode} {operands : List UInt32} {sourceRef : UInt32}
      {compiled : List Instruction} (hkind : Refers m slots instruction.kind opcode operands)
      (hsource : sourceRef.toNat < m.sourceMap.length)
      (hnext : next = slotsAfter instruction.kind slots)
      (hrest : RefersCode m next code compiled slots') :
      RefersCode m slots (instruction :: code)
        (⟨opcode, operands, typeTag instruction.ty, sourceRef⟩ :: compiled) slots'

inductive RefersBlocks (m : BytecodeModule) :
    LocalSlots → List IrBlock → List BytecodeBlock → Prop where
  | nil {slots : LocalSlots} : RefersBlocks m slots [] []
  | cons {slots slots' : LocalSlots} {block : IrBlock} {blocks : List IrBlock}
      {instructions : List Instruction} {compiled : List BytecodeBlock}
      (hcode : RefersCode m slots block.instructions instructions slots')
      (hrest : RefersBlocks m slots' blocks compiled) :
      RefersBlocks m slots (block :: blocks) (⟨.ofNat block.id, instructions⟩ :: compiled)

theorem Refers.definesValue {m : BytecodeModule} {slots : LocalSlots} {kind : IrInstructionKind}
    {opcode : Opcode} {operands : List UInt32} (h : Refers m slots kind opcode operands) :
    BytecodeVerifier.definesValue opcode = produces kind := by
  cases h <;> rfl

theorem Refers.isTerminator {m : BytecodeModule} {slots : LocalSlots} {kind : IrInstructionKind}
    {opcode : Opcode} {operands : List UInt32} (h : Refers m slots kind opcode operands) :
    BytecodeVerifier.isTerminator opcode = terminates kind := by
  cases h <;> rfl

/-- The compiled code of two parts is in two parts. -/
theorem RefersCode.split {m : BytecodeModule} {first second : List IrInstruction}
    {slots slots' : LocalSlots} {compiled : List Instruction}
    (h : RefersCode m slots (first ++ second) compiled slots') :
    ∃ before after next, compiled = before ++ after ∧ RefersCode m slots first before next ∧
      RefersCode m next second after slots' := by
  induction first generalizing slots compiled with
  | nil => exact ⟨[], compiled, slots, rfl, .nil, h⟩
  | cons instruction first ih =>
    cases h with
    | cons hkind hsource hnext hrest =>
      obtain ⟨before, after, next, rfl, hfirst, hsecond⟩ := ih hrest
      exact ⟨_ :: before, after, next, rfl, .cons hkind hsource hnext hfirst, hsecond⟩

theorem RefersCode.definitions {m : BytecodeModule} {slots slots' : LocalSlots}
    {code : List IrInstruction} {compiled : List Instruction}
    (h : RefersCode m slots code compiled slots') :
    BytecodeVerifierFacts.definitions compiled = results code := by
  induction h with
  | nil => rfl
  | cons hkind _ _ _ ih =>
    simp only [BytecodeVerifierFacts.definitions, results, List.countP_cons] at ih ⊢
    rw [ih, hkind.definesValue]

theorem RefersCode.any_isTerminator {m : BytecodeModule} {slots slots' : LocalSlots}
    {code : List IrInstruction} {compiled : List Instruction}
    (h : RefersCode m slots code compiled slots') :
    (compiled.any fun instruction => isTerminator instruction.opcode) =
      code.any fun instruction => terminates instruction.kind := by
  induction h with
  | nil => rfl
  | cons hkind _ _ _ ih => rw [List.any_cons, List.any_cons, ih, hkind.isTerminator]

theorem RefersBlocks.length_eq {m : BytecodeModule} {slots : LocalSlots} {blocks : List IrBlock}
    {compiled : List BytecodeBlock} (h : RefersBlocks m slots blocks compiled) :
    compiled.length = blocks.length := by
  induction h with
  | nil => rfl
  | cons _ _ ih => rw [List.length_cons, List.length_cons, ih]

theorem RefersBlocks.ids {m : BytecodeModule} {slots : LocalSlots} {blocks : List IrBlock}
    {compiled : List BytecodeBlock} (h : RefersBlocks m slots blocks compiled) :
    compiled.map BytecodeBlock.id = blocks.map fun block => .ofNat block.id := by
  induction h with
  | nil => rfl
  | cons _ _ ih => rw [List.map_cons, List.map_cons, ih]

structure RefersFunction (m : BytecodeModule) (function : IrFunction)
    (compiled : BytecodeFunction) : Prop where
  name : compiled.name = function.name
  params : compiled.params = function.params.map fun param => typeTag param.ty
  exceptionTable : compiled.exceptionTable = []
  blocks : RefersBlocks m (parameterSlots function.params) function.blocks compiled.blocks

def instructionSize (instruction : IrInstruction) : ℕ := 2 + (values instruction.kind).length

def codeSize (code : List IrInstruction) : ℕ := (code.map instructionSize).sum

theorem codeSize_cons (instruction : IrInstruction) (code : List IrInstruction) :
    codeSize (instruction :: code) = 2 + (values instruction.kind).length + codeSize code :=
  List.sum_cons

theorem codeSize_append (first second : List IrInstruction) :
    codeSize (first ++ second) = codeSize first + codeSize second := by
  rw [codeSize, List.map_append, List.sum_append]
  rfl

def blocksSize (blocks : List IrBlock) : ℕ :=
  (blocks.map fun block => 1 + codeSize block.instructions).sum

theorem blocksSize_cons (block : IrBlock) (blocks : List IrBlock) :
    blocksSize (block :: blocks) = 1 + codeSize block.instructions + blocksSize blocks :=
  List.sum_cons

def functionSize (function : IrFunction) : ℕ :=
  1 + function.params.length + blocksSize function.blocks

/-- A bound on everything that is numbered with a `u32` in the compiled program. -/
def irSize (ir : IrProgram) : ℕ := ((allFunctions ir).map functionSize).sum

theorem functionSize_le_irSize {ir : IrProgram} {function : IrFunction}
    (hmem : function ∈ allFunctions ir) : functionSize function ≤ irSize ir := by
  obtain ⟨before, after, hsplit⟩ := List.append_of_mem hmem
  rw [irSize, hsplit, List.map_append, List.map_cons, List.sum_append, List.sum_cons]
  omega

theorem constantCount_lt (instruction : IrInstruction) :
    constantCount instruction.kind + 1 ≤ instructionSize instruction := by
  unfold constantCount instructionSize
  split <;> simp_all [values] <;> omega

theorem compileInstruction_refers {m : BytecodeModule} {n : ℕ} (instruction : IrInstruction)
    {s : Compiler} (slots : LocalSlots) (h : Room (instructionSize instruction + n) s) :
    let compiled := compileInstruction instruction s slots
    Room n compiled.2.1 ∧ Grows s compiled.2.1 ∧
      compiled.2.2 = slotsAfter instruction.kind slots ∧
      (Contains m compiled.2.1 → Refers m slots instruction.kind compiled.1.opcode
        compiled.1.operands ∧ compiled.1.sourceRef.toNat < m.sourceMap.length) := by
  have hcount := constantCount_lt instruction
  have hroom : Room (constantCount instruction.kind + n + 1) s := h.mono (by omega)
  obtain ⟨hroom₁, hgrows₁, hindex⟩ := hroom.internSource (sourceRefFromSpan instruction.sourceSpan)
  obtain ⟨hroom₂, hgrows₂, hslots, hrefers⟩ :=
    compileKind_refers (m := m) instruction.kind slots hroom₁
  refine ⟨hroom₂, hgrows₁.trans hgrows₂, hslots, fun hcontains => ⟨hrefers hcontains, ?_⟩⟩
  have hprefix := (hcontains.of_grows hgrows₂).sourceMap.length_le
  exact Nat.lt_of_lt_of_le (List.getElem?_eq_some_iff.mp hindex).1 hprefix

theorem compileInstructions_refers {m : BytecodeModule} {n : ℕ} (code : List IrInstruction)
    {s : Compiler} (slots : LocalSlots) (h : Room (codeSize code + n) s) :
    let compiled := compileInstructions code s slots
    Room n compiled.2.1 ∧ Grows s compiled.2.1 ∧
      (Contains m compiled.2.1 → RefersCode m slots code compiled.1 compiled.2.2) := by
  induction code generalizing s slots with
  | nil => exact ⟨h.mono (by omega), .refl s, fun _ => .nil⟩
  | cons instruction code ih =>
    rw [codeSize_cons, Nat.add_assoc] at h
    obtain ⟨hroom, hgrows, hslots, hrefers⟩ := compileInstruction_refers (m := m) instruction slots h
    obtain ⟨hroom', hgrows', hrest⟩ := ih (compileInstruction instruction s slots).2.2 hroom
    refine ⟨hroom', hgrows.trans hgrows', fun hcontains => ?_⟩
    obtain ⟨hkind, hsource⟩ := hrefers (hcontains.of_grows hgrows')
    exact .cons hkind hsource hslots (hrest hcontains)

theorem compileBlocks_refers {m : BytecodeModule} {n : ℕ} (blocks : List IrBlock) {s : Compiler}
    (slots : LocalSlots) (h : Room (blocksSize blocks + n) s) :
    let compiled := compileBlocks blocks s slots
    Room n compiled.2.1 ∧ Grows s compiled.2.1 ∧
      (Contains m compiled.2.1 → RefersBlocks m slots blocks compiled.1) := by
  induction blocks generalizing s slots with
  | nil => exact ⟨h.mono (by omega), .refl s, fun _ => .nil⟩
  | cons block blocks ih =>
    rw [blocksSize_cons] at h
    have hroom : Room (codeSize block.instructions + (blocksSize blocks + n)) s :=
      h.mono (by omega)
    obtain ⟨hroom₁, hgrows₁, hcode⟩ :=
      compileInstructions_refers (m := m) block.instructions slots hroom
    obtain ⟨hroom₂, hgrows₂, hrest⟩ := ih (compileInstructions block.instructions s slots).2.2 hroom₁
    exact ⟨hroom₂, hgrows₁.trans hgrows₂,
      fun hcontains => .cons (hcode (hcontains.of_grows hgrows₂)) (hrest hcontains)⟩

theorem compileFunctions_refers {m : BytecodeModule} {n : ℕ} (functions : List IrFunction)
    {s : Compiler} (h : Room ((functions.map functionSize).sum + n) s) :
    let compiled := compileFunctions functions s
    Room n compiled.2 ∧ Grows s compiled.2 ∧
      (Contains m compiled.2 → List.Forall₂ (RefersFunction m) functions compiled.1) := by
  induction functions generalizing s with
  | nil => exact ⟨h.mono (by omega), .refl s, fun _ => .nil⟩
  | cons function functions ih =>
    rw [List.map_cons, List.sum_cons] at h
    have hroom : Room (blocksSize function.blocks + ((functions.map functionSize).sum + n)) s := by
      refine h.mono ?_
      unfold functionSize
      omega
    obtain ⟨hroom₁, hgrows₁, hblocks⟩ :=
      compileBlocks_refers (m := m) function.blocks (parameterSlots function.params) hroom
    obtain ⟨hroom₂, hgrows₂, hrest⟩ := ih hroom₁
    exact ⟨hroom₂, hgrows₁.trans hgrows₂, fun hcontains =>
      .cons ⟨rfl, rfl, rfl, hblocks (hcontains.of_grows hgrows₂)⟩ (hrest hcontains)⟩

theorem room_new {n : ℕ} (hn : n ≤ 2 ^ 32) : Room n Compiler.new :=
  ⟨⟨Pool.valid_empty, by simpa [Compiler.new, Pool.empty] using hn⟩,
    ⟨Pool.valid_empty, by simpa [Compiler.new, Pool.empty] using hn⟩⟩

/-- The functions of a compiled program come from those of the program. -/
theorem compile_refers (ir : IrProgram) (hsize : irSize ir ≤ 2 ^ 32) :
    List.Forall₂ (RefersFunction (compile ir)) (allFunctions ir) (compile ir).functions := by
  obtain ⟨_, _, hrefers⟩ := compileFunctions_refers (m := compile ir) (n := 0) (allFunctions ir)
    (room_new hsize)
  exact hrefers ⟨List.prefix_rfl, List.prefix_rfl⟩

end Tsvm.CompiledOperands
