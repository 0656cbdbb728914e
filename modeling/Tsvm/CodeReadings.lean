import Tsvm.CodeTables
import Tsvm.FunctionSlots

set_option autoImplicit false

/-!
# Compiled code read back

From its operands, the pools and the local slots of its function give back the
instruction that was compiled, as long as what is written as a `u32` fits into one.
-/
namespace Tsvm.CodeReadings
open Bytecode BytecodeVerifierFacts Interning Ir Compilation LoweringBlocks CompiledOperands
  CodeTables FunctionSlots

def readConst : Constant → Option IrConst
  | .number value => some (.number value)
  | .string value => some (.string value)
  | .boolean value => some (.boolean value)
  | .null => some .null
  | .undefined => some .undefined
  | .symbol _ => none

def binaryOps : List IrBinaryOp :=
  [.add, .subtract, .multiply, .divide, .remainder, .equal, .strictEqual, .notEqual,
    .strictNotEqual, .less, .lessEqual, .greater, .greaterEqual, .logicalAnd, .logicalOr,
    .nullishCoalesce]

def readSymbol (constants : List Constant) (index : UInt32) : Option String :=
  match constants[index.toNat]? with
  | some (.symbol name) => some name
  | _ => none

def readProperties (constants : List Constant) : List UInt32 → Option (List (String × ValueId))
  | [] => some []
  | [_] => none
  | index :: value :: operands => do
    let name ← readSymbol constants index
    let properties ← readProperties constants operands
    pure ((name, value.toNat) :: properties)

def nameAt (slots : LocalSlots) (slot : UInt32) : Option String :=
  (slots.ids.find? fun entry => entry.2 == slot).map Prod.fst

def readKind (constants : List Constant) (slots : LocalSlots) :
    Opcode → List UInt32 → Option IrInstructionKind
  | .loadConst, [index] => do
    let constant ← constants[index.toNat]?
    let constant ← readConst constant
    pure (.loadConst constant)
  | .buildObject, count :: operands => do
    let properties ← readProperties constants operands
    if properties.length = count.toNat then pure (.loadConst (.object properties)) else none
  | .buildArray, count :: elements =>
    if elements.length = count.toNat then some (.loadConst (.array (elements.map UInt32.toNat)))
    else none
  | .loadLocal, [slot] => (nameAt slots slot).map .loadLocal
  | .storeLocal, [slot, value] => (nameAt slots slot).map fun name => .storeLocal name value.toNat
  | .loadMember, [object, index] => (readSymbol constants index).map (.loadMember object.toNat)
  | .storeMember, [object, index, value] =>
    (readSymbol constants index).map fun name => .storeMember object.toNat name value.toNat
  | .binary, [op, left, right] =>
    binaryOps[op.toNat]?.map fun op => .binary op left.toNat right.toNat
  | .call, index :: count :: args =>
    if args.length = count.toNat then
      (readSymbol constants index).map fun callee => .call callee (args.map UInt32.toNat)
    else none
  | .branch, [condition, thenBlock, elseBlock] =>
    some (.branch condition.toNat thenBlock.toNat elseBlock.toNat)
  | .jump, [target] => some (.jump target.toNat)
  | .return, [] => some (.return none)
  | .return, [value] => some (.return (some value.toNat))
  | _, _ => none

def readSpan (source : SourceRef) : Span where
  start := ⟨source.startByte.toNat, source.startLine.toNat, source.startColumn.toNat⟩
  «end» := ⟨source.endByte.toNat, source.endLine.toNat, source.endColumn.toNat⟩

/-- The values, blocks and lengths that an instruction writes as a `u32`. -/
def numbers : IrInstructionKind → List ℕ
  | .loadConst (.object properties) => properties.length :: properties.map Prod.snd
  | .loadConst (.array elements) => elements.length :: elements
  | .loadConst _ | .loadLocal _ => []
  | .storeLocal _ value => [value]
  | .loadMember object _ => [object]
  | .storeMember object _ value => [object, value]
  | .binary _ left right => [left, right]
  | .call _ args => args.length :: args
  | .branch condition thenBlock elseBlock => [condition, thenBlock, elseBlock]
  | .jump target => [target]
  | .return value => value.toList

def spanNumbers (span : Span) : List ℕ :=
  [span.start.byte, span.start.line, span.start.column, span.end.byte, span.end.line,
    span.end.column]

/-- Of everything that is counted or numbered with a `u32` there is less than `2 ^ 32`. -/
structure Small (ir : IrProgram) : Prop where
  constants : (codeConstants (functionsCode (allFunctions ir))).toFinset.card < 2 ^ 32
  sources : (codeSources (functionsCode (allFunctions ir))).toFinset.card < 2 ^ 32
  names : ∀ function ∈ allFunctions ir, (function.params.map IrParam.name ++
    codeNames (blocksCode function.blocks)).toFinset.card < 2 ^ 32
  blocks : ∀ function ∈ allFunctions ir, ∀ block ∈ function.blocks, block.id < 2 ^ 32
  code : ∀ instruction ∈ functionsCode (allFunctions ir),
    ∀ n ∈ numbers instruction.kind ++ spanNumbers instruction.sourceSpan, n < 2 ^ 32

theorem toNat_ofNat {n : ℕ} (h : n < 2 ^ 32) : (UInt32.ofNat n).toNat = n :=
  UInt32.toNat_ofNat_of_lt' h

theorem map_toNat_ofNat {values : List ℕ} (h : ∀ n ∈ values, n < 2 ^ 32) :
    (values.map UInt32.ofNat).map UInt32.toNat = values := by
  rw [List.map_map]
  refine (List.map_congr_left fun n hn => ?_).trans (List.map_id values)
  exact toNat_ofNat (h n hn)

section

variable {finalConstants : List Constant} {slots : LocalSlots} {finalNames : List String}

theorem readSymbol_position (hlength : finalConstants.length ≤ 2 ^ 32) {name : String}
    (hmem : Constant.symbol name ∈ finalConstants) :
    readSymbol finalConstants (position finalConstants (.symbol name)) = some name := by
  rw [readSymbol, position, Pool.getElem?_idxOf hlength hmem]

theorem readProperties_encode (hlength : finalConstants.length ≤ 2 ^ 32)
    (properties : List (String × ValueId))
    (hmem : ∀ property ∈ properties, Constant.symbol property.1 ∈ finalConstants)
    (hnumbers : ∀ property ∈ properties, property.2 < 2 ^ 32) :
    readProperties finalConstants (flattenPairs (properties.map fun property =>
      (position finalConstants (.symbol property.1), .ofNat property.2))) = some properties := by
  induction properties with
  | nil => rfl
  | cons property properties ih =>
    obtain ⟨hname, hnames⟩ := List.forall_mem_cons.mp hmem
    obtain ⟨hvalue, hvalues⟩ := List.forall_mem_cons.mp hnumbers
    have hrest := ih hnames hvalues
    change (readSymbol finalConstants (position finalConstants (.symbol property.1)) >>= fun name =>
      readProperties finalConstants (flattenPairs (properties.map fun property =>
        (position finalConstants (.symbol property.1), .ofNat property.2))) >>= fun properties =>
      pure ((name, (UInt32.ofNat property.2).toNat) :: properties)) = _
    rw [readSymbol_position hlength hname, hrest, toNat_ofNat hvalue]
    rfl

theorem binaryOps_code (op : IrBinaryOp) : binaryOps[(binaryOpCode op).toNat]? = some op := by
  cases op <;> rfl

/-- The operands say what the instruction is. -/
theorem readKind_encodeKind (kind : IrInstructionKind) (hlength : finalConstants.length ≤ 2 ^ 32)
    (hconstants : ∀ constant ∈ constants kind, constant ∈ finalConstants)
    (hnames : ∀ name ∈ localNames kind, nameAt slots (position finalNames name) = some name)
    (hnumbers : ∀ n ∈ numbers kind, n < 2 ^ 32) :
    readKind finalConstants slots (encodeKind finalConstants finalNames kind).1
      (encodeKind finalConstants finalNames kind).2 = some kind := by
  have hsymbol (name : String) (hname : constants kind = [.symbol name]) :
      readSymbol finalConstants (position finalConstants (.symbol name)) = some name := by
    refine readSymbol_position hlength (hconstants _ ?_)
    rw [hname]
    exact List.mem_cons_self
  have hslot (name : String) (hname : localNames kind = [name]) :
      nameAt slots (position finalNames name) = some name := by
    refine hnames name ?_
    rw [hname]
    exact List.mem_cons_self
  have hnumber (n : ℕ) (hn : n ∈ numbers kind) : (UInt32.ofNat n).toNat = n :=
    toNat_ofNat (hnumbers n hn)
  cases kind with
  | loadConst constant =>
    have hliteral (found : Constant) (hmem : found ∈ finalConstants)
        (hread : readConst found = some constant) :
        readKind finalConstants slots .loadConst [position finalConstants found] =
          some (.loadConst constant) := by
      have hfound : finalConstants[(position finalConstants found).toNat]? = some found :=
        Pool.getElem?_idxOf hlength hmem
      change (finalConstants[(position finalConstants found).toNat]? >>= fun constant =>
        readConst constant >>= fun constant => pure (IrInstructionKind.loadConst constant)) = _
      rw [hfound]
      change (readConst found >>= fun constant => pure (IrInstructionKind.loadConst constant)) = _
      rw [hread]
      rfl
    cases constant with
    | object properties =>
      have hcount := hnumber properties.length List.mem_cons_self
      have hproperties := readProperties_encode hlength properties
        (fun property hproperty => hconstants _ (List.mem_map_of_mem hproperty))
        (fun property hproperty => hnumbers _ (List.mem_cons_of_mem _ (List.mem_map_of_mem hproperty)))
      change (readProperties finalConstants (flattenPairs (properties.map fun property =>
          (position finalConstants (.symbol property.1), .ofNat property.2))) >>= fun read =>
        if read.length = (UInt32.ofNat properties.length).toNat then
          pure (IrInstructionKind.loadConst (.object read)) else none) = _
      rw [hproperties]
      exact if_pos hcount.symm
    | array elements =>
      have hcount := hnumber elements.length List.mem_cons_self
      have hvalues := map_toNat_ofNat fun n hn => hnumbers n (List.mem_cons_of_mem _ hn)
      change (if (elements.map UInt32.ofNat).length = (UInt32.ofNat elements.length).toNat then
        some (IrInstructionKind.loadConst (.array ((elements.map UInt32.ofNat).map UInt32.toNat)))
        else none) = _
      rw [hvalues, List.length_map]
      exact if_pos hcount.symm
    | _ => exact hliteral _ (hconstants _ List.mem_cons_self) rfl
  | loadLocal name =>
    change (nameAt slots (position finalNames name)).map IrInstructionKind.loadLocal = _
    rw [hslot name rfl]
    rfl
  | storeLocal name value =>
    have hvalue := hnumber value List.mem_cons_self
    change (nameAt slots (position finalNames name)).map (fun name =>
      IrInstructionKind.storeLocal name (UInt32.ofNat value).toNat) = _
    rw [hslot name rfl, hvalue]
    rfl
  | loadMember object property =>
    have hobject := hnumber object List.mem_cons_self
    change (readSymbol finalConstants (position finalConstants (.symbol property))).map
      (IrInstructionKind.loadMember (UInt32.ofNat object).toNat) = _
    rw [hsymbol property rfl, hobject]
    rfl
  | storeMember object property value =>
    have hobject := hnumber object List.mem_cons_self
    have hvalue := hnumber value (List.mem_cons_of_mem _ List.mem_cons_self)
    change (readSymbol finalConstants (position finalConstants (.symbol property))).map
      (fun name => IrInstructionKind.storeMember (UInt32.ofNat object).toNat name
        (UInt32.ofNat value).toNat) = _
    rw [hsymbol property rfl, hobject, hvalue]
    rfl
  | binary op left right =>
    have hleft := hnumber left List.mem_cons_self
    have hright := hnumber right (List.mem_cons_of_mem _ List.mem_cons_self)
    change binaryOps[(binaryOpCode op).toNat]?.map (fun op =>
      IrInstructionKind.binary op (UInt32.ofNat left).toNat (UInt32.ofNat right).toNat) = _
    rw [binaryOps_code, hleft, hright]
    rfl
  | call callee args =>
    have hcount := hnumber args.length List.mem_cons_self
    have hvalues := map_toNat_ofNat fun n hn => hnumbers n (List.mem_cons_of_mem _ hn)
    change (if (args.map UInt32.ofNat).length = (UInt32.ofNat args.length).toNat then
      (readSymbol finalConstants (position finalConstants (.symbol callee))).map fun callee =>
        IrInstructionKind.call callee ((args.map UInt32.ofNat).map UInt32.toNat) else none) = _
    rw [hvalues, hsymbol callee rfl, List.length_map]
    exact if_pos hcount.symm
  | branch condition thenBlock elseBlock =>
    have hcondition := hnumber condition List.mem_cons_self
    have hthen := hnumber thenBlock (List.mem_cons_of_mem _ List.mem_cons_self)
    have helse := hnumber elseBlock
      (List.mem_cons_of_mem _ (List.mem_cons_of_mem _ List.mem_cons_self))
    change some (IrInstructionKind.branch (UInt32.ofNat condition).toNat
      (UInt32.ofNat thenBlock).toNat (UInt32.ofNat elseBlock).toNat) = _
    rw [hcondition, hthen, helse]
  | jump target =>
    have htarget := hnumber target List.mem_cons_self
    change some (IrInstructionKind.jump (UInt32.ofNat target).toNat) = _
    rw [htarget]
  | «return» value =>
    cases value with
    | none => rfl
    | some value =>
      have hvalue := hnumber value List.mem_cons_self
      change some (IrInstructionKind.return (some (UInt32.ofNat value).toNat)) = _
      rw [hvalue]

end

theorem mem_indices {α : Type} {entries : List α} {entry : α} {id : UInt32} :
    (entry, id) ∈ Pool.indices entries ↔ ∃ i, entries[i]? = some entry ∧ id = .ofNat i := by
  rw [Pool.indices, List.mem_reverse, List.mem_map]
  constructor
  · rintro ⟨⟨found, i⟩, hmem, heq⟩
    cases heq
    exact ⟨i, List.mem_zipIdx_iff_getElem?.mp hmem, rfl⟩
  · rintro ⟨i, hi, rfl⟩
    exact ⟨(entry, i), List.mem_zipIdx_iff_getElem?.mpr hi, rfl⟩

theorem nameAt_position {names : Pool String} (h : names.Indexed)
    (hlength : names.entries.length ≤ 2 ^ 32) {name : String} (hmem : name ∈ names.entries) :
    nameAt (slotsOf names) (position names.entries name) = some name := by
  have hentry : (name, position names.entries name) ∈ names.ids := by
    rw [h.ids]
    exact mem_indices.mpr ⟨_, List.getElem?_idxOf hmem, rfl⟩
  have hfound := Pool.getElem?_idxOf hlength hmem
  rw [nameAt, slotsOf]
  dsimp only
  cases hfind : names.ids.find? fun entry => entry.2 == position names.entries name with
  | none =>
    have hnone := List.find?_eq_none.mp hfind _ hentry
    exact absurd (beq_self_eq_true _) hnone
  | some found =>
    obtain ⟨other, id⟩ := found
    have hbeq := List.find?_some hfind
    have hid : id = position names.entries name := eq_of_beq hbeq
    have hother := List.mem_of_find?_eq_some hfind
    rw [h.ids] at hother
    obtain ⟨i, hi, hposition⟩ := mem_indices.mp hother
    have hlt := (List.getElem?_eq_some_iff.mp hi).1
    have hi' : (position names.entries name).toNat = i := by
      rw [← hid, hposition]
      exact toNat_ofNat (Nat.lt_of_lt_of_le hlt hlength)
    rw [← hi'] at hi
    exact congrArg some (Option.some.inj (hi.symm.trans hfound))

theorem functionNames_indexed {function : IrFunction}
    (hparams : (function.params.map IrParam.name).Nodup) : (functionNames function).Indexed :=
  (parameterNames_indexed hparams).internAll _

theorem mem_functionNames {function : IrFunction}
    (hparams : (function.params.map IrParam.name).Nodup) (name : String) :
    name ∈ (functionNames function).entries ↔
      name ∈ function.params.map IrParam.name ++ codeNames (blocksCode function.blocks) := by
  rw [functionNames, (parameterNames_indexed hparams).mem_internAll, List.mem_append]
  rfl

theorem compileInstructions_slots (code : List IrInstruction) (s : Compiler) (slots : LocalSlots) :
    (compileInstructions code s slots).2.2 = codeSlots slots code := by
  induction code generalizing s slots with
  | nil => rfl
  | cons instruction code ih =>
    have hfirst : (compileInstruction instruction s slots).2.2 =
        slotsAfter instruction.kind slots := by
      obtain ⟨kind, result, ty, span⟩ := instruction
      cases kind <;> rfl
    refine (ih (compileInstruction instruction s slots).2.1
      (compileInstruction instruction s slots).2.2).trans ?_
    rw [hfirst]
    rfl

theorem compileBlocks_slots (blocks : List IrBlock) (s : Compiler) (slots : LocalSlots) :
    (compileBlocks blocks s slots).2.2 = blocksSlots slots blocks := by
  induction blocks generalizing s slots with
  | nil => rfl
  | cons block blocks ih =>
    refine (ih (compileInstructions block.instructions s slots).2.1
      (compileInstructions block.instructions s slots).2.2).trans ?_
    rw [compileInstructions_slots]
    rfl

theorem finalSlots_eq {function : IrFunction}
    (hparams : (function.params.map IrParam.name).Nodup) :
    finalSlots function = slotsOf (functionNames function) := by
  have hheads : Heads .new (blocksCode function.blocks)
      (tablesOf (advance (blocksCode function.blocks) .new)) :=
    ⟨⟨.empty, List.prefix_rfl⟩, ⟨.empty, List.prefix_rfl⟩⟩
  have hnames : Towards (parameterNames function.params) (codeNames (blocksCode function.blocks))
      (functionNames function).entries := ⟨parameterNames_indexed hparams, List.prefix_rfl⟩
  have hblocks := compileBlocks_eq function.blocks hheads hnames
  rw [finalSlots, ← compileBlocks_slots function.blocks .new, parameterSlots_eq, hblocks]
  rfl

theorem propertyOperands_pools (properties : List (String × ValueId)) (s : Compiler) :
    (propertyOperands properties s).2 =
      ⟨s.constants.internAll (properties.map fun property => .symbol property.1), s.sourceMap⟩ := by
  induction properties generalizing s with
  | nil => rfl
  | cons property properties ih => exact ih (internConstant (.symbol property.1) s).2

theorem compileKind_pools (kind : IrInstructionKind) (s : Compiler) (slots : LocalSlots) :
    (compileKind kind s slots).2.2.1 =
      { s with constants := s.constants.internAll (constants kind) } := by
  cases kind with
  | loadConst constant =>
    cases constant with
    | object properties => exact propertyOperands_pools properties s
    | _ => rfl
  | _ => rfl

theorem compileInstructions_pools (code : List IrInstruction) (s : Compiler) (slots : LocalSlots) :
    (compileInstructions code s slots).2.1 = advance code s := by
  induction code generalizing s slots with
  | nil => rfl
  | cons instruction code ih =>
    have hfirst : (compileInstruction instruction s slots).2.1 = advance [instruction] s := by
      refine (compileKind_pools instruction.kind
        (internSource (sourceRefFromSpan instruction.sourceSpan) s).2 slots).trans ?_
      rw [advance, codeConstants, List.flatMap_singleton]
      rfl
    refine (ih (compileInstruction instruction s slots).2.1
      (compileInstruction instruction s slots).2.2).trans ?_
    rw [hfirst, ← advance_append]
    rfl

structure ReadsInstruction (m : BytecodeModule) (slots : LocalSlots) (instruction : IrInstruction)
    (compiled : Instruction) : Prop where
  kind : readKind m.constants slots compiled.opcode compiled.operands = some instruction.kind
  source : m.sourceMap[compiled.sourceRef.toNat]?.map readSpan = some instruction.sourceSpan
  typeTag : compiled.typeTag = typeTag instruction.ty

structure ReadsBlock (m : BytecodeModule) (slots : LocalSlots) (block : IrBlock)
    (compiled : BytecodeBlock) : Prop where
  id : compiled.id.toNat = block.id
  instructions : List.Forall₂ (ReadsInstruction m slots) block.instructions compiled.instructions

/-- `final` is the map from names to slots behind the last block. -/
structure ReadsFunction (m : BytecodeModule) (function : IrFunction) (compiled : BytecodeFunction)
    (final : LocalSlots) : Prop where
  name : compiled.name = function.name
  params : compiled.params = function.params.map fun param => typeTag param.ty
  returnType : compiled.returnType = typeTag function.returnType
  injective : ∀ name name' slot, final.ids.lookup name = some slot →
    final.ids.lookup name' = some slot → name = name'
  parameters : ∀ i param, function.params[i]? = some param →
    ∃ slot, final.ids.lookup param.name = some slot ∧ slot.toNat = i
  blocks : List.Forall₂ (ReadsBlock m final) function.blocks compiled.blocks

/-- The module says what the program is. -/
structure ReadsBack (m : BytecodeModule) (ir : IrProgram) : Prop where
  constants : m.constants.Nodup
  sourceMap : m.sourceMap.Nodup
  kept : ∀ before after slots, functionsCode (allFunctions ir) = before ++ after →
    (compileInstructions before .new slots).2.1.constants.entries <+: m.constants ∧
      (compileInstructions before .new slots).2.1.sourceMap.entries <+: m.sourceMap
  functions : List.Forall₂ (fun function compiled => ∀ s,
    ReadsFunction m function compiled
      (compileBlocks function.blocks s (parameterSlots function.params)).2.2)
    (allFunctions ir) m.functions

theorem length_eq_card {α : Type} [DecidableEq α] {entries mentioned : List α}
    (hnodup : entries.Nodup) (hmem : ∀ entry, entry ∈ entries ↔ entry ∈ mentioned) :
    entries.length = mentioned.toFinset.card := by
  rw [← List.toFinset_card_of_nodup hnodup]
  congr 1
  ext entry
  rw [List.mem_toFinset, List.mem_toFinset, hmem entry]

section

variable {ir : IrProgram}

theorem finalTables_constants (ir : IrProgram) :
    (finalTables ir).constants.Nodup ∧ ∀ constant, constant ∈ (finalTables ir).constants ↔
      constant ∈ codeConstants (functionsCode (allFunctions ir)) := by
  have hempty : (Pool.empty : Pool Constant).Indexed := .empty
  refine ⟨(hempty.internAll _).nodup, fun constant => (hempty.mem_internAll _ constant).trans ?_⟩
  exact or_iff_right List.not_mem_nil

theorem finalTables_sources (ir : IrProgram) :
    (finalTables ir).sources.Nodup ∧ ∀ source, source ∈ (finalTables ir).sources ↔
      source ∈ codeSources (functionsCode (allFunctions ir)) := by
  have hempty : (Pool.empty : Pool SourceRef).Indexed := .empty
  refine ⟨(hempty.internAll _).nodup, fun source => (hempty.mem_internAll _ source).trans ?_⟩
  exact or_iff_right List.not_mem_nil

theorem Small.constants_length (h : Small ir) : (finalTables ir).constants.length ≤ 2 ^ 32 := by
  obtain ⟨hnodup, hmem⟩ := finalTables_constants ir
  rw [length_eq_card hnodup hmem]
  exact Nat.le_of_lt h.constants

theorem Small.sources_length (h : Small ir) : (finalTables ir).sources.length ≤ 2 ^ 32 := by
  obtain ⟨hnodup, hmem⟩ := finalTables_sources ir
  rw [length_eq_card hnodup hmem]
  exact Nat.le_of_lt h.sources

theorem Small.names_length (h : Small ir) {function : IrFunction}
    (hfunction : function ∈ allFunctions ir)
    (hparams : (function.params.map IrParam.name).Nodup) :
    (functionNames function).entries.length < 2 ^ 32 := by
  rw [length_eq_card (functionNames_indexed hparams).nodup (mem_functionNames hparams)]
  exact h.names function hfunction

theorem readSpan_sourceRef {span : Span} (h : ∀ n ∈ spanNumbers span, n < 2 ^ 32) :
    readSpan (sourceRefFromSpan span) = span := by
  obtain ⟨⟨startByte, startLine, startColumn⟩, ⟨endByte, endLine, endColumn⟩⟩ := span
  have hnumber (n : ℕ) (hn : n ∈ spanNumbers ⟨⟨startByte, startLine, startColumn⟩,
      ⟨endByte, endLine, endColumn⟩⟩) : (UInt32.ofNat n).toNat = n := toNat_ofNat (h n hn)
  rw [readSpan, sourceRefFromSpan]
  dsimp only
  rw [hnumber startByte (by simp [spanNumbers]), hnumber startLine (by simp [spanNumbers]),
    hnumber startColumn (by simp [spanNumbers]), hnumber endByte (by simp [spanNumbers]),
    hnumber endLine (by simp [spanNumbers]), hnumber endColumn (by simp [spanNumbers])]

theorem Small.instruction (h : Small ir) {function : IrFunction}
    (hfunction : function ∈ allFunctions ir)
    (hparams : (function.params.map IrParam.name).Nodup) {instruction : IrInstruction}
    (hinstruction : instruction ∈ blocksCode function.blocks) {m : BytecodeModule}
    (hconstants : m.constants = (finalTables ir).constants)
    (hsources : m.sourceMap = (finalTables ir).sources) :
    ReadsInstruction m (slotsOf (functionNames function)) instruction
      (encode (finalTables ir) (functionNames function).entries instruction) := by
  have hcode : instruction ∈ functionsCode (allFunctions ir) :=
    List.mem_flatMap.mpr ⟨function, hfunction, hinstruction⟩
  have hnumbers := h.code instruction hcode
  refine ⟨?_, ?_, rfl⟩
  · rw [hconstants]
    refine readKind_encodeKind _ h.constants_length (fun constant hconstant => ?_)
      (fun name hname => ?_) (fun n hn => hnumbers n (List.mem_append_left _ hn))
    · exact ((finalTables_constants ir).2 constant).mpr
        (List.mem_flatMap.mpr ⟨instruction, hcode, hconstant⟩)
    · refine nameAt_position (functionNames_indexed hparams)
        (Nat.le_of_lt (h.names_length hfunction hparams)) ((mem_functionNames hparams name).mpr ?_)
      exact List.mem_append_right _ (List.mem_flatMap.mpr ⟨instruction, hinstruction, hname⟩)
  · have hsource : sourceRefFromSpan instruction.sourceSpan ∈ (finalTables ir).sources :=
      ((finalTables_sources ir).2 _).mpr (List.mem_map_of_mem hcode)
    have hfound : (finalTables ir).sources[(encode (finalTables ir) (functionNames function).entries
        instruction).sourceRef.toNat]? = some (sourceRefFromSpan instruction.sourceSpan) :=
      Pool.getElem?_idxOf h.sources_length hsource
    rw [hsources, hfound, Option.map_some,
      readSpan_sourceRef fun n hn => hnumbers n (List.mem_append_right _ hn)]

theorem slotsOf_lookup {names : Pool String} (h : names.Indexed) {name : String} {slot : UInt32}
    (hlookup : (slotsOf names).ids.lookup name = some slot) :
    name ∈ names.entries ∧ slot = position names.entries name := by
  have hids : (slotsOf names).ids.lookup name = names.ids.lookup name := rfl
  rw [hids, h.lookup] at hlookup
  split at hlookup
  · rename_i hmem
    exact ⟨hmem, (Option.some.inj hlookup).symm⟩
  · cases hlookup

theorem Small.function (h : Small ir) {function : IrFunction}
    (hfunction : function ∈ allFunctions ir)
    (hparams : (function.params.map IrParam.name).Nodup) {m : BytecodeModule}
    (hconstants : m.constants = (finalTables ir).constants)
    (hsources : m.sourceMap = (finalTables ir).sources) :
    ReadsFunction m function (encodeFunction (finalTables ir) function)
      (slotsOf (functionNames function)) := by
  have hindexed := functionNames_indexed hparams
  have hlength := h.names_length hfunction hparams
  refine ⟨rfl, rfl, rfl, ?_, ?_, ?_⟩
  · intro name name' slot hname hname'
    obtain ⟨hmem, hslot⟩ := slotsOf_lookup hindexed hname
    obtain ⟨hmem', hslot'⟩ := slotsOf_lookup hindexed hname'
    have hfound := Pool.getElem?_idxOf (Nat.le_of_lt hlength) hmem
    have hfound' := Pool.getElem?_idxOf (Nat.le_of_lt hlength) hmem'
    change (functionNames function).entries[(position _ name).toNat]? = _ at hfound
    change (functionNames function).entries[(position _ name').toNat]? = _ at hfound'
    rw [← hslot] at hfound
    rw [← hslot'] at hfound'
    exact Option.some.inj (hfound.symm.trans hfound')
  · intro i param hi
    have hname : (function.params.map IrParam.name)[i]? = some param.name := by
      rw [List.getElem?_map, hi]
      rfl
    have hgrows : (parameterNames function.params).Grows (functionNames function) :=
      Pool.internAll_grows _ _
    have hat : (functionNames function).entries[i]? = some param.name := hgrows.getElem? hname
    obtain ⟨hlt, hget⟩ := List.getElem?_eq_some_iff.mp hat
    have hidx : (functionNames function).entries.idxOf param.name = i := by
      rw [← hget]
      exact hindexed.nodup.idxOf_getElem i hlt
    refine ⟨position (functionNames function).entries param.name, ?_, ?_⟩
    · have hids : (slotsOf (functionNames function)).ids.lookup param.name =
          (functionNames function).ids.lookup param.name := rfl
      rw [hids, hindexed.lookup, if_pos (List.mem_of_getElem? hat)]
      rfl
    · rw [position, hidx]
      exact toNat_ofNat (by omega)
  · refine List.forall₂_map_right_iff.mpr (List.forall₂_same.mpr fun block hblock => ⟨?_, ?_⟩)
    · exact toNat_ofNat (h.blocks function hfunction block hblock)
    · refine List.forall₂_map_right_iff.mpr (List.forall₂_same.mpr fun instruction hmem => ?_)
      exact h.instruction hfunction hparams (List.mem_flatMap.mpr ⟨block, hblock, hmem⟩)
        hconstants hsources

/-- The compiled module can be read back. -/
theorem compile_readsBack
    (hparams : ∀ function ∈ allFunctions ir, (function.params.map IrParam.name).Nodup)
    (hsmall : Small ir) : ReadsBack (compile ir) ir := by
  have hcompile := compile_eq hparams
  have hconstants : (compile ir).constants = (finalTables ir).constants := by rw [hcompile]
  have hsources : (compile ir).sourceMap = (finalTables ir).sources := by rw [hcompile]
  refine ⟨?_, ?_, ?_, ?_⟩
  · rw [hconstants]
    exact (finalTables_constants ir).1
  · rw [hsources]
    exact (finalTables_sources ir).1
  · intro before after slots hcode
    rw [compileInstructions_pools, hconstants, hsources, finalTables, hcode, advance_append]
    exact ⟨Pool.internAll_grows _ _, Pool.internAll_grows _ _⟩
  · have hfunctions : (compile ir).functions =
        (allFunctions ir).map (encodeFunction (finalTables ir)) := by rw [hcompile]
    rw [hfunctions]
    refine List.forall₂_map_right_iff.mpr (List.forall₂_same.mpr fun function hmem s => ?_)
    have hslots : (compileBlocks function.blocks s (parameterSlots function.params)).2.2 =
        slotsOf (functionNames function) := by
      rw [compileBlocks_slots, ← finalSlots_eq (hparams function hmem)]
      rfl
    rw [hslots]
    exact hsmall.function hmem (hparams function hmem) hconstants hsources

end

/-- `function f(a, b) { b = { a: a }; return b; }`, with everything at one place, and its call. -/
def pairProgram : IrProgram where
  functions := [⟨"f", [⟨"a", .number⟩, ⟨"b", .unknown⟩], .unknown,
    [⟨0, [⟨.loadLocal "a", some 0, .number, Lowering.emptySpan⟩,
      ⟨.loadConst (.object [("a", 0)]), some 1, .object [], Lowering.emptySpan⟩,
      ⟨.storeLocal "b" 1, none, .unknown, Lowering.emptySpan⟩,
      ⟨.loadLocal "b", some 2, .unknown, Lowering.emptySpan⟩,
      ⟨.return (some 2), none, .unknown, Lowering.emptySpan⟩]⟩], Lowering.emptySpan⟩]
  entry := ⟨"__entry", [], .undefined,
    [⟨0, [⟨.loadConst (.number "1"), some 0, .number, Lowering.emptySpan⟩,
      ⟨.call "f" [0, 0], some 1, .unknown, Lowering.emptySpan⟩,
      ⟨.storeLocal "c" 1, none, .unknown, Lowering.emptySpan⟩,
      ⟨.return none, none, .undefined, Lowering.emptySpan⟩]⟩], Lowering.emptySpan⟩
  sourceSpan := none

theorem pairProgram_readsBack : ReadsBack (compile pairProgram) pairProgram :=
  compile_readsBack (by decide)
    ⟨by decide, by decide, by decide, by decide, by decide⟩

end Tsvm.CodeReadings
