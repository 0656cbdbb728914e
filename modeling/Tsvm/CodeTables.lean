import Tsvm.CompiledOperands
import Tsvm.InterningOrder

set_option autoImplicit false

/-!
# Code for finished tables

The compiler makes the same code as a translation that knows the finished pools from
the start: the operand of a constant or a name is its position in the finished table.
-/
namespace Tsvm.CodeTables
open Bytecode BytecodeVerifierFacts Interning Ir Compilation LoweringBlocks CompiledOperands

/-- The constants that an instruction needs, in the order in which they are interned. -/
def constants : IrInstructionKind → List Constant
  | .loadConst (.object properties) => properties.map fun property => .symbol property.1
  | .loadConst constant => (literal constant).toList
  | .loadMember _ property | .storeMember _ property _ => [.symbol property]
  | .call callee _ => [.symbol callee]
  | .loadLocal _ | .storeLocal _ _ | .binary _ _ _ | .branch _ _ _ | .jump _ | .return _ => []

def localNames : IrInstructionKind → List String
  | .loadLocal name | .storeLocal name _ => [name]
  | _ => []

def position {α : Type} [BEq α] (entries : List α) (entry : α) : UInt32 :=
  .ofNat (entries.idxOf entry)

section

variable (finalConstants : List Constant) (finalNames : List String)

def encodeKind : IrInstructionKind → Opcode × List UInt32
  | .loadConst (.object properties) =>
    (.buildObject, .ofNat properties.length :: flattenPairs (properties.map fun property =>
      (position finalConstants (.symbol property.1), .ofNat property.2)))
  | .loadConst (.array elements) => (.buildArray, .ofNat elements.length :: elements.map .ofNat)
  | .loadConst constant =>
    (.loadConst, (literal constant).toList.map (position finalConstants))
  | .loadLocal name => (.loadLocal, [position finalNames name])
  | .storeLocal name value => (.storeLocal, [position finalNames name, .ofNat value])
  | .loadMember object property =>
    (.loadMember, [.ofNat object, position finalConstants (.symbol property)])
  | .storeMember object property value =>
    (.storeMember, [.ofNat object, position finalConstants (.symbol property), .ofNat value])
  | .binary op left right => (.binary, [binaryOpCode op, .ofNat left, .ofNat right])
  | .call callee args =>
    (.call, position finalConstants (.symbol callee) :: .ofNat args.length :: args.map .ofNat)
  | .branch condition thenBlock elseBlock =>
    (.branch, [.ofNat condition, .ofNat thenBlock, .ofNat elseBlock])
  | .jump target => (.jump, [.ofNat target])
  | .return value => (.return, value.toList.map .ofNat)

end

def slotsOf (names : Pool String) : LocalSlots := ⟨names.ids, .ofNat names.entries.length⟩

theorem localId_slotsOf (names : Pool String) (name : String) :
    localId name (slotsOf names) = ((names.intern name).1, slotsOf (names.intern name).2) := by
  rw [localId, Pool.intern, slotsOf]
  dsimp only
  cases names.ids.lookup name with
  | some id => rfl
  | none =>
    dsimp only
    rw [slotsOf, List.length_append, List.length_singleton, UInt32.ofNat_add]
    rfl

def parameterNames (params : List IrParam) : Pool String :=
  ⟨params.map IrParam.name, Pool.indices (params.map IrParam.name)⟩

theorem parameterNames_indexed {params : List IrParam} (h : (params.map IrParam.name).Nodup) :
    (parameterNames params).Indexed := ⟨h, rfl⟩

theorem parameterSlots_eq (params : List IrParam) :
    parameterSlots params = slotsOf (parameterNames params) := by
  rw [parameterSlots, slotsOf, parameterNames, Pool.indices, List.zipIdx_map, List.map_map, List.length_map]
  rfl

/-- A table that is on the way to a finished one. -/
structure Towards {α : Type} [BEq α] (pool : Pool α) (more final : List α) : Prop where
  indexed : pool.Indexed
  entries : (pool.internAll more).entries <+: final

section

variable {α : Type} [BEq α] [LawfulBEq α] {pool : Pool α} {final : List α}

theorem Towards.append {first second : List α} (h : Towards pool (first ++ second) final) :
    Towards pool first final ∧ Towards (pool.internAll first) second final := by
  have hentries := h.entries
  rw [Pool.internAll_append] at hentries
  have hfirst : (pool.internAll first).entries <+: final :=
    List.IsPrefix.trans (Pool.internAll_grows _ second) hentries
  exact ⟨⟨h.indexed, hfirst⟩,
    ⟨h.indexed.internAll first, hentries⟩⟩

theorem Towards.index {entry : α} (h : Towards pool [entry] final) :
    (pool.intern entry).1 = position final entry :=
  (h.indexed.intern_index h.entries).1

end

section

variable {finalConstants : List Constant} {finalSources : List SourceRef} {finalNames : List String}

theorem propertyOperands_eq (properties : List (String × ValueId)) {s : Compiler}
    (h : Towards s.constants (properties.map fun property => .symbol property.1) finalConstants) :
    propertyOperands properties s =
      (flattenPairs (properties.map fun property =>
        (position finalConstants (.symbol property.1), .ofNat property.2)),
      { s with constants :=
          s.constants.internAll (properties.map fun property => .symbol property.1) }) := by
  induction properties generalizing s with
  | nil => rfl
  | cons property properties ih =>
    obtain ⟨name, value⟩ := property
    have hsplit : Towards s.constants
        ([Constant.symbol name] ++ properties.map fun property => Constant.symbol property.1)
        finalConstants := h
    obtain ⟨hfirst, hrest⟩ := hsplit.append
    have hindex : (internConstant (.symbol name) s).1 = position finalConstants (.symbol name) :=
      hfirst.index
    have htail := @ih (internConstant (.symbol name) s).2 hrest
    rw [propertyOperands]
    dsimp only
    rw [htail, hindex]
    rfl

theorem irConstOperands_eq (constant : IrConst) {s : Compiler} {found : Constant}
    (hfound : literal constant = some found) (h : Towards s.constants [found] finalConstants) :
    irConstOperands constant s =
      ([position finalConstants found], { s with constants := s.constants.internAll [found] }) := by
  have hindex : (internConstant found s).1 = position finalConstants found := h.index
  have hsingle : ([(internConstant found s).1], (internConstant found s).2) =
      ([position finalConstants found],
        { s with constants := s.constants.internAll [found] }) := by
    rw [hindex]
    rfl
  cases constant <;> cases hfound <;> exact hsingle

theorem compileKind_eq (kind : IrInstructionKind) {s : Compiler} {names : Pool String}
    (hconstants : Towards s.constants (constants kind) finalConstants)
    (hnames : Towards names (localNames kind) finalNames) :
    compileKind kind s (slotsOf names) =
      ((encodeKind finalConstants finalNames kind).1, (encodeKind finalConstants finalNames kind).2,
        { s with constants := s.constants.internAll (constants kind) },
        slotsOf (names.internAll (localNames kind))) := by
  have hsymbol (name : String) (hname : constants kind = [.symbol name]) :
      (internConstant (.symbol name) s).1 = position finalConstants (.symbol name) := by
    rw [hname] at hconstants
    exact hconstants.index
  have hslot (name : String) (hname : localNames kind = [name]) :
      localId name (slotsOf names) = (position finalNames name, slotsOf (names.internAll [name])) := by
    rw [hname] at hnames
    rw [localId_slotsOf, hnames.index]
    rfl
  cases kind with
  | loadConst constant =>
    cases constant with
    | object properties =>
      rw [compileKind, irConstOperands, propertyOperands_eq properties hconstants]
      rfl
    | array elements => rfl
    | _ =>
      rw [compileKind, irConstOperands_eq _ rfl hconstants]
      rfl
  | loadLocal name =>
    rw [compileKind, hslot name rfl]
    rfl
  | storeLocal name value =>
    rw [compileKind, hslot name rfl]
    rfl
  | loadMember object property =>
    rw [encodeKind, ← hsymbol property rfl]
    rfl
  | storeMember object property value =>
    rw [encodeKind, ← hsymbol property rfl]
    rfl
  | call callee args =>
    rw [encodeKind, ← hsymbol callee rfl]
    rfl
  | binary op left right => rfl
  | branch condition thenBlock elseBlock => rfl
  | jump target => rfl
  | «return» value => rfl

end

def codeConstants (code : List IrInstruction) : List Constant :=
  code.flatMap fun instruction => constants instruction.kind

def codeSources (code : List IrInstruction) : List SourceRef :=
  code.map fun instruction => sourceRefFromSpan instruction.sourceSpan

def codeNames (code : List IrInstruction) : List String :=
  code.flatMap fun instruction => localNames instruction.kind

theorem codeNames_append (first second : List IrInstruction) :
    codeNames (first ++ second) = codeNames first ++ codeNames second := List.flatMap_append

/-- The pools behind a piece of code. -/
def advance (code : List IrInstruction) (s : Compiler) : Compiler :=
  ⟨s.constants.internAll (codeConstants code), s.sourceMap.internAll (codeSources code)⟩

theorem advance_append (first second : List IrInstruction) (s : Compiler) :
    advance (first ++ second) s = advance second (advance first s) := by
  rw [advance, codeConstants, codeSources, List.flatMap_append, List.map_append,
    Pool.internAll_append, Pool.internAll_append]
  rfl

def blocksCode (blocks : List IrBlock) : List IrInstruction :=
  blocks.flatMap IrBlock.instructions

def functionsCode (functions : List IrFunction) : List IrInstruction :=
  functions.flatMap fun function => blocksCode function.blocks

/-- The names of the locals of a function: the parameters, then what the code mentions. -/
def functionNames (function : IrFunction) : Pool String :=
  (parameterNames function.params).internAll (codeNames (blocksCode function.blocks))

structure Tables where
  constants : List Constant
  sources : List SourceRef

def tablesOf (s : Compiler) : Tables := ⟨s.constants.entries, s.sourceMap.entries⟩

def encode (tables : Tables) (finalNames : List String) (instruction : IrInstruction) :
    Instruction where
  opcode := (encodeKind tables.constants finalNames instruction.kind).1
  operands := (encodeKind tables.constants finalNames instruction.kind).2
  typeTag := typeTag instruction.ty
  sourceRef := position tables.sources (sourceRefFromSpan instruction.sourceSpan)

def encodeBlock (tables : Tables) (finalNames : List String) (block : IrBlock) : BytecodeBlock :=
  ⟨.ofNat block.id, block.instructions.map (encode tables finalNames)⟩

def encodeFunction (tables : Tables) (function : IrFunction) : BytecodeFunction where
  name := function.name
  params := function.params.map fun param => typeTag param.ty
  returnType := typeTag function.returnType
  blocks := function.blocks.map (encodeBlock tables (functionNames function).entries)
  exceptionTable := []

/-- The pools are on their way to the tables, with this code before them. -/
structure Heads (s : Compiler) (code : List IrInstruction) (tables : Tables) : Prop where
  constants : Towards s.constants (codeConstants code) tables.constants
  sources : Towards s.sourceMap (codeSources code) tables.sources

theorem Heads.append {s : Compiler} {first second : List IrInstruction} {tables : Tables}
    (h : Heads s (first ++ second) tables) :
    Heads s first tables ∧ Heads (advance first s) second tables := by
  have hconstants := h.constants
  have hsources := h.sources
  rw [codeConstants, List.flatMap_append] at hconstants
  rw [codeSources, List.map_append] at hsources
  exact ⟨⟨hconstants.append.1, hsources.append.1⟩, ⟨hconstants.append.2, hsources.append.2⟩⟩

section

variable {tables : Tables} {finalNames : List String}

theorem compileInstruction_eq {instruction : IrInstruction} {s : Compiler} {names : Pool String}
    (h : Heads s [instruction] tables)
    (hnames : Towards names (localNames instruction.kind) finalNames) :
    compileInstruction instruction s (slotsOf names) =
      (encode tables finalNames instruction, advance [instruction] s,
        slotsOf (names.internAll (localNames instruction.kind))) := by
  have hsource : (internSource (sourceRefFromSpan instruction.sourceSpan) s).1 =
      position tables.sources (sourceRefFromSpan instruction.sourceSpan) := h.sources.index
  have hconstants := h.constants
  rw [codeConstants, List.flatMap_singleton] at hconstants
  have hkind := @compileKind_eq tables.constants finalNames instruction.kind
    (internSource (sourceRefFromSpan instruction.sourceSpan) s).2 names hconstants hnames
  rw [compileInstruction]
  dsimp only
  rw [hkind, hsource, advance, codeConstants, List.flatMap_singleton]
  rfl

theorem compileInstructions_eq (code : List IrInstruction) {s : Compiler} {names : Pool String}
    (h : Heads s code tables) (hnames : Towards names (codeNames code) finalNames) :
    compileInstructions code s (slotsOf names) =
      (code.map (encode tables finalNames), advance code s,
        slotsOf (names.internAll (codeNames code))) := by
  induction code generalizing s names with
  | nil => rfl
  | cons instruction code ih =>
    obtain ⟨hfirst, hrest⟩ : Heads s [instruction] tables ∧
      Heads (advance [instruction] s) code tables := Heads.append h
    have hall : codeNames (instruction :: code) = localNames instruction.kind ++ codeNames code :=
      List.flatMap_cons
    rw [hall] at hnames ⊢
    rw [compileInstructions]
    dsimp only
    rw [compileInstruction_eq hfirst hnames.append.1]
    dsimp only
    rw [ih hrest hnames.append.2, Pool.internAll_append, ← advance_append]
    rfl

theorem compileBlocks_eq (blocks : List IrBlock) {s : Compiler} {names : Pool String}
    (h : Heads s (blocksCode blocks) tables)
    (hnames : Towards names (codeNames (blocksCode blocks)) finalNames) :
    compileBlocks blocks s (slotsOf names) =
      (blocks.map (encodeBlock tables finalNames), advance (blocksCode blocks) s,
        slotsOf (names.internAll (codeNames (blocksCode blocks)))) := by
  induction blocks generalizing s names with
  | nil => rfl
  | cons block blocks ih =>
    have hall : blocksCode (block :: blocks) = block.instructions ++ blocksCode blocks :=
      List.flatMap_cons
    rw [hall] at h hnames ⊢
    obtain ⟨hfirst, hrest⟩ := h.append
    rw [codeNames_append] at hnames ⊢
    rw [compileBlocks]
    dsimp only
    rw [compileInstructions_eq _ hfirst hnames.append.1]
    dsimp only
    rw [ih hrest hnames.append.2, Pool.internAll_append, ← advance_append]
    rfl

theorem compileFunction_eq {function : IrFunction} {s : Compiler}
    (hparams : (function.params.map IrParam.name).Nodup)
    (h : Heads s (blocksCode function.blocks) tables) :
    compileFunction function s =
      (encodeFunction tables function, advance (blocksCode function.blocks) s) := by
  have hnames : Towards (parameterNames function.params) (codeNames (blocksCode function.blocks))
      (functionNames function).entries := ⟨parameterNames_indexed hparams, List.prefix_rfl⟩
  rw [compileFunction, parameterSlots_eq]
  dsimp only
  rw [compileBlocks_eq function.blocks h hnames]
  rfl

theorem compileFunctions_eq (functions : List IrFunction) {s : Compiler}
    (hparams : ∀ function ∈ functions, (function.params.map IrParam.name).Nodup)
    (h : Heads s (functionsCode functions) tables) :
    compileFunctions functions s =
      (functions.map (encodeFunction tables), advance (functionsCode functions) s) := by
  induction functions generalizing s with
  | nil => rfl
  | cons function functions ih =>
    have hall : functionsCode (function :: functions) =
        blocksCode function.blocks ++ functionsCode functions := List.flatMap_cons
    rw [hall] at h ⊢
    obtain ⟨hfirst, hrest⟩ := h.append
    obtain ⟨hfunction, hfunctions⟩ := List.forall_mem_cons.mp hparams
    rw [compileFunctions]
    dsimp only
    rw [compileFunction_eq hfunction hfirst]
    dsimp only
    rw [ih hfunctions hrest, ← advance_append]
    rfl

end

def finalTables (ir : IrProgram) : Tables :=
  tablesOf (advance (functionsCode (allFunctions ir)) .new)

/-- Compiling is translating for the pools that come out in the end. -/
theorem compile_eq {ir : IrProgram}
    (hparams : ∀ function ∈ allFunctions ir, (function.params.map IrParam.name).Nodup) :
    compile ir =
      { header := currentHeader
        constants := (finalTables ir).constants
        functions := (allFunctions ir).map (encodeFunction (finalTables ir))
        sourceMap := (finalTables ir).sources } := by
  have h : Heads .new (functionsCode (allFunctions ir)) (finalTables ir) :=
    ⟨⟨.empty, List.prefix_rfl⟩, ⟨.empty, List.prefix_rfl⟩⟩
  rw [compile]
  dsimp only
  rw [show ir.functions ++ [ir.entry] = allFunctions ir from rfl,
    compileFunctions_eq (allFunctions ir) hparams h]
  rfl

end Tsvm.CodeTables
