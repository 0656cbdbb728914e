import Tsvm.Bytecode
import Tsvm.Interning
import Tsvm.Lowering

set_option autoImplicit false

/-!
# The compiler

Constants and source references are interned in pools that only grow. The local
slots of a function are given out by the first appearance of a name.
-/
namespace Tsvm.Compilation
open Bytecode Interning Ir

structure Compiler where
  constants : Pool Constant
  sourceMap : Pool SourceRef

/-- The `local_ids` and the `next_local` of a function. -/
structure LocalSlots where
  ids : List (String × UInt32)
  next : UInt32

def Compiler.new : Compiler := ⟨.empty, .empty⟩

def internConstant (constant : Constant) (s : Compiler) : UInt32 × Compiler :=
  let (index, constants) := s.constants.intern constant
  (index, { s with constants })

def internSource (source : SourceRef) (s : Compiler) : UInt32 × Compiler :=
  let (index, sourceMap) := s.sourceMap.intern source
  (index, { s with sourceMap })

def localId (name : String) (slots : LocalSlots) : UInt32 × LocalSlots :=
  match slots.ids.lookup name with
  | some id => (id, slots)
  | none => (slots.next, ⟨(name, slots.next) :: slots.ids, slots.next + 1⟩)

def sourceRefFromSpan (span : Span) : SourceRef where
  startByte := .ofNat span.start.byte
  endByte := .ofNat span.end.byte
  startLine := .ofNat span.start.line
  startColumn := .ofNat span.start.column
  endLine := .ofNat span.end.line
  endColumn := .ofNat span.end.column

def typeTag : IrType → TypeTag
  | .number => .number
  | .string => .string
  | .boolean => .boolean
  | .null => .null
  | .undefined => .undefined
  | .object _ => .object
  | .array _ => .array
  | .named _ => .named
  | .unknown => .unknown

def binaryOpCode : IrBinaryOp → UInt32
  | .add => 0
  | .subtract => 1
  | .multiply => 2
  | .divide => 3
  | .remainder => 4
  | .equal => 5
  | .strictEqual => 6
  | .notEqual => 7
  | .strictNotEqual => 8
  | .less => 9
  | .lessEqual => 10
  | .greater => 11
  | .greaterEqual => 12
  | .logicalAnd => 13
  | .logicalOr => 14
  | .nullishCoalesce => 15

def propertyOperands : List (String × ValueId) → Compiler → List UInt32 × Compiler
  | [], s => ([], s)
  | (name, value) :: properties, s =>
    let (index, s) := internConstant (.symbol name) s
    let (operands, s) := propertyOperands properties s
    (index :: .ofNat value :: operands, s)

def irConstOperands (constant : IrConst) (s : Compiler) : List UInt32 × Compiler :=
  let single (constant : Constant) :=
    let (index, s) := internConstant constant s
    ([index], s)
  match constant with
  | .number value => single (.number value)
  | .string value => single (.string value)
  | .boolean value => single (.boolean value)
  | .null => single .null
  | .undefined => single .undefined
  | .object properties =>
    let (operands, s) := propertyOperands properties s
    (.ofNat properties.length :: operands, s)
  | .array elements => (.ofNat elements.length :: elements.map .ofNat, s)

def constOpcode : IrConst → Opcode
  | .object _ => .buildObject
  | .array _ => .buildArray
  | _ => .loadConst

def compileKind (kind : IrInstructionKind) (s : Compiler) (slots : LocalSlots) :
    Opcode × List UInt32 × Compiler × LocalSlots :=
  match kind with
  | .loadConst constant =>
    let (operands, s) := irConstOperands constant s
    (constOpcode constant, operands, s, slots)
  | .loadLocal name =>
    let (slot, slots) := localId name slots
    (.loadLocal, [slot], s, slots)
  | .storeLocal name value =>
    let (slot, slots) := localId name slots
    (.storeLocal, [slot, .ofNat value], s, slots)
  | .loadMember object property =>
    let (index, s) := internConstant (.symbol property) s
    (.loadMember, [.ofNat object, index], s, slots)
  | .storeMember object property value =>
    let (index, s) := internConstant (.symbol property) s
    (.storeMember, [.ofNat object, index, .ofNat value], s, slots)
  | .binary op left right => (.binary, [binaryOpCode op, .ofNat left, .ofNat right], s, slots)
  | .call callee args =>
    let (index, s) := internConstant (.symbol callee) s
    (.call, index :: .ofNat args.length :: args.map .ofNat, s, slots)
  | .branch condition thenBlock elseBlock =>
    (.branch, [.ofNat condition, .ofNat thenBlock, .ofNat elseBlock], s, slots)
  | .jump target => (.jump, [.ofNat target], s, slots)
  | .return value => (.return, value.toList.map .ofNat, s, slots)

def compileInstruction (instruction : IrInstruction) (s : Compiler) (slots : LocalSlots) :
    Instruction × Compiler × LocalSlots :=
  let (sourceRef, s) := internSource (sourceRefFromSpan instruction.sourceSpan) s
  let (opcode, operands, s, slots) := compileKind instruction.kind s slots
  (⟨opcode, operands, typeTag instruction.ty, sourceRef⟩, s, slots)

def compileInstructions : List IrInstruction → Compiler → LocalSlots →
    List Instruction × Compiler × LocalSlots
  | [], s, slots => ([], s, slots)
  | instruction :: instructions, s, slots =>
    let (compiled, s, slots) := compileInstruction instruction s slots
    let (rest, s, slots) := compileInstructions instructions s slots
    (compiled :: rest, s, slots)

def compileBlocks : List IrBlock → Compiler → LocalSlots →
    List BytecodeBlock × Compiler × LocalSlots
  | [], s, slots => ([], s, slots)
  | block :: blocks, s, slots =>
    let (instructions, s, slots) := compileInstructions block.instructions s slots
    let (rest, s, slots) := compileBlocks blocks s slots
    (⟨.ofNat block.id, instructions⟩ :: rest, s, slots)

/-- The parameters have the first slots; of two with one name the later is found. -/
def parameterSlots (params : List IrParam) : LocalSlots where
  ids := (params.zipIdx.map fun param => (param.1.name, UInt32.ofNat param.2)).reverse
  next := .ofNat params.length

def compileFunction (function : IrFunction) (s : Compiler) : BytecodeFunction × Compiler :=
  let (blocks, s, _) := compileBlocks function.blocks s (parameterSlots function.params)
  (⟨function.name, function.params.map fun param => typeTag param.ty,
    typeTag function.returnType, blocks, []⟩, s)

def compileFunctions : List IrFunction → Compiler → List BytecodeFunction × Compiler
  | [], s => ([], s)
  | function :: functions, s =>
    let (compiled, s) := compileFunction function s
    let (rest, s) := compileFunctions functions s
    (compiled :: rest, s)

/-- The entry function is compiled last. -/
def compile (ir : IrProgram) : BytecodeModule :=
  let (functions, s) := compileFunctions (ir.functions ++ [ir.entry]) .new
  { header := currentHeader
    constants := s.constants.entries
    functions := functions
    sourceMap := s.sourceMap.entries }

end Tsvm.Compilation
