import Mathlib.Data.Finset.Card
import Tsvm.Bytecode

set_option autoImplicit false

/-!
# The bytecode verifier

Every check returns the errors it reports; a module is accepted when no check of
any of its functions reports one. Values are numbered from zero in every block
and the local count starts again at the parameter count in every block.
-/
namespace Tsvm.BytecodeVerifier
open Bytecode

inductive VerifyErrorCode where
  | invalidHeader
  | emptyFunctionTable
  | invalidConstantReference
  | invalidLocalReference
  | invalidValueReference
  | invalidJumpTarget
  | invalidSourceReference
  | invalidExceptionEntry
  | missingTerminator
  | invalidTypeState
  deriving Repr, DecidableEq

structure VerifyError where
  code : VerifyErrorCode
  message : String
  deriving Repr, DecidableEq

/-- What the verifier knows in the middle of a block. -/
structure BlockState where
  definedValues : Finset UInt32
  localCount : UInt32

def report (bad : Prop) [Decidable bad] (code : VerifyErrorCode) (message : String) :
    List VerifyError :=
  if bad then [⟨code, message⟩] else []

def expectOperands (instruction : Instruction) (count : ℕ) : List VerifyError :=
  report (instruction.operands.length ≠ count) .invalidValueReference "invalid operand count"

def checkConstant (m : BytecodeModule) (index : Option UInt32) : List VerifyError :=
  report (index.all fun i => m.constants.length ≤ i.toNat) .invalidConstantReference
    "invalid constant pool reference"

def checkLocal (index : Option UInt32) (localCount : UInt32) : List VerifyError :=
  report (index.all fun i => localCount ≤ i) .invalidLocalReference "invalid local reference"

def checkValue (index : Option UInt32) (definedValues : Finset UInt32) : List VerifyError :=
  report (index.all fun i => i ∉ definedValues) .invalidValueReference "invalid value reference"

def checkBlock (index : Option UInt32) (blockIds : List UInt32) : List VerifyError :=
  report (index.all fun i => i ∉ blockIds) .invalidJumpTarget "invalid jump target"

def definesValue : Opcode → Bool
  | .loadConst | .buildObject | .buildArray | .loadLocal | .loadMember | .binary | .call => true
  | .storeLocal | .storeMember | .branch | .jump | .return => false

def isTerminator : Opcode → Bool
  | .return | .jump | .branch => true
  | _ => false

def instructionResultValue (instruction : Instruction) (nextValue : UInt32) : Option UInt32 :=
  if definesValue instruction.opcode then some nextValue else none

/-- The next value is numbered by how many the block has defined. -/
def defineValue (instruction : Instruction) (s : BlockState) : BlockState :=
  match instructionResultValue instruction (.ofNat s.definedValues.card) with
  | some value => { s with definedValues := insert value s.definedValues }
  | none => s

/-- `operands[1..].chunks(2)`: a last odd operand has no partner. -/
def chunkPairs : List UInt32 → List (UInt32 × Option UInt32)
  | [] => []
  | [name] => [(name, none)]
  | name :: value :: rest => (name, some value) :: chunkPairs rest

def checkStore (index : Option UInt32) (localCount : UInt32) : List VerifyError × UInt32 :=
  match index with
  | some slot =>
    (report (localCount < slot) .invalidLocalReference "store skips local index",
      if slot = localCount then localCount + 1 else localCount)
  | none => ([], localCount)

def checkOperands (m : BytecodeModule) (blockIds : List UInt32) (instruction : Instruction)
    (s : BlockState) : List VerifyError × BlockState :=
  let operands := instruction.operands
  match instruction.opcode with
  | .loadConst =>
    (expectOperands instruction 1 ++ checkConstant m operands[0]?, defineValue instruction s)
  | .buildObject =>
    match operands with
    | count :: pairs =>
      (report (operands.length ≠ 1 + count.toNat * 2) .invalidValueReference
          "object operand count does not match property count" ++
        (chunkPairs pairs).flatMap fun pair =>
          checkConstant m (some pair.1) ++ checkValue pair.2 s.definedValues,
        defineValue instruction s)
    | [] =>
      ([⟨.invalidValueReference, "object instruction missing property count"⟩],
        defineValue instruction s)
  | .buildArray =>
    match operands with
    | count :: elements =>
      (report (operands.length ≠ count.toNat + 1) .invalidValueReference
          "array operand count does not match element count" ++
        elements.flatMap fun element => checkValue (some element) s.definedValues,
        defineValue instruction s)
    | [] =>
      ([⟨.invalidValueReference, "array instruction missing element count"⟩],
        defineValue instruction s)
  | .loadLocal =>
    (expectOperands instruction 1 ++ checkLocal operands[0]? s.localCount,
      defineValue instruction s)
  | .storeLocal =>
    let store := checkStore operands[0]? s.localCount
    (expectOperands instruction 2 ++ store.1 ++ checkValue operands[1]? s.definedValues,
      { s with localCount := store.2 })
  | .loadMember =>
    (expectOperands instruction 2 ++ checkValue operands[0]? s.definedValues ++
      checkConstant m operands[1]?, defineValue instruction s)
  | .storeMember =>
    (expectOperands instruction 3 ++ checkValue operands[0]? s.definedValues ++
      checkConstant m operands[1]? ++ checkValue operands[2]? s.definedValues, s)
  | .binary =>
    (expectOperands instruction 3 ++ checkValue operands[1]? s.definedValues ++
      checkValue operands[2]? s.definedValues ++
      report (instruction.typeTag = .unknown) .invalidTypeState
        "binary instruction must have verifier-visible type", defineValue instruction s)
  | .call =>
    match operands with
    | callee :: argc :: args =>
      (checkConstant m (some callee) ++
        report (operands.length ≠ argc.toNat + 2) .invalidValueReference
          "call argument count does not match operands" ++
        args.flatMap fun arg => checkValue (some arg) s.definedValues, defineValue instruction s)
    -- The source returns here before it defines the result.
    | _ => ([⟨.invalidValueReference, "call operands missing"⟩], s)
  | .branch =>
    (expectOperands instruction 3 ++ checkValue operands[0]? s.definedValues ++
      checkBlock operands[1]? blockIds ++ checkBlock operands[2]? blockIds, s)
  | .jump => (expectOperands instruction 1 ++ checkBlock operands[0]? blockIds, s)
  | .return =>
    (report (1 < operands.length) .invalidValueReference "return accepts zero or one value" ++
      match operands with
      | value :: _ => checkValue (some value) s.definedValues
      | [] => [], s)

def verifyInstruction (m : BytecodeModule) (blockIds : List UInt32) (instruction : Instruction)
    (s : BlockState) : List VerifyError × BlockState :=
  let rest := checkOperands m blockIds instruction s
  (report (m.sourceMap.length ≤ instruction.sourceRef.toNat) .invalidSourceReference
    "invalid source map reference" ++ rest.1, rest.2)

def verifyInstructions (m : BytecodeModule) (blockIds : List UInt32) :
    List Instruction → BlockState → List VerifyError
  | [], _ => []
  | instruction :: rest, s =>
    let checked := verifyInstruction m blockIds instruction s
    checked.1 ++ verifyInstructions m blockIds rest checked.2

/-- `params.len() as u32` locals are there when a block starts. -/
def blockStart (function : BytecodeFunction) : BlockState :=
  ⟨∅, .ofNat function.params.length⟩

def blockIds (function : BytecodeFunction) : List UInt32 :=
  function.blocks.map BytecodeBlock.id

def hasTerminator (block : BytecodeBlock) : Bool :=
  block.instructions.any fun instruction => isTerminator instruction.opcode

def checkExceptionEntry (blockIds : List UInt32) (entry : ExceptionEntry) : List VerifyError :=
  report (entry.startBlock ∉ blockIds ∨ entry.endBlock ∉ blockIds ∨
    entry.handlerBlock ∉ blockIds ∨ entry.endBlock < entry.startBlock) .invalidExceptionEntry
    "invalid exception table entry"

def verifyFunction (m : BytecodeModule) (function : BytecodeFunction) : List VerifyError :=
  function.exceptionTable.flatMap (checkExceptionEntry (blockIds function)) ++
    function.blocks.flatMap (fun block =>
      verifyInstructions m (blockIds function) block.instructions (blockStart function)) ++
    report (¬ function.blocks.any hasTerminator) .missingTerminator
      "function has no return, jump, or branch"

def verify (m : BytecodeModule) : List VerifyError :=
  report (m.header.magic ≠ bytecodeMagic ∨ m.header.version ≠ bytecodeVersion) .invalidHeader
      "invalid bytecode header" ++
    report (m.functions = []) .emptyFunctionTable "function table is empty" ++
    m.functions.flatMap (verifyFunction m)

def verifyModule (m : BytecodeModule) : Except (List VerifyError) Unit :=
  match verify m with
  | [] => .ok ()
  | errors => .error errors

end Tsvm.BytecodeVerifier
