import Tsvm.Bytecode
import Tsvm.Codec

set_option autoImplicit false

/-!
# The binary format

`encodeModule` writes the three table counts before the tables; `decodeModule`
reads them back and refuses bytes that are left over.
-/
namespace Tsvm.BytecodeEncoding
open Bytecode Codec

structure DecodeError where
  message : String
  deriving Repr, DecidableEq

abbrev Reader (α : Type) := Decoder UInt8 DecodeError α

def opcodeToU8 : Opcode → UInt8
  | .loadConst => 0
  | .buildObject => 1
  | .buildArray => 2
  | .loadLocal => 3
  | .storeLocal => 4
  | .loadMember => 5
  | .storeMember => 6
  | .binary => 7
  | .call => 8
  | .branch => 9
  | .jump => 10
  | .return => 11

def opcodeFromU8 (value : UInt8) : Option Opcode :=
  match value.toNat with
  | 0 => some .loadConst
  | 1 => some .buildObject
  | 2 => some .buildArray
  | 3 => some .loadLocal
  | 4 => some .storeLocal
  | 5 => some .loadMember
  | 6 => some .storeMember
  | 7 => some .binary
  | 8 => some .call
  | 9 => some .branch
  | 10 => some .jump
  | 11 => some .return
  | _ => none

def typeTagToU8 : TypeTag → UInt8
  | .number => 0
  | .string => 1
  | .boolean => 2
  | .null => 3
  | .undefined => 4
  | .object => 5
  | .array => 6
  | .named => 7
  | .unknown => 8

def typeTagFromU8 (value : UInt8) : Option TypeTag :=
  match value.toNat with
  | 0 => some .number
  | 1 => some .string
  | 2 => some .boolean
  | 3 => some .null
  | 4 => some .undefined
  | 5 => some .object
  | 6 => some .array
  | 7 => some .named
  | 8 => some .unknown
  | _ => none

/-- The little-endian bytes of a `u16`. -/
def writeU16 (value : UInt16) : List UInt8 :=
  [.ofNat value.toNat, .ofNat (value.toNat / 2 ^ 8)]

def writeU32 (value : UInt32) : List UInt8 :=
  [.ofNat value.toNat, .ofNat (value.toNat / 2 ^ 8), .ofNat (value.toNat / 2 ^ 16),
    .ofNat (value.toNat / 2 ^ 24)]

/-- `len() as u32` drops the high bits of a length. -/
def writeLength (length : ℕ) : List UInt8 := writeU32 (.ofNat length)

def stringBytes (value : String) : List UInt8 := value.toByteArray.data.toList

def writeString (value : String) : List UInt8 :=
  writeLength (stringBytes value).length ++ stringBytes value

def writeConstant : Constant → List UInt8
  | .number value => 0 :: writeString value
  | .string value => 1 :: writeString value
  | .boolean value => [2, value.toUInt8]
  | .null => [3]
  | .undefined => [4]
  | .symbol value => 5 :: writeString value

def writeSourceRef (source : SourceRef) : List UInt8 :=
  writeU32 source.startByte ++ writeU32 source.endByte ++ writeU32 source.startLine ++
    writeU32 source.startColumn ++ writeU32 source.endLine ++ writeU32 source.endColumn

def writeInstruction (instruction : Instruction) : List UInt8 :=
  [opcodeToU8 instruction.opcode, typeTagToU8 instruction.typeTag] ++
    writeU32 instruction.sourceRef ++ writeLength instruction.operands.length ++
    instruction.operands.flatMap writeU32

def writeBlock (block : BytecodeBlock) : List UInt8 :=
  writeU32 block.id ++ writeLength block.instructions.length ++
    block.instructions.flatMap writeInstruction

def writeExceptionEntry (entry : ExceptionEntry) : List UInt8 :=
  writeU32 entry.startBlock ++ writeU32 entry.endBlock ++ writeU32 entry.handlerBlock

def writeFunction (function : BytecodeFunction) : List UInt8 :=
  writeString function.name ++ writeLength function.params.length ++
    function.params.map typeTagToU8 ++ [typeTagToU8 function.returnType] ++
    writeLength function.blocks.length ++ function.blocks.flatMap writeBlock ++
    writeLength function.exceptionTable.length ++
    function.exceptionTable.flatMap writeExceptionEntry

def encodeModule (m : BytecodeModule) : List UInt8 :=
  m.header.magic.toList ++ writeU16 m.header.version ++ writeLength m.constants.length ++
    writeLength m.sourceMap.length ++ writeLength m.functions.length ++
    m.constants.flatMap writeConstant ++ m.sourceMap.flatMap writeSourceRef ++
    m.functions.flatMap writeFunction

/-- The cursor never passes the end of a slice, so the `checked_add` of the
    source does not overflow and only the short read can fail. -/
def readExact (len : ℕ) : Reader (List UInt8) := take len ⟨"unexpected end of bytecode"⟩

def readU8 : Reader UInt8 := do
  let bytes ← readExact 1
  pure (bytes.getD 0 0)

def readMagic : Reader (Vector UInt8 4) := do
  let bytes ← readExact 4
  pure #v[bytes.getD 0 0, bytes.getD 1 0, bytes.getD 2 0, bytes.getD 3 0]

def u16FromLeBytes (bytes : List UInt8) : UInt16 :=
  .ofNat ((bytes.getD 0 0).toNat + 2 ^ 8 * (bytes.getD 1 0).toNat)

def u32FromLeBytes (bytes : List UInt8) : UInt32 :=
  .ofNat ((bytes.getD 0 0).toNat + 2 ^ 8 * (bytes.getD 1 0).toNat +
    2 ^ 16 * (bytes.getD 2 0).toNat + 2 ^ 24 * (bytes.getD 3 0).toNat)

def readU16 : Reader UInt16 := do
  let bytes ← readExact 2
  pure (u16FromLeBytes bytes)

def readU32 : Reader UInt32 := do
  let bytes ← readExact 4
  pure (u32FromLeBytes bytes)

/-- `read_u32()? as usize`. -/
def readLength : Reader ℕ := do
  let length ← readU32
  pure length.toNat

/-- How a UTF-8 sequence starting with `first` goes wrong: the length the
    standard library reports, or `none` when the input ends inside it. -/
def utf8SequenceError (first : UInt8) (rest : List UInt8) : Option ℕ :=
  let continues := fun b : UInt8 => 0x80 ≤ b && b ≤ 0xBF
  let second := fun low high : UInt8 =>
    match rest with
    | [] => none
    | b :: _ => if low ≤ b && b ≤ high then some true else some false
  let width := if 0xC2 ≤ first && first ≤ 0xDF then 2 else if first ≤ 0xEF then 3 else 4
  let range := if first = 0xE0 then (0xA0, 0xBF) else if first = 0xED then (0x80, 0x9F)
    else if first = 0xF0 then (0x90, 0xBF) else if first = 0xF4 then (0x80, 0x8F)
    else (0x80, 0xBF)
  if first < 0xC2 || 0xF4 < first then some 1
  else
    match second range.1 range.2 with
    | none => none
    | some false => some 1
    | some true =>
      match (rest.drop 1).take (width - 2) with
      | [] => none
      | third :: more =>
        if continues third then
          match more with
          | [] => none
          | fourth :: _ => if continues fourth then none else some 3
        else some 2

/-- The `Display` text of the `Utf8Error` for bytes that are not UTF-8. -/
def utf8ErrorText (bytes : List UInt8) : String :=
  let validUpTo := ((List.range (bytes.length + 1)).reverse.find? fun n =>
    (ByteArray.mk (bytes.take n).toArray).validateUTF8).getD 0
  match bytes.drop validUpTo with
  | [] => ""
  | first :: rest =>
    match utf8SequenceError first rest with
    | some length => s!"invalid utf-8 sequence of {length} bytes from index {validUpTo}"
    | none => s!"incomplete utf-8 byte sequence from index {validUpTo}"

def readString : Reader String := do
  let len ← readLength
  let bytes ← readExact len
  match String.fromUTF8? ⟨bytes.toArray⟩ with
  | some value => pure value
  | none => FailState.fail ⟨"invalid UTF-8 string: " ++ utf8ErrorText bytes⟩

def readConstant : Reader Constant := do
  let tag ← readU8
  match tag.toNat with
  | 0 => return .number (← readString)
  | 1 => return .string (← readString)
  | 2 => return .boolean ((← readU8) != 0)
  | 3 => return .null
  | 4 => return .undefined
  | 5 => return .symbol (← readString)
  | tag => FailState.fail ⟨s!"invalid constant tag {tag}"⟩

def readOpcode : Reader Opcode := do
  let value ← readU8
  match opcodeFromU8 value with
  | some opcode => pure opcode
  | none => FailState.fail ⟨s!"invalid opcode {value.toNat}"⟩

def readTypeTag : Reader TypeTag := do
  let value ← readU8
  match typeTagFromU8 value with
  | some tag => pure tag
  | none => FailState.fail ⟨s!"invalid type tag {value.toNat}"⟩

def readSourceRef : Reader SourceRef := do
  let startByte ← readU32
  let endByte ← readU32
  let startLine ← readU32
  let startColumn ← readU32
  let endLine ← readU32
  let endColumn ← readU32
  pure { startByte, endByte, startLine, startColumn, endLine, endColumn }

def readInstruction : Reader Instruction := do
  let opcode ← readOpcode
  let typeTag ← readTypeTag
  let sourceRef ← readU32
  let operandCount ← readLength
  let operands ← table readU32 operandCount
  pure { opcode, operands, typeTag, sourceRef }

def readBlock : Reader BytecodeBlock := do
  let id ← readU32
  let instructionCount ← readLength
  let instructions ← table readInstruction instructionCount
  pure { id, instructions }

def readExceptionEntry : Reader ExceptionEntry := do
  let startBlock ← readU32
  let endBlock ← readU32
  let handlerBlock ← readU32
  pure { startBlock, endBlock, handlerBlock }

def readFunction : Reader BytecodeFunction := do
  let name ← readString
  let paramCount ← readLength
  let params ← table readTypeTag paramCount
  let returnType ← readTypeTag
  let blockCount ← readLength
  let blocks ← table readBlock blockCount
  let exceptionCount ← readLength
  let exceptionTable ← table readExceptionEntry exceptionCount
  pure { name, params, returnType, blocks, exceptionTable }

def readHeader : Reader BytecodeHeader := do
  let magic ← readMagic
  if magic = bytecodeMagic then
    let version ← readU16
    if version = bytecodeVersion then pure ⟨magic, version⟩
    else FailState.fail ⟨"unsupported bytecode version"⟩
  else FailState.fail ⟨"invalid bytecode magic"⟩

def readModule : Reader BytecodeModule := do
  let header ← readHeader
  let constantCount ← readLength
  let sourceCount ← readLength
  let functionCount ← readLength
  let constants ← table readConstant constantCount
  let sourceMap ← table readSourceRef sourceCount
  let functions ← table readFunction functionCount
  pure { header, constants, functions, sourceMap }

def decodeModule (bytes : List UInt8) : Except DecodeError BytecodeModule :=
  (readModule >>= fun m =>
    finish ⟨"trailing bytes after bytecode module"⟩ >>= fun _ => pure m) ⟨bytes, []⟩ |>.1

end Tsvm.BytecodeEncoding
