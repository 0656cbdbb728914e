import Mathlib

set_option autoImplicit false

/-!
# The bytecode module

The in-memory form of a compiled program. Every `u32` field of the format is a
`UInt32`; lengths and indices into vectors are natural numbers.
-/
namespace Tsvm.Bytecode

inductive Constant where
  | number (value : String)
  | string (value : String)
  | boolean (value : Bool)
  | null
  | undefined
  | symbol (value : String)
  deriving Repr, DecidableEq

inductive Opcode where
  | loadConst
  | buildObject
  | buildArray
  | loadLocal
  | storeLocal
  | loadMember
  | storeMember
  | binary
  | call
  | branch
  | jump
  | return
  deriving Repr, DecidableEq

inductive TypeTag where
  | number
  | string
  | boolean
  | null
  | undefined
  | object
  | array
  | named
  | unknown
  deriving Repr, DecidableEq

structure SourceRef where
  startByte : UInt32
  endByte : UInt32
  startLine : UInt32
  startColumn : UInt32
  endLine : UInt32
  endColumn : UInt32
  deriving Repr, DecidableEq

structure ExceptionEntry where
  startBlock : UInt32
  endBlock : UInt32
  handlerBlock : UInt32
  deriving Repr, DecidableEq

structure Instruction where
  opcode : Opcode
  operands : List UInt32
  typeTag : TypeTag
  sourceRef : UInt32
  deriving Repr, DecidableEq

structure BytecodeBlock where
  id : UInt32
  instructions : List Instruction
  deriving Repr, DecidableEq

structure BytecodeFunction where
  name : String
  params : List TypeTag
  returnType : TypeTag
  blocks : List BytecodeBlock
  exceptionTable : List ExceptionEntry
  deriving Repr, DecidableEq

structure BytecodeHeader where
  magic : Vector UInt8 4
  version : UInt16
  deriving Repr, DecidableEq

structure BytecodeModule where
  header : BytecodeHeader
  constants : List Constant
  functions : List BytecodeFunction
  sourceMap : List SourceRef
  deriving Repr, DecidableEq

/-- The bytes of `TSVM`. -/
def bytecodeMagic : Vector UInt8 4 := #v[0x54, 0x53, 0x56, 0x4D]

def bytecodeVersion : UInt16 := 1

def currentHeader : BytecodeHeader := ⟨bytecodeMagic, bytecodeVersion⟩

end Tsvm.Bytecode
