import Tsvm.Ast

set_option autoImplicit false

/-!
# The intermediate representation

Functions of numbered blocks. Values are numbered through the whole function,
and an instruction names the value it produces.
-/
namespace Tsvm.Ir

abbrev BlockId := ℕ

abbrev ValueId := ℕ

inductive IrConst where
  | number (value : String)
  | string (value : String)
  | boolean (value : Bool)
  | null
  | undefined
  | object (properties : List (String × ValueId))
  | array (elements : List ValueId)
  deriving Repr, DecidableEq

inductive IrBinaryOp where
  | add
  | subtract
  | multiply
  | divide
  | remainder
  | equal
  | strictEqual
  | notEqual
  | strictNotEqual
  | less
  | lessEqual
  | greater
  | greaterEqual
  | logicalAnd
  | logicalOr
  | nullishCoalesce
  deriving Repr, DecidableEq

inductive IrType where
  | number
  | string
  | boolean
  | null
  | undefined
  | object (fields : List (String × IrType))
  | array (element : IrType)
  | named (name : String)
  | unknown

inductive IrInstructionKind where
  | loadConst (constant : IrConst)
  | loadLocal (name : String)
  | storeLocal (name : String) (value : ValueId)
  | loadMember (object : ValueId) (property : String)
  | storeMember (object : ValueId) (property : String) (value : ValueId)
  | binary (op : IrBinaryOp) (left right : ValueId)
  | call (callee : String) (args : List ValueId)
  | branch (condition : ValueId) (thenBlock elseBlock : BlockId)
  | jump (target : BlockId)
  | return (value : Option ValueId)
  deriving Repr, DecidableEq

structure IrInstruction where
  kind : IrInstructionKind
  result : Option ValueId
  ty : IrType
  sourceSpan : Span

structure IrParam where
  name : String
  ty : IrType

structure IrBlock where
  id : BlockId
  instructions : List IrInstruction

structure IrFunction where
  name : String
  params : List IrParam
  returnType : IrType
  blocks : List IrBlock
  sourceSpan : Span

structure IrProgram where
  functions : List IrFunction
  entry : IrFunction
  sourceSpan : Option Span

/-- `ty == IrType::Unknown`. -/
def IrType.isUnknown : IrType → Bool
  | .unknown => true
  | _ => false

end Tsvm.Ir
