import Tsvm.FailState
import Tsvm.RuntimeValues

set_option autoImplicit false

/-!
# The interpreter

The methods of the source as computations on the interpreter's state. A run gets
a step budget: a call may nest that deep and an activation may enter one block
more than that. `executeInstruction` takes the function that performs a call, so
every definition is by recursion on the budget or on an instruction list.
-/
namespace Tsvm.Interpreter
open Bytecode BytecodeVerifier Heap Interop RuntimeValues

structure HeapStats where
  liveObjects : ℕ
  allocatedSlots : ℕ
  lastCollection : CollectionReport
  deriving Repr, DecidableEq

structure ExecutionOutput (ν : Type) where
  console : List (Value ν)
  returnValue : Value ν
  heap : HeapStats

/-- The mutable fields of the source's `Interpreter`, and the host calls made so far. -/
structure Machine (ν : Type) where
  heap : Store ν
  console : List (RuntimeValue ν)
  hostCalls : List (HostCall ν)

abbrev Run (ν α : Type) := FailState Stop (Machine ν) α

structure Frame (ν : Type) where
  locals : List (RuntimeValue ν)
  values : List (RuntimeValue ν)

inductive ControlFlow (ν : Type) where
  | continue
  | jump (target : UInt32)
  | return (value : RuntimeValue ν)

variable {ν : Type}

def Machine.new : Machine ν := ⟨.new, [], []⟩

def resize (values : List (RuntimeValue ν)) (length : ℕ) : List (RuntimeValue ν) :=
  values.take length ++ List.replicate (length - values.length) .undefined

namespace Frame

def new (function : BytecodeFunction) (args : List (RuntimeValue ν)) : Frame ν :=
  ⟨resize args function.params.length, []⟩

def loadLocal (frame : Frame ν) (index : UInt32) : Except Stop (RuntimeValue ν) :=
  match frame.locals[index.toNat]? with
  | some value => .ok value
  | none => .error (.runtime (.localMissing index))

def storeLocal (frame : Frame ν) (index : UInt32) (value : RuntimeValue ν) : Frame ν :=
  let locals := if frame.locals.length ≤ index.toNat then resize frame.locals (index.toNat + 1)
    else frame.locals
  { frame with locals := locals.set index.toNat value }

def value (frame : Frame ν) (index : UInt32) : Except Stop (RuntimeValue ν) :=
  match frame.values[index.toNat]? with
  | some value => .ok value
  | none => .error (.runtime (.valueMissing index))

def pushValue (frame : Frame ν) (value : RuntimeValue ν) : Frame ν :=
  { frame with values := frame.values ++ [value] }

end Frame

/-- `instruction.operands[index]`, which panics when there is no such operand. -/
def operand (instruction : Instruction) (index : ℕ) : Except Stop UInt32 :=
  match instruction.operands[index]? with
  | some value => .ok value
  | none => .error .panic

def constant (m : BytecodeModule) (index : UInt32) : Except Stop Constant :=
  match m.constants[index.toNat]? with
  | some constant => .ok constant
  | none => .error (.runtime (.constantMissing index))

/-- The constant an operand refers to, as a name. -/
def symbol (m : BytecodeModule) (index : UInt32) : Except Stop String := do
  let constant ← constant m index
  symbolName constant

def objectField (m : BytecodeModule) (instruction : Instruction) (frame : Frame ν) (index : ℕ) :
    Except Stop (String × RuntimeValue ν) := do
  let nameConstant ← constant m (← operand instruction (1 + index * 2))
  let valueId ← operand instruction (2 + index * 2)
  let name ← symbolName nameConstant
  let value ← frame.value valueId
  pure (name, value)

def objectFields (m : BytecodeModule) (instruction : Instruction) (frame : Frame ν) :
    List ℕ → Std.TreeMap String (RuntimeValue ν) →
      Except Stop (Std.TreeMap String (RuntimeValue ν))
  | [], object => pure object
  | index :: indices, object => do
    let field ← objectField m instruction frame index
    objectFields m instruction frame indices (object.insert field.1 field.2)

def frameValues (frame : Frame ν) (operands : List UInt32) : Except Stop (List (RuntimeValue ν)) :=
  operands.mapM frame.value

def callOperands (m : BytecodeModule) (instruction : Instruction) (frame : Frame ν) :
    Except Stop (String × List (RuntimeValue ν)) := do
  let callee ← operand instruction 0 >>= symbol m
  let argc ← operand instruction 1
  let args ← frameValues frame ((instruction.operands.drop 2).take argc.toNat)
  pure (callee, args)

def allocate (value : HeapValue ν) : Run ν HeapHandle := fun s =>
  let allocated := s.heap.allocate value
  (.ok allocated.1, { s with heap := allocated.2 })

def setHeap (heap : Store ν) : Run ν Unit := FailState.modify fun s => { s with heap }

abbrev Call (ν : Type) := String → List (RuntimeValue ν) → Run ν (RuntimeValue ν)

section Execution

variable [F64 ν] (m : BytecodeModule)

def executeInstruction (call : Call ν) (instruction : Instruction) (frame : Frame ν) :
    Run ν (ControlFlow ν × Frame ν) :=
  match instruction.opcode with
  | .loadConst => do
    let constant ← FailState.lift (operand instruction 0 >>= constant m)
    let value ← FailState.lift (valueFromConstant constant)
    pure (.continue, frame.pushValue value)
  | .buildObject => do
    let count ← FailState.lift (operand instruction 0)
    let object ← FailState.lift
      (objectFields m instruction frame (List.range count.toNat) ∅)
    let handle ← allocate (.object object)
    pure (.continue, frame.pushValue (.object handle))
  | .buildArray => do
    let _count ← FailState.lift (operand instruction 0)
    let values ← FailState.lift (frameValues frame instruction.operands.tail)
    let handle ← allocate (.array values)
    pure (.continue, frame.pushValue (.array handle))
  | .loadLocal => do
    let value ← FailState.lift (operand instruction 0 >>= frame.loadLocal)
    pure (.continue, frame.pushValue value)
  | .storeLocal => do
    let value ← FailState.lift (operand instruction 1 >>= frame.value)
    let slot ← FailState.lift (operand instruction 0)
    pure (.continue, frame.storeLocal slot value)
  | .loadMember => do
    let object ← FailState.lift (operand instruction 0 >>= frame.value)
    let property ← FailState.lift (operand instruction 1 >>= symbol m)
    let s ← FailState.read
    let value ← FailState.lift (loadMember s.heap object property)
    pure (.continue, frame.pushValue value)
  | .storeMember => do
    let object ← FailState.lift (operand instruction 0 >>= frame.value)
    let property ← FailState.lift (operand instruction 1 >>= symbol m)
    let value ← FailState.lift (operand instruction 2 >>= frame.value)
    let s ← FailState.read
    let heap ← FailState.lift (storeMember s.heap object property value)
    setHeap heap
    pure (.continue, frame)
  | .binary => do
    let left ← FailState.lift (operand instruction 1 >>= frame.value)
    let right ← FailState.lift (operand instruction 2 >>= frame.value)
    let op ← FailState.lift (operand instruction 0)
    let s ← FailState.read
    let value ← FailState.lift (binary op s.heap left right)
    pure (.continue, frame.pushValue value)
  | .call => do
    let (callee, args) ← FailState.lift (callOperands m instruction frame)
    let value ← call callee args
    pure (.continue, frame.pushValue value)
  | .branch => do
    let condition ← FailState.lift (operand instruction 0 >>= frame.value)
    let target ← FailState.lift (operand instruction (if truthy condition then 1 else 2))
    pure (.jump target, frame)
  | .jump => do
    let target ← FailState.lift (operand instruction 0)
    pure (.jump target, frame)
  | .return =>
    match instruction.operands with
    | [] => pure (.return .undefined, frame)
    | value :: _ => do
      let value ← FailState.lift (frame.value value)
      pure (.return value, frame)

/-- The instructions of a block from some point on. `continue` at the end says that
    the last instruction was passed without a jump. -/
def executeBlock (call : Call ν) : List Instruction → Frame ν → Run ν (ControlFlow ν × Frame ν)
  | [], frame => pure (.continue, frame)
  | instruction :: rest, frame => do
    let (flow, frame) ← executeInstruction m call instruction frame
    match flow with
    | .continue => executeBlock call rest frame
    | flow => pure (flow, frame)

def findBlock (function : BytecodeFunction) (id : UInt32) : Except Stop BytecodeBlock :=
  match function.blocks.find? fun block => block.id == id with
  | some block => .ok block
  | none => .error (.runtime (.blockMissing id))

def executeFrame (call : Call ν) (function : BytecodeFunction) :
    ℕ → UInt32 → Frame ν → Run ν (RuntimeValue ν)
  | 0, _, _ => FailState.fail .outOfFuel
  | fuel + 1, blockId, frame => do
    let block ← FailState.lift (findBlock function blockId)
    let (flow, frame) ← executeBlock m call block.instructions frame
    match flow with
    | .continue => pure .undefined
    | .jump next => executeFrame call function fuel next frame
    | .return value => pure value

variable (host : HostEnvironment ν)

/-- The arguments are converted before the host is asked whether it knows the name. -/
def callHost (name : String) (args : List (RuntimeValue ν)) : Run ν (Option (RuntimeValue ν)) := do
  let s ← FailState.read
  let args ← FailState.lift (args.mapM fun value => do
    let value ← materialize s.heap value
    pure (interopFromValue value))
  match host.call s.hostCalls name args with
  | none => pure none
  | some result => do
    FailState.modify fun s => { s with hostCalls := s.hostCalls ++ [⟨name, args⟩] }
    match result with
    | .error error => FailState.fail (.error (.interop error))
    | .ok value => do
      let converted := runtimeFromInterop value s.heap
      setHeap converted.2
      pure (some converted.1)

def findFunction (name : String) : Except Stop BytecodeFunction :=
  match m.functions.find? fun function => function.name == name with
  | some function => .ok function
  | none => .error (.runtime (.unknownFunction name))

/-- The dispatch of a call: `none` once the console or the host has answered it,
    otherwise the function of the module to run. -/
def dispatch (name : String) (args : List (RuntimeValue ν)) :
    Run ν (RuntimeValue ν ⊕ BytecodeFunction) :=
  if name = "console.log" then do
    FailState.modify fun s => { s with console := s.console ++ args }
    pure (.inl .undefined)
  else do
    match ← callHost host name args with
    | some result => pure (.inl result)
    | none => do
      let function ← FailState.lift (findFunction m name)
      pure (.inr function)

def callFunction : ℕ → Call ν
  | 0, _, _ => FailState.fail .outOfFuel
  | fuel + 1, name, args => do
    match ← dispatch m host name args with
    | .inl result => pure result
    | .inr function =>
      executeFrame m (callFunction fuel) function (fuel + 1) 0 (.new function args)

def roots (values : List (RuntimeValue ν)) : List HeapHandle := values.flatMap RuntimeValue.handles

def execute (fuel : ℕ) : Run ν (ExecutionOutput ν) := do
  let returnValue ← callFunction m host fuel "__entry" []
  let s ← FailState.read
  let (lastCollection, heap) := s.heap.collect (roots s.console ++ roots [returnValue])
  setHeap heap
  let console ← FailState.lift (s.console.mapM (materialize heap))
  let returnValue ← FailState.lift (materialize heap returnValue)
  pure ⟨console, returnValue, ⟨heap.liveLen, heap.capacity, lastCollection⟩⟩

/-- The verifier gate in front of every execution of a module. -/
def executeModuleWithHost (fuel : ℕ) : Except Stop (ExecutionOutput ν) :=
  match verifyModule m with
  | .error errors => .error (.error (.verify errors))
  | .ok () => (execute m host fuel .new).1

end Execution

end Tsvm.Interpreter
