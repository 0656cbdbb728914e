import Std.Data.TreeMap.Basic
import Tsvm.BytecodeVerifier
import Tsvm.Diagnostics
import Tsvm.Heap
import Tsvm.Interop

set_option autoImplicit false

/-!
# Runtime values

Values of the interpreter, the heap objects behind their handles, the primitive
operators and the conversions across the host boundary.
-/
namespace Tsvm.RuntimeValues
open Bytecode BytecodeVerifier Heap Interop

inductive RuntimeValue (ν : Type) where
  | number (value : ν)
  | string (value : String)
  | boolean (value : Bool)
  | null
  | undefined
  | object (handle : HeapHandle)
  | array (handle : HeapHandle)

inductive HeapValue (ν : Type) where
  | object (fields : Std.TreeMap String (RuntimeValue ν))
  | array (values : List (RuntimeValue ν))

inductive Value (ν : Type) where
  | number (value : ν)
  | string (value : String)
  | boolean (value : Bool)
  | null
  | undefined
  | object (fields : List (String × Value ν))
  | array (values : List (Value ν))

inductive RuntimeError where
  | unknownFunction (name : String)
  | constantMissing (index : UInt32)
  | localMissing (index : UInt32)
  | valueMissing (index : UInt32)
  | blockMissing (id : UInt32)
  | invalidNumberConstant (value reason : String)
  | expectedSymbolConstant
  | staleObjectHandle
  | staleArrayHandle
  | cannotReadProperty (property : String)
  | cannotWriteProperty (property : String)
  | unknownBinaryOp (op : UInt32)
  | expectedNumber
  deriving Repr, DecidableEq

def RuntimeError.message : RuntimeError → String
  | .unknownFunction name => s!"unknown function `{name}`"
  | .constantMissing index => s!"constant {index} missing"
  | .localMissing index => s!"local {index} missing"
  | .valueMissing index => s!"value {index} missing"
  | .blockMissing id => s!"block {id} missing"
  | .invalidNumberConstant value reason => s!"invalid number constant `{value}`: {reason}"
  | .expectedSymbolConstant => "expected symbol constant"
  | .staleObjectHandle => "stale object handle"
  | .staleArrayHandle => "stale array handle"
  | .cannotReadProperty property => s!"cannot read property `{property}` from non-object"
  | .cannotWriteProperty property => s!"cannot write property `{property}` on non-object"
  | .unknownBinaryOp op => s!"unknown binary op {op}"
  | .expectedNumber => "expected number"

inductive ExecuteError where
  | module (diagnostics : List ModuleDiagnostic)
  | compile (diagnostics : List SemanticDiagnostic)
  | verify (errors : List VerifyError)
  | interop (error : InteropError)
  | runtime (error : RuntimeError)
  deriving Repr, DecidableEq

/-- How an execution can stop early. `panic` is an index out of bounds or an `expect` on nothing,
    `stackOverflow` a recursion through the heap that does not end, and
    `outOfFuel` marks a run that is longer than its step budget. -/
inductive Stop where
  | error (error : ExecuteError)
  | panic
  | stackOverflow
  | outOfFuel
  deriving Repr, DecidableEq

def Stop.runtime (error : RuntimeError) : Stop := .error (.runtime error)

variable {ν : Type}

abbrev Store (ν : Type) := GcHeap (HeapValue ν)

/-- The handle a value holds, if any. -/
def RuntimeValue.handles : RuntimeValue ν → List HeapHandle
  | .object handle | .array handle => [handle]
  | .number _ | .string _ | .boolean _ | .null | .undefined => []

instance : Trace (HeapValue ν) where
  trace
    | .object fields => fields.toList.flatMap fun field => field.2.handles
    | .array values => values.flatMap RuntimeValue.handles

/-- A recursion through the heap that meets no slot twice is at most this deep. -/
def heapDepth (heap : Store ν) : ℕ := heap.capacity + 1

def materializeWithin (heap : Store ν) : ℕ → RuntimeValue ν → Except Stop (Value ν)
  | _, .number value => .ok (.number value)
  | _, .string value => .ok (.string value)
  | _, .boolean value => .ok (.boolean value)
  | _, .null => .ok .null
  | _, .undefined => .ok .undefined
  | 0, .object _ => .error .stackOverflow
  | 0, .array _ => .error .stackOverflow
  | depth + 1, .object handle =>
    match heap.get handle with
    | some (.object fields) => do
      let materialized ← fields.toList.mapM fun field => do
        let value ← materializeWithin heap depth field.2
        pure (field.1, value)
      pure (.object materialized)
    | _ => .error (.runtime .staleObjectHandle)
  | depth + 1, .array handle =>
    match heap.get handle with
    | some (.array values) => do
      let materialized ← values.mapM (materializeWithin heap depth)
      pure (.array materialized)
    | _ => .error (.runtime .staleArrayHandle)

def materialize (heap : Store ν) (value : RuntimeValue ν) : Except Stop (Value ν) :=
  materializeWithin heap (heapDepth heap) value

mutual

def interopFromValue : Value ν → InteropValue ν
  | .number value => .number value
  | .string value => .string value
  | .boolean value => .boolean value
  | .null => .null
  | .undefined => .undefined
  | .object fields => .object (interopFromFields fields)
  | .array values => .array (interopFromValues values)

def interopFromFields : List (String × Value ν) → List (String × InteropValue ν)
  | [] => []
  | (name, value) :: fields => (name, interopFromValue value) :: interopFromFields fields

def interopFromValues : List (Value ν) → List (InteropValue ν)
  | [] => []
  | value :: values => interopFromValue value :: interopFromValues values

end

mutual

/-- The source returns a `Result` here, but no branch of it fails. -/
def runtimeFromInterop : InteropValue ν → Store ν → RuntimeValue ν × Store ν
  | .number value, heap => (.number value, heap)
  | .string value, heap => (.string value, heap)
  | .boolean value, heap => (.boolean value, heap)
  | .null, heap => (.null, heap)
  | .undefined, heap => (.undefined, heap)
  | .object fields, heap =>
    let converted := runtimeFromFields fields heap ∅
    let allocated := converted.2.allocate (.object converted.1)
    (.object allocated.1, allocated.2)
  | .array values, heap =>
    let converted := runtimeFromValues values heap
    let allocated := converted.2.allocate (.array converted.1)
    (.array allocated.1, allocated.2)

def runtimeFromFields : List (String × InteropValue ν) → Store ν →
    Std.TreeMap String (RuntimeValue ν) → Std.TreeMap String (RuntimeValue ν) × Store ν
  | [], heap, runtimeFields => (runtimeFields, heap)
  | (name, value) :: fields, heap, runtimeFields =>
    let converted := runtimeFromInterop value heap
    runtimeFromFields fields converted.2 (runtimeFields.insert name converted.1)

def runtimeFromValues : List (InteropValue ν) → Store ν → List (RuntimeValue ν) × Store ν
  | [], heap => ([], heap)
  | value :: values, heap =>
    let converted := runtimeFromInterop value heap
    let rest := runtimeFromValues values converted.2
    (converted.1 :: rest.1, rest.2)

end

section Operators

variable [F64 ν]

def number : RuntimeValue ν → Except Stop ν
  | .number value => .ok value
  | _ => .error (.runtime .expectedNumber)

def truthy : RuntimeValue ν → Bool
  | .boolean value => value
  | .null | .undefined => false
  | .number value => !F64.eq value F64.zero
  | .string value => !value.isEmpty
  | .object _ | .array _ => true

/-- The derived equality of the source: handles are compared, not contents. -/
def equal : RuntimeValue ν → RuntimeValue ν → Bool
  | .number left, .number right => F64.eq left right
  | .string left, .string right => left == right
  | .boolean left, .boolean right => left == right
  | .null, .null => true
  | .undefined, .undefined => true
  | .object left, .object right => left == right
  | .array left, .array right => left == right
  | _, _ => false

def displayWithin (heap : Store ν) : ℕ → RuntimeValue ν → Except Stop String
  | _, .number value => .ok (F64.display value)
  | _, .string value => .ok value
  | _, .boolean value => .ok (if value then "true" else "false")
  | _, .null => .ok "null"
  | _, .undefined => .ok "undefined"
  | _, .object _ => .ok "[object Object]"
  | 0, .array _ => .error .stackOverflow
  | depth + 1, .array handle =>
    match heap.get handle with
    | some (.array values) => do
      let parts ← values.mapM (displayWithin heap depth)
      pure (",".intercalate parts)
    | _ => .error (.runtime .staleArrayHandle)

def display (heap : Store ν) (value : RuntimeValue ν) : Except Stop String :=
  displayWithin heap (heapDepth heap) value

def arithmetic (op : ν → ν → ν) (left right : RuntimeValue ν) : Except Stop (RuntimeValue ν) := do
  let left ← number left
  let right ← number right
  pure (.number (op left right))

def comparison (op : ν → ν → Bool) (left right : RuntimeValue ν) :
    Except Stop (RuntimeValue ν) := do
  let left ← number left
  let right ← number right
  pure (.boolean (op left right))

def add (heap : Store ν) (left right : RuntimeValue ν) : Except Stop (RuntimeValue ν) :=
  match left, right with
  | .string left, right => do
    let text ← display heap right
    pure (.string (left ++ text))
  | left, .string right => do
    let text ← display heap left
    pure (.string (text ++ right))
  | left, right => arithmetic F64.add left right

def isNullish : RuntimeValue ν → Bool
  | .null | .undefined => true
  | _ => false

def binary (op : UInt32) (heap : Store ν) (left right : RuntimeValue ν) :
    Except Stop (RuntimeValue ν) :=
  match op.toNat with
  | 0 => add heap left right
  | 1 => arithmetic F64.sub left right
  | 2 => arithmetic F64.mul left right
  | 3 => arithmetic F64.div left right
  | 4 => arithmetic F64.rem left right
  | 5 => .ok (.boolean (equal left right))
  | 6 => .ok (.boolean (equal left right))
  | 7 => .ok (.boolean (!equal left right))
  | 8 => .ok (.boolean (!equal left right))
  | 9 => comparison F64.lt left right
  | 10 => comparison F64.le left right
  | 11 => comparison F64.gt left right
  | 12 => comparison F64.ge left right
  | 13 => .ok (.boolean (truthy left && truthy right))
  | 14 => .ok (.boolean (truthy left || truthy right))
  | 15 => .ok (if isNullish left then right else left)
  | _ => .error (.runtime (.unknownBinaryOp op))

def valueFromConstant : Constant → Except Stop (RuntimeValue ν)
  | .number value =>
    match F64.parse value with
    | .ok value => .ok (.number value)
    | .error reason => .error (.runtime (.invalidNumberConstant value reason))
  | .string value | .symbol value => .ok (.string value)
  | .boolean value => .ok (.boolean value)
  | .null => .ok .null
  | .undefined => .ok .undefined

end Operators

def symbolName : Constant → Except Stop String
  | .symbol value | .string value => .ok value
  | _ => .error (.runtime .expectedSymbolConstant)

def loadMember (heap : Store ν) (object : RuntimeValue ν) (property : String) :
    Except Stop (RuntimeValue ν) :=
  match object with
  | .object handle =>
    match heap.get handle with
    | some (.object fields) => .ok (fields[property]?.getD .undefined)
    | _ => .error (.runtime .staleObjectHandle)
  | _ => .error (.runtime (.cannotReadProperty property))

def storeMember (heap : Store ν) (object : RuntimeValue ν) (property : String)
    (value : RuntimeValue ν) : Except Stop (Store ν) :=
  match object with
  | .object handle =>
    match heap.getMut handle with
    | some (.object fields, write) => .ok (write (.object (fields.insert property value)))
    | _ => .error (.runtime .staleObjectHandle)
  | _ => .error (.runtime (.cannotWriteProperty property))

end Tsvm.RuntimeValues
