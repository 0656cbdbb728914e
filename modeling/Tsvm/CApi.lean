import Tsvm.ScriptLoader

set_option autoImplicit false

/-!
# The C interface

The two entry points that execute a source, with their status and their JSON
text. `isFinite` is that of `f64`; `debug` and `utf8Error` are the texts that the
standard library prints for an execution error and for bytes that are not UTF-8.
-/
namespace Tsvm.CApi
open Interop Interpreter Pipeline PreparationCache RuntimeValues ScriptLoader Semantic

inductive Status where
  | ok
  | invalidArgument
  | invalidUtf8
  | compileError
  | verifyError
  | runtimeError
  | internalError
  deriving Repr, DecidableEq

def Status.fromExecuteError : ExecuteError → Status
  | .module _ | .compile _ => .compileError
  | .verify _ => .verifyError
  | .interop _ | .runtime _ => .runtimeError

def Status.name : Status → String
  | .ok => "ok"
  | .invalidArgument => "invalid_argument"
  | .invalidUtf8 => "invalid_utf8"
  | .compileError => "compile_error"
  | .verifyError => "verify_error"
  | .runtimeError => "runtime_error"
  | .internalError => "internal_error"

structure CApiResult where
  status : Status
  json : String
  deriving Repr, DecidableEq

/-- `char::is_control`. -/
def isControl (ch : Char) : Bool := ch.toNat < 0x20 || (0x7F ≤ ch.toNat && ch.toNat < 0xA0)

def escapeCharacter (ch : Char) : List Char :=
  match ch with
  | '"' => ['\\', '"']
  | '\\' => ['\\', '\\']
  | '\x08' => ['\\', 'b']
  | '\x0C' => ['\\', 'f']
  | '\n' => ['\\', 'n']
  | '\r' => ['\\', 'r']
  | '\t' => ['\\', 't']
  | ch =>
    if isControl ch then
      let digits := Nat.toDigits 16 ch.toNat
      '\\' :: 'u' :: (List.replicate (4 - digits.length) '0' ++ digits)
    else [ch]

def jsonString (value : String) : String :=
  String.ofList ('"' :: value.toList.flatMap escapeCharacter ++ ['"'])

def jsonObject (fields : List String) : String := "\x7b" ++ ",".intercalate fields ++ "\x7d"

def jsonArray (values : List String) : String := "[" ++ ",".intercalate values ++ "]"

def CApiResult.error (status : Status) (message : String) : CApiResult where
  status := status
  json := jsonObject ["\"generated_javascript\":false", "\"status\":\"" ++ status.name ++ "\"",
    "\"message\":" ++ jsonString message]

section Values

variable {ν : Type} [F64 ν] (isFinite : ν → Bool)

mutual

def renderValue : Value ν → String
  | .number value =>
    if isFinite value then jsonObject ["\"kind\":\"number\"", "\"value\":" ++ F64.display value]
    else jsonObject ["\"kind\":\"number\"", "\"value\":null",
      "\"non_finite\":" ++ jsonString (F64.display value)]
  | .string value => jsonObject ["\"kind\":\"string\"", "\"value\":" ++ jsonString value]
  | .boolean value =>
    jsonObject ["\"kind\":\"boolean\"", "\"value\":" ++ (if value then "true" else "false")]
  | .null => jsonObject ["\"kind\":\"null\""]
  | .undefined => jsonObject ["\"kind\":\"undefined\""]
  | .object fields =>
    jsonObject ["\"kind\":\"object\"", "\"value\":" ++ jsonObject (renderFields fields)]
  | .array values => jsonObject ["\"kind\":\"array\"", "\"value\":" ++ jsonArray (renderValues values)]

def renderFields : List (String × Value ν) → List String
  | [] => []
  | (name, value) :: fields => (jsonString name ++ ":" ++ renderValue value) :: renderFields fields

def renderValues : List (Value ν) → List String
  | [] => []
  | value :: values => renderValue value :: renderValues values

end

def renderSuccess (output : ExecutionOutput ν) : String :=
  jsonObject ["\"generated_javascript\":false", "\"status\":\"ok\"",
    "\"console\":" ++ jsonArray (renderValues isFinite output.console),
    "\"return_value\":" ++ renderValue isFinite output.returnValue,
    "\"heap\":" ++ jsonObject [
      "\"live_objects\":" ++ toString output.heap.liveObjects,
      "\"allocated_slots\":" ++ toString output.heap.allocatedSlots]]

def CApiResult.success (output : ExecutionOutput ν) : CApiResult :=
  ⟨.ok, renderSuccess isFinite output⟩

variable (debug : ExecuteError → String) (utf8Error : ByteArray → String)

/-- A panic and the like leave the function without a result. -/
def executeUtf8 (source : ByteArray) (order : IterationOrder) (fuel : ℕ) : Except Stop CApiResult :=
  match String.fromUTF8? source with
  | none => .ok (.error .invalidUtf8 (utf8Error source))
  | some source =>
    match executeSourceWithHost (HostEnvironment.new : HostEnvironment ν) order source fuel with
    | .ok output => .ok (.success isFinite output)
    | .error (.error error) => .ok (.error (.fromExecuteError error) (debug error))
    | .error stop => .error stop

def executePageSessionUtf8 (lookup : Lookup) (policy : ScriptPolicy) (fuel : ℕ)
    (session : PageScriptSession ν) : Except Stop CApiResult × PageScriptSession ν :=
  let (result, session) :=
    PageScriptSession.executeInlineTypescript .new fuel lookup policy session
  (match result with
    | .ok output => .ok (.success isFinite output)
    | .error (.error error) =>
      .ok (.error ((error.source.map Status.fromExecuteError).getD .runtimeError) error.message)
    | .error (.stop stop) => .error stop, session)

end Values

end Tsvm.CApi
