import Tsvm.BytecodeVerifierFacts
import Tsvm.Compilation
import Tsvm.Interpreter
import Tsvm.Semantic

set_option autoImplicit false

/-!
# From source text to a prepared module

The passes in their order. A `PreparedModule` can only be built from a module
that the verifier accepts.
-/
namespace Tsvm.Pipeline
open Ast Bytecode BytecodeVerifier BytecodeVerifierFacts Interop Ir RuntimeValues Interpreter
open Parsing Semantic

structure LoweredProgram where
  ir : Option IrProgram
  diagnostics : List SemanticDiagnostic

structure BytecodeOutput where
  module : Option BytecodeModule
  diagnostics : List SemanticDiagnostic

structure PreparedModule where
  module : BytecodeModule
  accepted : Accepted module

section Source

variable (order : IterationOrder)

def lowerSource (source : String) : LoweredProgram :=
  let semantic := analyzeSource order source
  if semantic.diagnostics.isEmpty then
    ⟨some (Lowering.lowerProgram (parseSource source).program), []⟩
  else ⟨none, semantic.diagnostics⟩

def compileSource (source : String) : BytecodeOutput :=
  let lowered := lowerSource order source
  match lowered.ir with
  | some ir => ⟨some (Compilation.compile ir), []⟩
  | none => ⟨none, lowered.diagnostics⟩

def PreparedModule.ofModule (m : BytecodeModule) : Except Stop PreparedModule :=
  match h : verifyModule m with
  | .ok () => .ok ⟨m, h⟩
  | .error errors => .error (.error (.verify errors))

def PreparedModule.fromSource (source : String) : Except Stop PreparedModule :=
  let compiled := compileSource order source
  match compiled.module with
  | some m => PreparedModule.ofModule m
  | none => .error (.error (.compile compiled.diagnostics))

end Source

section Execution

variable {ν : Type} [F64 ν] (host : HostEnvironment ν)

def PreparedModule.executeWithHost (prepared : PreparedModule) (fuel : ℕ) :
    Except Stop (ExecutionOutput ν) :=
  (execute prepared.module host fuel .new).1

/-- The arguments of a call from outside, allocated in a fresh interpreter. -/
def runtimeArguments (args : List (InteropValue ν)) : List (RuntimeValue ν) × Machine ν :=
  let converted := runtimeFromValues args .new
  (converted.1, { Machine.new with heap := converted.2 })

/-- The result of a call leaves the interpreter as a value of the host. -/
def returnToHost (result : RuntimeValue ν) : Run ν (InteropValue ν) := do
  let s ← FailState.read
  let (_, heap) := s.heap.collect (roots [result])
  setHeap heap
  let value ← FailState.lift (materialize heap result)
  pure (interopFromValue value)

def PreparedModule.callFunction (prepared : PreparedModule) (fuel : ℕ) (name : String)
    (args : List (InteropValue ν)) : Except Stop (InteropValue ν) :=
  let (runtimeArgs, machine) := runtimeArguments args
  ((Interpreter.callFunction prepared.module host fuel name runtimeArgs >>= returnToHost)
    machine).1

def executeSourceWithHost (order : IterationOrder) (source : String) (fuel : ℕ) :
    Except Stop (ExecutionOutput ν) := do
  let prepared ← PreparedModule.fromSource order source
  prepared.executeWithHost host fuel

end Execution

end Tsvm.Pipeline
