import Tsvm.ExpressionRuns
import Tsvm.LoweredChecks
import Tsvm.TopLevelFunctions

set_option autoImplicit false

/-!
# The meaning of a source

An evaluation of the syntax tree with one environment of names for each call. It
shares the primitive operations and the machine with the interpreter, but knows of
no values, slots, constants or blocks. What the lowerer leaves out has no meaning
here: loops, unary operators, and the operator of an assignment to a variable.
-/
namespace Tsvm.SourceMeaning
open Ast Bytecode Interop Lowering RuntimeValues Interpreter
open ExpressionRuns TopLevelFunctions

variable {ν : Type}

/-- The variables of a call, what was stored last in front. A name means one variable in
    the whole function. -/
abbrev Environment (ν : Type) := List (String × RuntimeValue ν)

/-- An accepted source only reads names that have a value. -/
def readVariable (name : String) (env : Environment ν) : Except Stop (RuntimeValue ν) :=
  match env.lookup name with
  | some value => .ok value
  | none => .error .panic

inductive Outcome (ν : Type) where
  | continue (env : Environment ν)
  | return (value : RuntimeValue ν)

structure SourceFunction where
  name : String
  params : List String
  body : List Statement

def sourceFunctions (program : Program) : List SourceFunction :=
  ((program.body.filterMap plainFunction).map fun binding =>
    ⟨binding.declaration.name, binding.declaration.params.map Parameter.name,
      binding.declaration.body⟩) ++
    [⟨"__entry", [], program.body.filter isEntryStatement⟩]

def findSource (program : Program) (name : String) : Except Stop SourceFunction :=
  match (sourceFunctions program).find? fun function => function.name == name with
  | some function => .ok function
  | none => .error (.runtime (.unknownFunction name))

section Evaluation

variable [F64 ν]

def evaluateConstant (constant : Constant) (env : Environment ν) :
    Run ν (RuntimeValue ν × Environment ν) := do
  let value ← FailState.lift (valueFromConstant constant)
  pure (value, env)

variable (call : Call ν)

mutual

def evaluate : Expression → Environment ν → Run ν (RuntimeValue ν × Environment ν)
  | .identifier name _, env => do
    let value ← FailState.lift (readVariable name env)
    pure (value, env)
  | .number value _, env => evaluateConstant (.number value) env
  | .string value _, env => evaluateConstant (.string value) env
  | .boolean value _, env => evaluateConstant (.boolean value) env
  | .null _, env => evaluateConstant .null env
  | .undefined _, env => evaluateConstant .undefined env
  | .object properties _, env => do
    let fields ← evaluateProperties properties env
    let handle ← allocate (.object (objectOf fields.1))
    pure (.object handle, fields.2)
  | .array elements _, env => do
    let values ← evaluateAll elements env
    let handle ← allocate (.array values.1)
    pure (.array handle, values.2)
  | .member object property _, env => do
    let object ← evaluate object env
    let value ← loadRun object.1 property
    pure (value, object.2)
  | .call callee arguments _, env => do
    let values ← evaluateAll arguments env
    let value ← call (calleeName callee) values.1
    pure (value, values.2)
  | .binary left operator right _, env => do
    let left ← evaluate left env
    let right ← evaluate right left.2
    let value ← binaryRun (binaryOp operator) left.1 right.1
    pure (value, right.2)
  | .assignment left operator right _, env =>
    match left with
    | .identifier name _ => do
      let right ← evaluate right env
      pure (right.1, (name, right.1) :: right.2)
    | .member object property _ => do
      let object ← evaluate object env
      let right ← evaluate right object.2
      let stored ← memberStoreRun object.1 property operator right.1
      pure (stored, right.2)
    | _ => evaluate right env
  | .unary _ argument _, env => evaluate argument env
  | .error _, env => evaluateConstant .undefined env

def evaluateAll : List Expression → Environment ν → Run ν (List (RuntimeValue ν) × Environment ν)
  | [], env => pure ([], env)
  | expression :: expressions, env => do
    let first ← evaluate expression env
    let rest ← evaluateAll expressions first.2
    pure (first.1 :: rest.1, rest.2)

def evaluateProperties : List ObjectProperty → Environment ν →
    Run ν (List (String × RuntimeValue ν) × Environment ν)
  | [], env => pure ([], env)
  | .mk name value _ :: properties, env => do
    let first ← evaluate value env
    let rest ← evaluateProperties properties first.2
    pure ((name, first.1) :: rest.1, rest.2)

end

def evaluateVariable (declaration : VariableDeclaration) (env : Environment ν) :
    Run ν (Outcome ν) :=
  match declaration.initializer with
  | some expression => do
    let result ← evaluate call expression env
    pure (.continue ((declaration.name, result.1) :: result.2))
  | none => do
    let result ← evaluateConstant .undefined env
    pure (.continue ((declaration.name, result.1) :: result.2))

def evaluateReturn (value : Option Expression) (env : Environment ν) : Run ν (Outcome ν) :=
  match value with
  | some expression => do
    let result ← evaluate call expression env
    pure (.return result.1)
  | none => pure (.return .undefined)

mutual

def evaluateStatement : Statement → Environment ν → Run ν (Outcome ν)
  | .variable declaration _, env => evaluateVariable call declaration env
  | .return value _, env => evaluateReturn call value env
  | .expression value _, env | .throw value _, env => do
    let result ← evaluate call value env
    pure (.continue result.2)
  | .if test consequent alternate _, env => do
    let condition ← evaluate call test env
    if truthy condition.1 then evaluateStatement consequent condition.2
    else evaluateAlternate alternate condition.2
  | .block body _, env => evaluateStatements body env
  | .export inner _, env => evaluateStatement inner env
  | .interface _ _, env | .typeAlias _ _, env | .class _ _, env | .function _ _, env
  | .import _ _, env | .empty _, env | .error _, env | .while _ _ _, env
  | .for _ _ _ _ _, env => pure (.continue env)

def evaluateAlternate : Option Statement → Environment ν → Run ν (Outcome ν)
  | some alternate, env => evaluateStatement alternate env
  | none, env => pure (.continue env)

def evaluateStatements : List Statement → Environment ν → Run ν (Outcome ν)
  | [], env => pure (.continue env)
  | statement :: statements, env => do
    match ← evaluateStatement statement env with
    | .continue env => evaluateStatements statements env
    | .return value => pure (.return value)

end

/-- A call whose statements all continue returns `undefined`. -/
def evaluateBody (function : SourceFunction) (args : List (RuntimeValue ν)) :
    Run ν (RuntimeValue ν) := do
  match ← evaluateStatements call function.body
      (function.params.zip (resize args function.params.length)) with
  | .continue _ => pure .undefined
  | .return value => pure value

variable (program : Program) (host : HostEnvironment ν)

/-- The calls of a program, nested as deep as the budget says. -/
def evaluateCall : ℕ → Call ν
  | 0, _, _ => FailState.fail .outOfFuel
  | fuel + 1, name, args =>
    if name = "console.log" then do
      FailState.modify fun s => { s with console := s.console ++ args }
      pure .undefined
    else do
      match ← callHost host name args with
      | some result => pure result
      | none => do
        let function ← FailState.lift (findSource program name)
        evaluateBody (evaluateCall fuel) function args

def finishRun (returnValue : RuntimeValue ν) : Run ν (ExecutionOutput ν) := do
  let s ← FailState.read
  let (lastCollection, heap) := s.heap.collect (roots s.console ++ roots [returnValue])
  setHeap heap
  let console ← FailState.lift (s.console.mapM (materialize heap))
  let returnValue ← FailState.lift (materialize heap returnValue)
  pure ⟨console, returnValue, ⟨heap.liveLen, heap.capacity, lastCollection⟩⟩

def evaluateProgram (fuel : ℕ) : Run ν (ExecutionOutput ν) := do
  let returnValue ← evaluateCall program host fuel "__entry" []
  finishRun returnValue

end Evaluation

end Tsvm.SourceMeaning
