import Tsvm.Modules
import Tsvm.PreparationCache

set_option autoImplicit false

/-!
# The script loader

A page session runs inline sources and the TypeScript scripts of documents, with
one cache of prepared modules. A document is the list of its characters.
-/
namespace Tsvm.ScriptLoader
open Interop Interpreter Modules Pipeline PreparationCache RuntimeValues Semantic

inductive ScriptKind where
  | external
  | inline
  deriving Repr, DecidableEq

structure ScriptExecution where
  kind : ScriptKind
  specifier : String
  deriving Repr, DecidableEq

structure BrowserExecution (ν : Type) where
  console : List (Value ν)
  scripts : List ScriptExecution
  generatedJavascript : Bool

structure ScriptLoaderError where
  message : String
  source : Option ExecuteError
  deriving Repr, DecidableEq

/-- How a method of the loader ends early; `stop` is an execution without a result. -/
inductive LoaderStop where
  | error (error : ScriptLoaderError)
  | stop (stop : Stop)
  deriving Repr, DecidableEq

structure ScriptPolicy where
  allowTypescript : Bool
  deriving Repr, DecidableEq

def ScriptPolicy.default : ScriptPolicy := ⟨true⟩

structure ScriptSlice where
  openTag : List Char
  body : String

/-- The text before the first occurrence of a pattern, and the text from there on. -/
def findText (pattern : List Char) : List Char → Option (List Char × List Char)
  | [] => if pattern.isEmpty then some ([], []) else none
  | ch :: text =>
    if pattern.isPrefixOf (ch :: text) then some ([], ch :: text)
    else (findText pattern text).map fun found => (ch :: found.1, found.2)

/-- Every turn goes past a closing tag. -/
def findScriptsWithin : ℕ → List Char → List ScriptSlice
  | 0, _ => []
  | turns + 1, html =>
    match findText "<script".toList html with
    | none => []
    | some (_, tag) =>
      match findText ['>'] tag with
      | none => []
      | some (openTag, rest) =>
        match findText "</script>".toList rest.tail with
        | none => []
        | some (body, close) =>
          ⟨openTag ++ ['>'], String.ofList body⟩ ::
            findScriptsWithin turns (close.drop "</script>".length)

def findScripts (html : String) : List ScriptSlice :=
  findScriptsWithin (html.toList.length + 1) html.toList

def attributeValue (openTag : List Char) (name : String) : Option (List Char) := do
  let (_, found) ← findText (name ++ "=").toList openTag
  let value := (found.drop (name ++ "=").length).dropWhile Lexing.isWhitespace
  match value with
  | [] => none
  | quote :: rest =>
    if quote ≠ '"' ∧ quote ≠ '\'' then none
    else (findText [quote] rest).map Prod.fst

def toAsciiLowercase (ch : Char) : Char :=
  if 'A' ≤ ch ∧ ch ≤ 'Z' then Char.ofNat (ch.toNat + 32) else ch

def scriptType (openTag : List Char) : Option String :=
  (attributeValue openTag "type").map fun value => String.ofList (value.map toAsciiLowercase)

def scriptSrc (openTag : List Char) : Option String :=
  (attributeValue openTag "src").map String.ofList

def resolveUrl (documentUrl src : String) : String :=
  if hasPrefix "/" src then src else joinPath documentUrl src

def ScriptSlice.isTypescript (script : ScriptSlice) : Bool :=
  scriptType script.openTag = some "text/typescript"

/-- The source's field, and the host calls the page has made so far. -/
structure PageScriptSession (ν : Type) where
  cache : PreparedModuleCache
  hostCalls : List (HostCall ν)

abbrev Session (ν α : Type) := FailState LoaderStop (PageScriptSession ν) α

def executionError (message : String) : Stop → LoaderStop
  | .error error => .error ⟨message, some error⟩
  | stop => .stop stop

section Session

variable {ν : Type}

def PageScriptSession.new (cacheCapacity : ℕ) :
    Except PreparedModuleCacheError (PageScriptSession ν) := do
  let cache ← PreparedModuleCache.new cacheCapacity
  pure ⟨cache, []⟩

def PageScriptSession.cacheStats (session : PageScriptSession ν) : PreparedModuleCacheStats :=
  session.cache.stats

def ensureTypescriptAllowed (policy : ScriptPolicy) : Session ν Unit :=
  if policy.allowTypescript then pure ()
  else FailState.fail (.error ⟨"TypeScript execution blocked by script policy", none⟩)

def onCache {α : Type} (method : Cached α) : FailState Stop (PageScriptSession ν) α := fun s =>
  let (result, cache) := method s.cache
  (result, { s with cache })

variable [F64 ν] (host : HostEnvironment ν) (fuel : ℕ)

/-- A fresh interpreter for a host that may remember the calls made before. -/
def executeWithHost (prepared : PreparedModule) :
    FailState Stop (PageScriptSession ν) (ExecutionOutput ν) := fun s =>
  let (result, machine) :=
    execute prepared.module host fuel { Machine.new with hostCalls := s.hostCalls }
  (result, { s with hostCalls := machine.hostCalls })

def executeCachedSource (lookup : Lookup) (message : String) : Session ν (ExecutionOutput ν) := do
  let found ← FailState.mapError (executionError message)
    (onCache (PreparedModuleCache.getOrPrepare lookup))
  FailState.mapError (executionError message) (executeWithHost host fuel found.module)

def PageScriptSession.executeInlineTypescript (lookup : Lookup) (policy : ScriptPolicy) :
    Session ν (ExecutionOutput ν) := do
  ensureTypescriptAllowed policy
  executeCachedSource host fuel lookup "failed to execute inline TypeScript script"

end Session

section Document

variable {ν : Type} (documentUrl : String) (resources : Sources) (policy : ScriptPolicy)
  (executeSource : Lookup → String → Session ν (ExecutionOutput ν))

def executeScript (script : ScriptSlice) (order : IterationOrder) :
    Session ν (ExecutionOutput ν × ScriptExecution) :=
  match scriptSrc script.openTag with
  | some src =>
    let specifier := resolveUrl documentUrl src
    let failure := s!"failed to execute TypeScript script `{specifier}`"
    if resources.contains specifier then
      match bundleModuleGraph specifier resources with
      | .error diagnostics => FailState.fail (.error ⟨failure, some (.module diagnostics)⟩)
      | .ok graph => do
        let execution ← executeSource ⟨order, graph.bundledSource⟩ failure
        pure (execution, ⟨.external, specifier⟩)
    else FailState.fail
      (.error ⟨s!"TypeScript script resource `{specifier}` was not provided", none⟩)
  | none => do
    let execution ← executeSource ⟨order, script.body⟩ "failed to execute inline TypeScript script"
    pure (execution, ⟨.inline, "<inline>"⟩)

def appendExecution (output : BrowserExecution ν)
    (executed : ExecutionOutput ν × ScriptExecution) : BrowserExecution ν :=
  { output with
    console := output.console ++ executed.1.console
    scripts := output.scripts ++ [executed.2] }

def executeScripts (orders : ℕ → IterationOrder) :
    List (ScriptSlice × ℕ) → BrowserExecution ν → Session ν (BrowserExecution ν)
  | [], output => pure output
  | (script, index) :: scripts, output =>
    if script.isTypescript then do
      ensureTypescriptAllowed policy
      let executed ← executeScript documentUrl resources executeSource script (orders index)
      executeScripts orders scripts (appendExecution output executed)
    else executeScripts orders scripts output

end Document

section Calls

variable {ν : Type} [F64 ν]

/-- The analysis of the `n`-th script of the document goes through maps in the `n`-th order. -/
def PageScriptSession.executeTypescriptScriptsWithPolicy (documentUrl html : String)
    (resources : Sources) (host : HostEnvironment ν) (policy : ScriptPolicy) (fuel : ℕ)
    (orders : ℕ → IterationOrder) : Session ν (BrowserExecution ν) :=
  executeScripts documentUrl resources policy (executeCachedSource host fuel) orders
    (findScripts html).zipIdx ⟨[], [], false⟩

/-- The function of the same name, with a session of its own. -/
def executeTypescriptScriptsWithPolicy (documentUrl html : String) (resources : Sources)
    (host : HostEnvironment ν) (policy : ScriptPolicy) (fuel : ℕ) (orders : ℕ → IterationOrder) :
    Except LoaderStop (BrowserExecution ν) :=
  match PageScriptSession.new 1 with
  | .error _ => .error (.stop .panic)
  | .ok session => (PageScriptSession.executeTypescriptScriptsWithPolicy documentUrl html resources
      host policy fuel orders session).1

inductive SessionCall (ν : Type) where
  | inline (lookup : Lookup) (host : HostEnvironment ν) (policy : ScriptPolicy) (fuel : ℕ)
  | document (documentUrl html : String) (resources : Sources) (host : HostEnvironment ν)
      (policy : ScriptPolicy) (fuel : ℕ) (orders : ℕ → IterationOrder)

def SessionCall.policy : SessionCall ν → ScriptPolicy
  | .inline _ _ policy _ => policy
  | .document _ _ _ _ policy _ _ => policy

abbrev SessionResult (ν : Type) := Except LoaderStop (ExecutionOutput ν ⊕ BrowserExecution ν)

def perform (call : SessionCall ν) : Session ν (ExecutionOutput ν ⊕ BrowserExecution ν) :=
  match call with
  | .inline lookup host policy fuel => do
    let output ← PageScriptSession.executeInlineTypescript host fuel lookup policy
    pure (.inl output)
  | .document documentUrl html resources host policy fuel orders => do
    let output ← PageScriptSession.executeTypescriptScriptsWithPolicy documentUrl html resources
      host policy fuel orders
    pure (.inr output)

def performAll : List (SessionCall ν) → PageScriptSession ν →
    List (SessionResult ν) × PageScriptSession ν
  | [], session => ([], session)
  | call :: calls, session =>
    let (result, session) := perform call session
    let (results, session) := performAll calls session
    (result :: results, session)

end Calls

end Tsvm.ScriptLoader
