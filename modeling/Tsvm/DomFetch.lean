import Std.Data.TreeMap.Basic
import Tsvm.Interop
import Tsvm.Modules

set_option autoImplicit false

/-!
# The DOM and fetch bindings

A document of text nodes and a fetch service with resources of its own origin, and the
host functions that give a program access to them. The shared document of the source
is the document that the calls so far have made out of the first one.
-/
namespace Tsvm.DomFetch
open Interop Modules

structure Element where
  text : String
  deriving Repr, DecidableEq

structure Document where
  nodes : Std.TreeMap String Element

namespace Document

def new : Document := ⟨∅⟩

def text (document : Document) (selector : String) : Option String :=
  document.nodes[selector]?.map Element.text

def setText (document : Document) (selector text : String) : Document :=
  ⟨document.nodes.insert selector ⟨text⟩⟩

def fromTextNodes (nodes : List (String × String)) : Document :=
  nodes.foldl (fun document node => document.setText node.1 node.2) new

end Document

structure FetchService where
  origin : String
  resources : Sources

def stripPrefix (start text : String) : Option String :=
  if hasPrefix start text then some (String.ofList (text.toList.drop start.toList.length)) else none

namespace FetchService

def sameOriginPath (service : FetchService) (url : String) : Except InteropError String :=
  if hasPrefix "/" url then .ok url
  else
    match stripPrefix service.origin url with
    | none => .error ⟨s!"cross-origin fetch blocked for `{url}`"⟩
    | some path =>
      if hasPrefix "/" path then .ok path else .error ⟨s!"invalid fetch URL `{url}`"⟩

def text (service : FetchService) (url : String) : Except InteropError String := do
  let path ← service.sameOriginPath url
  match service.resources[path]? with
  | some text => pure text
  | none => throw ⟨s!"fetch resource `{path}` not found"⟩

end FetchService

structure BrowserBindings where
  document : Document
  fetch : FetchService

section

variable {ν : Type}

def expectString (args : List (InteropValue ν)) (index : ℕ) (label : String) :
    Except InteropError String :=
  match args[index]? with
  | some (.string value) => .ok value
  | _ => .error ⟨s!"expected string for {label}"⟩

def setTextArguments (args : List (InteropValue ν)) : Except InteropError (String × String) := do
  let selector ← expectString args 0 "domSetText selector"
  let text ← expectString args 1 "domSetText text"
  pure (selector, text)

/-- What a call to the host leaves of the document. -/
def Document.afterCall (document : Document) (call : HostCall ν) : Document :=
  if call.name = "domSetText" then
    match setTextArguments call.args with
    | .ok (selector, text) => document.setText selector text
    | .error _ => document
  else document

def Document.after (document : Document) (history : List (HostCall ν)) : Document :=
  history.foldl Document.afterCall document

namespace BrowserBindings

def domText (bindings : BrowserBindings) : HostFunction ν := fun history args => do
  let selector ← expectString args 0 "domText selector"
  pure (.string (((bindings.document.after history).text selector).getD ""))

def domSetText : HostFunction ν := fun _ args => do
  let _ ← setTextArguments args
  pure .undefined

def fetchText (bindings : BrowserBindings) : HostFunction ν := fun _ args => do
  let url ← expectString args 0 "fetchText URL"
  let text ← bindings.fetch.text url
  pure (.string text)

def hostEnvironment (bindings : BrowserBindings) : HostEnvironment ν :=
  ((HostEnvironment.new.insertFunction "domText" bindings.domText).insertFunction
    "domSetText" domSetText).insertFunction "fetchText" bindings.fetchText

end BrowserBindings

end

end Tsvm.DomFetch
