import Mathlib

set_option autoImplicit false

/-!
# Positions and diagnostics

Source positions, and the diagnostics that the passes hand on to their callers.
-/
namespace Tsvm

structure Position where
  byte : ℕ
  line : ℕ
  column : ℕ
  deriving Repr, DecidableEq

structure Span where
  start : Position
  «end» : Position
  deriving Repr, DecidableEq

structure ParseDiagnostic where
  message : String
  span : Span
  deriving Repr, DecidableEq

inductive DiagnosticCode where
  | unknownIdentifier
  | unknownType
  | duplicateSymbol
  | typeMismatch
  | missingProperty
  | wrongArgumentCount
  | invalidCallTarget
  | invalidMemberAccess
  | returnTypeMismatch
  deriving Repr, DecidableEq

structure SemanticDiagnostic where
  code : DiagnosticCode
  message : String
  span : Span
  deriving Repr, DecidableEq

inductive ModuleDiagnosticCode where
  | missingModule
  | unsupportedSpecifier
  | cycle
  | parse
  deriving Repr, DecidableEq

structure ModuleDiagnostic where
  code : ModuleDiagnosticCode
  message : String
  module : String
  modules : List String
  deriving Repr, DecidableEq

end Tsvm
