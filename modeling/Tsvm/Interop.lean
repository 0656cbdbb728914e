import Mathlib

set_option autoImplicit false

/-!
# Host values and host functions

`ν` is the type of 64-bit floating point numbers. A host function may keep state
of its own, so its answer may depend on the calls the host has answered before.
-/
namespace Tsvm.Interop

/-- The operations on `f64` the runtime uses. -/
class F64 (ν : Type) where
  parse : String → Except String ν
  display : ν → String
  add : ν → ν → ν
  sub : ν → ν → ν
  mul : ν → ν → ν
  div : ν → ν → ν
  rem : ν → ν → ν
  eq : ν → ν → Bool
  lt : ν → ν → Bool
  le : ν → ν → Bool
  gt : ν → ν → Bool
  ge : ν → ν → Bool
  zero : ν

def digitsValue (text : List Char) : Option ℕ :=
  if text ≠ [] ∧ text.all Char.isDigit then
    some (text.foldl (fun value c => 10 * value + (c.toNat - '0'.toNat)) 0)
  else none

/-- Integers as numbers: exact where no operation leaves them. -/
instance : F64 Int where
  parse text :=
    match digitsValue text.toList with
    | some value => .ok value
    | none => .error "invalid float literal"
  display := toString
  add := (· + ·)
  sub := (· - ·)
  mul := (· * ·)
  div := Int.tdiv
  rem := Int.tmod
  eq := (· == ·)
  lt left right := decide (left < right)
  le left right := decide (left ≤ right)
  gt left right := decide (right < left)
  ge left right := decide (right ≤ left)
  zero := 0

/-- The fields of an object are in the order of their names, as a `BTreeMap` has them. -/
inductive InteropValue (ν : Type) where
  | number (value : ν)
  | string (value : String)
  | boolean (value : Bool)
  | null
  | undefined
  | object (fields : List (String × InteropValue ν))
  | array (values : List (InteropValue ν))

structure InteropError where
  message : String
  deriving Repr, DecidableEq

structure HostCall (ν : Type) where
  name : String
  args : List (InteropValue ν)

abbrev HostFunction (ν : Type) :=
  List (HostCall ν) → List (InteropValue ν) → Except InteropError (InteropValue ν)

structure HostEnvironment (ν : Type) where
  functions : String → Option (HostFunction ν)

namespace HostEnvironment

variable {ν : Type}

def new : HostEnvironment ν := ⟨fun _ => none⟩

def insertFunction (host : HostEnvironment ν) (name : String) (function : HostFunction ν) :
    HostEnvironment ν :=
  ⟨fun key => if key = name then some function else host.functions key⟩

def containsFunction (host : HostEnvironment ν) (name : String) : Bool :=
  (host.functions name).isSome

def call (host : HostEnvironment ν) (history : List (HostCall ν)) (name : String)
    (args : List (InteropValue ν)) : Option (Except InteropError (InteropValue ν)) :=
  (host.functions name).map fun function => function history args

end HostEnvironment

end Tsvm.Interop
