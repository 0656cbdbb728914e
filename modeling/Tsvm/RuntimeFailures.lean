import Mathlib.Tactic.IntervalCases
import Tsvm.InterpreterSteps

set_option autoImplicit false

/-!
# How the primitive operations fail

The errors of the conversions, of the operators and of the dispatch of a call,
whatever bytecode they are used by.
-/
namespace Tsvm.RuntimeFailures
open Heap Interop RuntimeValues Interpreter InterpreterSteps

/-- The walk through the heap does not end or meets a handle without an object. -/
inductive HeapFailure : Stop → Prop where
  | stackOverflow : HeapFailure .stackOverflow
  | staleObject : HeapFailure (.runtime .staleObjectHandle)
  | staleArray : HeapFailure (.runtime .staleArrayHandle)

variable {ν : Type}

theorem Except.bind_eq_error {ε α β : Type} {x : Except ε α} {f : α → Except ε β} {e : ε}
    (h : (x >>= f) = .error e) : x = .error e ∨ ∃ a, x = .ok a ∧ f a = .error e := by
  cases x with
  | error e' =>
    cases h
    exact .inl rfl
  | ok a => exact .inr ⟨a, rfl, h⟩

theorem Except.mapM_eq_error {ε α β : Type} {f : α → Except ε β} {xs : List α} {e : ε}
    (h : xs.mapM f = .error e) : ∃ x ∈ xs, f x = .error e := by
  induction xs with
  | nil => cases h
  | cons x xs ih =>
    rw [List.mapM_cons] at h
    rcases Except.bind_eq_error h with h | ⟨y, _, h⟩
    · exact ⟨x, List.mem_cons_self, h⟩
    · rcases Except.bind_eq_error h with h | ⟨ys, _, h⟩
      · obtain ⟨x', hx', h⟩ := ih h
        exact ⟨x', List.mem_cons_of_mem _ hx', h⟩
      · cases h

theorem materializeWithin_error {heap : Store ν} {depth : ℕ} {value : RuntimeValue ν} {e : Stop}
    (h : materializeWithin heap depth value = .error e) : HeapFailure e := by
  induction depth generalizing value e with
  | zero =>
    cases value with
    | object | array => cases h; exact .stackOverflow
    | _ => simp [materializeWithin] at h
  | succ depth ih =>
    cases value with
    | object handle =>
      rw [materializeWithin] at h
      split at h
      · rcases Except.bind_eq_error h with h | ⟨_, _, h⟩
        · obtain ⟨field, _, h⟩ := Except.mapM_eq_error h
          rcases Except.bind_eq_error h with h | ⟨_, _, h⟩
          · exact ih h
          · cases h
        · cases h
      · cases h
        exact .staleObject
    | array handle =>
      rw [materializeWithin] at h
      split at h
      · rcases Except.bind_eq_error h with h | ⟨_, _, h⟩
        · obtain ⟨element, _, h⟩ := Except.mapM_eq_error h
          exact ih h
        · cases h
      · cases h
        exact .staleArray
    | _ => simp [materializeWithin] at h

theorem materialize_error {heap : Store ν} {value : RuntimeValue ν} {e : Stop}
    (h : materialize heap value = .error e) : HeapFailure e := materializeWithin_error h

/-- A call is refused before it starts a function. -/
theorem dispatch_error {m : Bytecode.BytecodeModule} {host : HostEnvironment ν} {name : String}
    {args : List (RuntimeValue ν)} {s : Machine ν} {e : Stop}
    (h : (dispatch m host name args s).1 = .error e) :
    HeapFailure e ∨ (∃ error, e = .error (.interop error)) ∨ e = .runtime (.unknownFunction name) := by
  obtain ⟨t, h⟩ : ∃ t, dispatch m host name args s = (.error e, t) :=
    ⟨(dispatch m host name args s).2, Prod.ext h rfl⟩
  unfold dispatch at h
  split at h
  · cases h
  · rcases FailState.bind_eq_error.mp h with h | ⟨result, u, _, h⟩
    · rcases FailState.bind_eq_error.mp h with h | ⟨now, v, _, h⟩
      · cases h
      · rcases FailState.bind_eq_error.mp h with h | ⟨values, w, _, h⟩
        · obtain ⟨value, _, h⟩ := Except.mapM_eq_error (congrArg Prod.fst h)
          rcases Except.bind_eq_error h with h | ⟨_, _, h⟩
          · exact .inl (materialize_error h)
          · cases h
        · cases hcall : host.call now.hostCalls name values with
          | none => simp [hcall] at h
          | some answer =>
            simp only [hcall] at h
            rcases FailState.bind_eq_error.mp h with h | ⟨_, _, _, h⟩
            · cases h
            · cases answer with
              | error error =>
                cases h
                exact .inr (.inl ⟨error, rfl⟩)
              | ok value =>
                rcases FailState.bind_eq_error.mp h with h | ⟨_, _, _, h⟩ <;> cases h
    · cases result with
      | some value => cases h
      | none =>
        rcases FailState.bind_eq_error.mp h with h | ⟨_, _, _, h⟩
        · have h := congrArg Prod.fst h
          simp only [FailState.lift_run, findFunction] at h
          split at h
          · cases h
          · cases h
            exact .inr (.inr rfl)
        · cases h

section

variable [F64 ν]

theorem displayWithin_error {heap : Store ν} {depth : ℕ} {value : RuntimeValue ν} {e : Stop}
    (h : displayWithin heap depth value = .error e) : HeapFailure e := by
  induction depth generalizing value e with
  | zero =>
    cases value with
    | array => cases h; exact .stackOverflow
    | _ => simp [displayWithin] at h
  | succ depth ih =>
    cases value with
    | array handle =>
      rw [displayWithin] at h
      split at h
      · rcases Except.bind_eq_error h with h | ⟨_, _, h⟩
        · obtain ⟨element, _, h⟩ := Except.mapM_eq_error h
          exact ih h
        · cases h
      · cases h
        exact .staleArray
    | _ => simp [displayWithin] at h

omit [F64 ν] in
theorem number_error {value : RuntimeValue ν} {e : Stop} (h : number value = .error e) :
    e = .runtime .expectedNumber := by
  unfold number at h
  split at h <;> cases h
  rfl

omit [F64 ν] in
theorem arithmetic_error {op : ν → ν → ν} {left right : RuntimeValue ν} {e : Stop}
    (h : arithmetic op left right = .error e) : e = .runtime .expectedNumber := by
  rcases Except.bind_eq_error h with h | ⟨_, _, h⟩
  · exact number_error h
  · rcases Except.bind_eq_error h with h | ⟨_, _, h⟩
    · exact number_error h
    · cases h

omit [F64 ν] in
theorem comparison_error {op : ν → ν → Bool} {left right : RuntimeValue ν} {e : Stop}
    (h : comparison op left right = .error e) : e = .runtime .expectedNumber := by
  rcases Except.bind_eq_error h with h | ⟨_, _, h⟩
  · exact number_error h
  · rcases Except.bind_eq_error h with h | ⟨_, _, h⟩
    · exact number_error h
    · cases h

theorem add_error {heap : Store ν} {left right : RuntimeValue ν} {e : Stop}
    (h : add heap left right = .error e) : HeapFailure e ∨ e = .runtime .expectedNumber := by
  unfold add at h
  split at h
  · rcases Except.bind_eq_error h with h | ⟨_, _, h⟩
    · exact .inl (displayWithin_error h)
    · cases h
  · rcases Except.bind_eq_error h with h | ⟨_, _, h⟩
    · exact .inl (displayWithin_error h)
    · cases h
  · exact .inr (arithmetic_error h)

/-- The operator codes of `binary` are the numbers up to 15. -/
theorem binary_unknown {op : UInt32} (hop : 15 < op.toNat) (heap : Store ν)
    (left right : RuntimeValue ν) :
    binary op heap left right = .error (.runtime (.unknownBinaryOp op)) := by
  unfold binary
  split <;> first | omega | rfl

theorem binary_error {op : UInt32} {heap : Store ν} {left right : RuntimeValue ν} {e : Stop}
    (h : binary op heap left right = .error e) :
    HeapFailure e ∨ e = .runtime .expectedNumber ∨
      15 < op.toNat ∧ e = .runtime (.unknownBinaryOp op) := by
  by_cases hop : 15 < op.toNat
  · rw [binary_unknown hop] at h
    cases h
    exact .inr (.inr ⟨hop, rfl⟩)
  · have hle : op.toNat ≤ 15 := by omega
    unfold binary at h
    generalize op.toNat = code at h hle
    interval_cases code
    · rcases add_error h with h | h
      · exact .inl h
      · exact .inr (.inl h)
    · exact .inr (.inl (arithmetic_error h))
    · exact .inr (.inl (arithmetic_error h))
    · exact .inr (.inl (arithmetic_error h))
    · exact .inr (.inl (arithmetic_error h))
    · cases h
    · cases h
    · cases h
    · cases h
    · exact .inr (.inl (comparison_error h))
    · exact .inr (.inl (comparison_error h))
    · exact .inr (.inl (comparison_error h))
    · exact .inr (.inl (comparison_error h))
    · cases h
    · cases h
    · cases h

end

theorem loadMember_error {heap : Store ν} {object : RuntimeValue ν} {property : String} {e : Stop}
    (h : loadMember heap object property = .error e) :
    HeapFailure e ∨ e = .runtime (.cannotReadProperty property) := by
  unfold loadMember at h
  split at h
  · split at h <;> cases h
    exact .inl .staleObject
  · cases h
    exact .inr rfl

theorem storeMember_error {heap : Store ν} {object value : RuntimeValue ν} {property : String}
    {e : Stop} (h : storeMember heap object property value = .error e) :
    HeapFailure e ∨ e = .runtime (.cannotWriteProperty property) := by
  unfold storeMember at h
  split at h
  · split at h <;> cases h
    exact .inl .staleObject
  · cases h
    exact .inr rfl

end Tsvm.RuntimeFailures
