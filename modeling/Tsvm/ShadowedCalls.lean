import Tsvm.Scoping

set_option autoImplicit false

/-!
# Calls of local names

A callee is flattened to a name, which the interpreter looks up among the
console, the host and the functions. A parameter or a variable in scope at the
call does not hide any of them.
-/
namespace Tsvm.ShadowedCalls
open Ast Bytecode Compilation Interop Interpreter Ir Lowering Parsing Pipeline RuntimeValues
open Semantic TopLevelFunctions Scoping

def calleeRoot : Expression → Option String
  | .identifier name _ => some name
  | .member object _ _ => calleeRoot object
  | _ => none

/-- The name a call goes by, when a parameter or a variable in scope has the name its
    callee starts with. -/
def shadowedCall (site : Site) : Option String :=
  match site.use with
  | .call callee =>
    match calleeRoot callee with
    | some root => if root ∈ site.scopes.flatten then some (calleeName callee) else none
    | none => none
  | _ => none

def shadowedCalls (program : Program) : List String :=
  (programSites allUses program).filterMap shadowedCall

section Host

variable {ν : Type} (m : BytecodeModule) (host : HostEnvironment ν)

/-- A call by this name ends in an error in front of the console, the host and the
    functions. -/
def Undispatched (name : String) : Prop :=
  ∀ (args : List (RuntimeValue ν)) (s : Machine ν), ∃ e, dispatch m host name args s = (.error e, s)

theorem selected_eq_none {name : String} (h : selected m name = none) :
    findFunction m name = .error (.runtime (.unknownFunction name)) := by
  have hnone : m.functions.findIdx? (fun function => function.name == name) = none := by
    rw [selected, List.idxOf?, List.findIdx?_map] at h
    exact h
  unfold findFunction
  rw [List.find?_eq_bind_findIdx?_getElem?, hnone]
  rfl

theorem callHost_unknown {name : String} (h : host.functions name = none)
    (args : List (RuntimeValue ν)) (s : Machine ν) :
    callHost host name args s = (.ok none, s) ∨ ∃ e, callHost host name args s = (.error e, s) := by
  unfold callHost
  rw [FailState.bind_ok (FailState.read_run s)]
  cases hargs : (args.mapM fun value => do
      let value ← materialize s.heap value
      pure (interopFromValue value) : Except Stop (List (InteropValue ν))) with
  | error e => exact .inr ⟨e, FailState.bind_error rfl⟩
  | ok values =>
    rw [FailState.bind_ok (FailState.lift_run _ s), HostEnvironment.call, h]
    exact .inl rfl

variable {m host}

theorem undispatched_of_unknown {name : String} (hconsole : name ≠ "console.log")
    (hhost : host.functions name = none) (hselected : selected m name = none) :
    Undispatched m host name := by
  intro args s
  rw [dispatch, if_neg hconsole]
  obtain hnone | ⟨e, herror⟩ := callHost_unknown host hhost args s
  · rw [FailState.bind_ok hnone, selected_eq_none m hselected]
    exact ⟨_, rfl⟩
  · exact ⟨e, FailState.bind_error herror⟩

theorem Undispatched.console {name : String} (h : Undispatched m host name) :
    name ≠ "console.log" := by
  rintro rfl
  obtain ⟨e, herror⟩ := h [] .new
  cases herror

theorem callHost_known {name : String} {function : HostFunction ν}
    (h : host.functions name = some function) (s : Machine ν) (hempty : s.hostCalls = []) :
    (∃ value t, callHost host name [] s = (.ok (some value), t)) ∨
      ∃ e t, callHost host name [] s = (.error e, t) ∧ t.hostCalls = [⟨name, []⟩] := by
  have hcall : host.call s.hostCalls name [] = some (function s.hostCalls []) := by
    rw [HostEnvironment.call, h]
    rfl
  unfold callHost
  rw [FailState.bind_ok (FailState.read_run s), List.mapM_nil,
    FailState.bind_ok (show FailState.lift (pure []) s = (.ok [], s) from rfl), hcall]
  dsimp only
  rw [FailState.bind_ok (FailState.modify_run _ s), hempty]
  cases function [] [] with
  | error error => exact .inr ⟨_, _, rfl, rfl⟩
  | ok value => exact .inl ⟨_, _, rfl⟩

theorem Undispatched.unregistered {name : String} (h : Undispatched m host name) :
    host.functions name = none := by
  cases hfunction : host.functions name with
  | none => rfl
  | some function =>
    obtain ⟨e, herror⟩ := h [] .new
    rw [dispatch, if_neg h.console] at herror
    obtain ⟨value, t, hhost⟩ | ⟨e', t, hhost, hcalls⟩ := callHost_known hfunction .new rfl
    · rw [FailState.bind_ok hhost] at herror
      cases herror
    · rw [FailState.bind_error hhost] at herror
      have ht : t = .new := congrArg Prod.snd herror
      rw [ht] at hcalls
      cases hcalls

theorem Undispatched.unselected {name : String} (h : Undispatched m host name) :
    selected m name = none := by
  cases hselected : selected m name with
  | none => rfl
  | some i =>
    obtain ⟨function, _, _, hfound⟩ := findFunction_of_selected hselected
    obtain ⟨e, herror⟩ := h [] .new
    rw [dispatch, if_neg h.console] at herror
    have hhost : callHost host name [] .new = (.ok none, .new) := by
      unfold callHost
      rw [FailState.bind_ok (FailState.read_run _), List.mapM_nil,
        FailState.bind_ok (show FailState.lift (pure []) _ = (.ok [], _) from rfl),
        HostEnvironment.call, h.unregistered]
      rfl
    rw [FailState.bind_ok hhost, hfound] at herror
    cases herror

end Host

structure Unclaimed {ν : Type} (program : Program) (host : HostEnvironment ν) (name : String) :
    Prop where
  console : name ≠ "console.log"
  host : host.functions name = none
  entry : name ≠ "__entry"
  functions : name ∉ plainNames program

theorem selected_eq_none_iff (program : Program) (name : String) :
    selected (compile (lowerProgram program)) name = none ↔
      name ∉ plainNames program ∧ name ≠ "__entry" := by
  rw [selected, compile_names, List.idxOf?_eq_none_iff, List.mem_append, List.mem_singleton, not_or]

theorem undispatched_iff {ν : Type} (program : Program) (host : HostEnvironment ν)
    (name : String) :
    Undispatched (compile (lowerProgram program)) host name ↔ Unclaimed program host name := by
  constructor
  · intro h
    have hselected := (selected_eq_none_iff program name).mp h.unselected
    exact ⟨h.console, h.unregistered, hselected.2, hselected.1⟩
  · intro h
    exact undispatched_of_unknown h.console h.host
      ((selected_eq_none_iff program name).mpr ⟨h.functions, h.entry⟩)

/-- No call of a parameter or a variable reaches the console, the host or a function
    exactly when none of them has its name. -/
theorem lowerSource_calls_iff (order : IterationOrder) (source : String) {ir : IrProgram}
    (h : (lowerSource order source).ir = some ir) {ν : Type} (host : HostEnvironment ν) :
    (∀ name ∈ shadowedCalls (parseSource source).program, Undispatched (compile ir) host name) ↔
      ∀ name ∈ shadowedCalls (parseSource source).program,
        Unclaimed (parseSource source).program host name := by
  obtain ⟨_, rfl⟩ := lowerSource_ir_iff.mp h
  exact forall₂_congr fun name _ => undispatched_iff _ host name

/-- A parameter is called that has the name of nothing else. -/
theorem parameterSource_calls :
    let source := "function g(callback): number { return callback(1); } console.log(g(2));"
    (∀ name ∈ shadowedCalls (parseSource source).program,
        Undispatched (compile (lowerProgram (parseSource source).program))
          (.new : HostEnvironment Int) name) ↔
      ∀ name ∈ shadowedCalls (parseSource source).program,
        Unclaimed (parseSource source).program (.new : HostEnvironment Int) name :=
  lowerSource_calls_iff .listed _ (lowerSource_ir_iff.mpr ⟨by decide +kernel, rfl⟩) .new

/-- A parameter is called that has the name of a function, and the function is run. -/
theorem shadowedSource_calls :
    let source :=
      "function f(n: number): number { return n; }" ++
      " function g(f): number { return f(1); } console.log(g(2));"
    (lowerSource .listed source).ir = some (lowerProgram (parseSource source).program) ∧
      shadowedCalls (parseSource source).program = ["f"] ∧
      ¬ Undispatched (compile (lowerProgram (parseSource source).program))
        (.new : HostEnvironment Int) "f" := by
  refine ⟨lowerSource_ir_iff.mpr ⟨by decide +kernel, rfl⟩, by decide +kernel, fun h => ?_⟩
  have hfunctions := ((undispatched_iff _ _ _).mp h).functions
  revert hfunctions
  decide +kernel

end Tsvm.ShadowedCalls
