import Tsvm.FieldOrders

set_option autoImplicit false

/-!
# Assignability as a relation between types

`Conforms` says which types may stand where a type is expected: objects may
have more fields than expected, and fields and elements conform in turn. A
function type conforms to no type but `unknown`, not even to itself.
-/
namespace Tsvm.Subtyping
open Ast Parsing Semantic FieldOrders TopLevelFunctions

/-- A type that `require_assignable` takes where another one is expected. -/
inductive Conforms : Ty → Ty → Prop
  | anything (actual : Ty) : Conforms actual .unknown
  | untyped (expected : Ty) : Conforms .unknown expected
  | number : Conforms .number .number
  | string : Conforms .string .string
  | boolean : Conforms .boolean .boolean
  | null : Conforms .null .null
  | undefined : Conforms .undefined .undefined
  | array {actual expected : Ty} (element : Conforms actual expected) :
    Conforms (.array actual) (.array expected)
  | object {actual expected : List (String × Ty)}
    (present : ∀ name ty, expected.lookup name = some ty → (actual.lookup name).isSome)
    (fields : ∀ name ty actualTy, expected.lookup name = some ty →
      actual.lookup name = some actualTy → Conforms actualTy ty) :
    Conforms (.object actual) (.object expected)

/-- A type is there, as it stands, as an element or in a field. What is inside of a function
    type is not looked at. -/
inductive Contains (kind : Ty → Bool) : Ty → Prop
  | here {ty : Ty} (h : kind ty = true) : Contains kind ty
  | element {ty : Ty} (h : Contains kind ty) : Contains kind (.array ty)
  | field {fields : List (String × Ty)} {name : String} {ty : Ty}
    (hname : fields.lookup name = some ty) (h : Contains kind ty) : Contains kind (.object fields)

def isFunction : Ty → Bool
  | .function _ _ _ => true
  | _ => false

section Check

variable (order : IterationOrder) (span : Span) (code : DiagnosticCode)

theorem fieldErrors_nil_iff (expected actual : List (String × Ty)) (n : ℕ) {P : Ty → Ty → Prop}
    (h : ∀ name ty actualTy, expected.lookup name = some ty → actual.lookup name = some actualTy →
      ∀ k, (assignableErrors order span code ty actualTy k).1 = [] ↔ P actualTy ty) :
    (assignableErrors order span code (.object expected) (.object actual) n).1 = [] ↔
      ∀ name ty, expected.lookup name = some ty →
        ∃ actualTy, actual.lookup name = some actualTy ∧ P actualTy ty := by
  have hnames (name : String) : name ∈ order.arrange n (expected.map Prod.fst) ↔
      (expected.lookup name).isSome := by
    rw [(order.perm n (expected.map Prod.fst)).mem_iff, lookup_isSome_iff]
  have hfield {name : String} {ty : Ty} (hty : expected.lookup name = some ty) :
      ((fieldErrors order span code expected actual (n + 1)).1.lookup name).getD [] = [] ↔
        ∃ actualTy, actual.lookup name = some actualTy ∧ P actualTy ty := by
    obtain ⟨k, _, hlookup⟩ := @fieldErrors_lookup span code expected actual (n + 1) name ty hty
    rw [hlookup order]
    cases hactual : actual.lookup name with
    | none => simp
    | some actualTy => simp [h name ty actualTy hty hactual k]
  rw [assignableErrors_object, List.flatMap_eq_nil_iff]
  constructor
  · intro hall name ty hty
    exact (hfield hty).mp (hall name ((hnames name).mpr (by simp [hty])))
  · intro hall name hname
    obtain ⟨ty, hty⟩ := Option.isSome_iff_exists.mp ((hnames name).mp hname)
    exact (hfield hty).mpr (hall name ty hty)

theorem assignableErrors_nil_iff (expected actual : Ty) (n : ℕ) :
    (assignableErrors order span code expected actual n).1 = [] ↔ Conforms actual expected := by
  cases expected with
  | unknown =>
    have hconforms : Conforms actual .unknown := .anything actual
    simp [assignableErrors, hconforms]
  | array expected =>
    cases actual with
    | unknown => simp [assignableErrors, Conforms.untyped]
    | array actual =>
      rw [assignableErrors, assignableErrors_nil_iff expected actual n]
      exact ⟨.array, fun h => by cases h with | array element => exact element⟩
    | _ =>
      simp only [assignableErrors]
      exact ⟨fun h => (by cases h), fun h => (by cases h)⟩
  | object expected =>
    cases actual with
    | unknown => simp [assignableErrors, Conforms.untyped]
    | object actual =>
      have hfields (name : String) (ty actualTy : Ty) (hty : expected.lookup name = some ty)
          (_ : actual.lookup name = some actualTy) (k : ℕ) :
          (assignableErrors order span code ty actualTy k).1 = [] ↔ Conforms actualTy ty := by
        have hlt : sizeOf ty < 1 + sizeOf expected := by simpa using sizeOf_lookup_lt hty
        exact assignableErrors_nil_iff ty actualTy k
      rw [fieldErrors_nil_iff order span code expected actual n hfields]
      constructor
      · intro h
        apply Conforms.object
        · intro name ty hty
          obtain ⟨actualTy, hactual, _⟩ := h name ty hty
          simp [hactual]
        · intro name ty actualTy hty hactual
          obtain ⟨found, hfound, hconforms⟩ := h name ty hty
          have heq : found = actualTy := by
            rw [hactual] at hfound
            exact (Option.some.inj hfound).symm
          exact heq ▸ hconforms
      · intro h name ty hty
        cases h with
        | object present fields =>
          obtain ⟨actualTy, hactual⟩ := Option.isSome_iff_exists.mp (present name ty hty)
          exact ⟨actualTy, hactual, fields name ty actualTy hty hactual⟩
    | _ =>
      simp only [assignableErrors]
      exact ⟨fun h => (by cases h), fun h => (by cases h)⟩
  | function params returnType variadic =>
    cases actual with
    | unknown => simp [assignableErrors, Conforms.untyped]
    | _ =>
      simp only [assignableErrors]
      exact ⟨fun h => (by cases h), fun h => (by cases h)⟩
  | _ =>
    cases actual with
    | unknown => simp [assignableErrors, Conforms.untyped]
    | number | string | boolean | null | undefined =>
      simp only [assignableErrors]
      first
        | exact ⟨fun _ => (by constructor), fun _ => trivial⟩
        | exact ⟨fun h => (by cases h), fun h => (by cases h)⟩
    | _ =>
      simp only [assignableErrors]
      exact ⟨fun h => (by cases h), fun h => (by cases h)⟩
termination_by sizeOf expected

end Check

theorem conforms_self_iff (ty : Ty) : Conforms ty ty ↔ ¬ Contains isFunction ty := by
  cases ty with
  | array element =>
    have ih := conforms_self_iff element
    constructor
    · intro h hcontains
      cases h with
      | array helement =>
        cases hcontains with
        | here hkind => cases hkind
        | element hcontains => exact ih.mp helement hcontains
    · intro h
      exact .array (ih.mpr fun hcontains => h (.element hcontains))
  | object fields =>
    have ih {name : String} {ty : Ty} (hty : fields.lookup name = some ty) :
        Conforms ty ty ↔ ¬ Contains isFunction ty := by
      have hlt : sizeOf ty < 1 + sizeOf fields := by simpa using sizeOf_lookup_lt hty
      exact conforms_self_iff ty
    constructor
    · intro h hcontains
      cases h with
      | object present hfields =>
        cases hcontains with
        | here hkind => cases hkind
        | field hname hcontains => exact (ih hname).mp (hfields _ _ _ hname hname) hcontains
    · intro h
      apply Conforms.object
      · intro name ty hty
        simp [hty]
      · intro name ty actualTy hty hactual
        have heq : ty = actualTy := Option.some.inj (hty.symm.trans hactual)
        rw [← heq]
        exact (ih hty).mpr fun hcontains => h (.field hty hcontains)
  | function params returnType variadic =>
    have hcontains : Contains isFunction (.function params returnType variadic) := .here rfl
    exact ⟨fun h => (by cases h), fun h => absurd hcontains h⟩
  | _ =>
    constructor
    · intro _ hcontains
      cases hcontains with
      | here hkind => cases hkind
    · intro _
      constructor
termination_by sizeOf ty

/-- Conformance goes through every type that has no `unknown` in it. -/
theorem Conforms.trans {lower middle upper : Ty} (hknown : ¬ Contains Ty.isUnknown middle)
    (hlower : Conforms lower middle) (hupper : Conforms middle upper) : Conforms lower upper := by
  induction hlower generalizing upper with
  | anything actual => exact absurd (.here rfl) hknown
  | untyped expected => exact .untyped upper
  | @array actual expected element ih =>
    cases hupper with
    | anything => exact .anything (.array actual)
    | array helement => exact .array (ih (fun h => hknown (.element h)) helement)
  | @object actual expected present fields ih =>
    cases hupper with
    | anything => exact .anything (.object actual)
    | object hpresent hfields =>
      apply Conforms.object
      · intro name ty hty
        obtain ⟨middleTy, hmiddle⟩ := Option.isSome_iff_exists.mp (hpresent name ty hty)
        exact present name middleTy hmiddle
      · intro name ty actualTy hty hactual
        obtain ⟨middleTy, hmiddle⟩ := Option.isSome_iff_exists.mp (hpresent name ty hty)
        exact ih name middleTy actualTy hmiddle hactual
          (fun h => hknown (.field hmiddle h)) (hfields name ty middleTy hty hmiddle)
  | _ => exact hupper

def Assignable (order : IterationOrder) (actual expected : Ty) : Prop :=
  ∀ (span : Span) (code : DiagnosticCode) (s : Analyzer),
    (requireAssignable order expected actual span code s).diagnostics = s.diagnostics

theorem assignable_iff (order : IterationOrder) (actual expected : Ty) :
    Assignable order actual expected ↔ Conforms actual expected := by
  have hcheck (span : Span) (code : DiagnosticCode) (s : Analyzer) :
      (requireAssignable order expected actual span code s).diagnostics = s.diagnostics ↔
        Conforms actual expected := by
    rw [requireAssignable, ← assignableErrors_nil_iff order span code expected actual s.iterations]
    simp
  exact ⟨fun h => (hcheck ⟨⟨0, 0, 0⟩, ⟨0, 0, 0⟩⟩ .typeMismatch .new).mp (h _ _ _),
    fun h span code s => (hcheck span code s).mpr h⟩

/-- A type is assignable to itself exactly when there is no function type in it, and
    assignability goes through every type without an `unknown`. -/
theorem assignable_preorder (order : IterationOrder) :
    (∀ ty, Assignable order ty ty ↔ ¬ Contains isFunction ty) ∧
      ∀ lower middle upper, ¬ Contains Ty.isUnknown middle →
        Assignable order lower middle → Assignable order middle upper →
          Assignable order lower upper := by
  simp only [assignable_iff]
  exact ⟨conforms_self_iff, fun _ _ _ => Conforms.trans⟩

/-- `{ x: number, y: number }` may stand where a `{}` is expected, since it may stand where a
    `{ x: number }` is. -/
theorem assignable_preorder_points :
    Assignable .listed (.object [("x", .number), ("y", .number)]) (.object []) := by
  apply (assignable_preorder .listed).2 _ (.object [("x", .number)])
  · intro hcontains
    cases hcontains with
    | here hkind => cases hkind
    | @field _ name ty hname hunknown =>
      rw [List.lookup_cons, List.lookup_nil] at hname
      split at hname
      · cases hname
        cases hunknown with
        | here hkind => cases hkind
      · cases hname
  · rw [assignable_iff]
    apply Conforms.object
    · intro name ty hty
      rw [List.lookup_cons, List.lookup_nil] at hty
      split at hty
      · simp_all
      · cases hty
    · intro name ty actualTy hty hactual
      rw [List.lookup_cons, List.lookup_nil] at hty
      split at hty
      · rename_i hname
        rw [List.lookup_cons, hname] at hactual
        cases hty
        cases hactual
        exact .number
      · cases hty
  · rw [assignable_iff]
    apply Conforms.object
    · intro name ty hty
      cases hty
    · intro name ty actualTy hty
      cases hty

/-- `function f(): number { return 1; } f = f;` reports that the type of `f` does not match
    itself. -/
theorem function_not_assignable :
    ¬ Assignable .listed (.function [] .number false) (.function [] .number false) ∧
      (analyzeSource .listed "function f(): number { return 1; } f = f;").diagnostics.map
        (fun diagnostic => (diagnostic.code, diagnostic.message)) =
        [(.typeMismatch, "type mismatch")] := by
  constructor
  · intro h
    rw [assignable_iff] at h
    cases h
  · decide +kernel

end Tsvm.Subtyping
