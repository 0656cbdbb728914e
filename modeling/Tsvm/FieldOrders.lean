import Tsvm.SemanticOrders
import Tsvm.TopLevelFunctions

set_option autoImplicit false

/-!
# Checks that do not depend on the order of the fields

A check of an object type goes through the expected fields in an order of the
hash map. `Steady` says which checks report the same in every order: any two
fields commute, that is, what they report reads the same either way round.
-/
namespace Tsvm.FieldOrders
open Ast Parsing Semantic SemanticOrders TopLevelFunctions

section Lists

variable {α β : Type} {f g : α → List β}

theorem flatMap_perm {xs ys : List α} (hperm : xs.Perm ys)
    (hcommute : ∀ a ∈ xs, ∀ b ∈ xs, f a ++ f b = f b ++ f a) : xs.flatMap f = ys.flatMap f := by
  induction hperm with
  | nil => rfl
  | @cons a xs ys hperm ih =>
    rw [List.flatMap_cons, List.flatMap_cons, ih fun b hb c hc =>
      hcommute b (List.mem_cons_of_mem a hb) c (List.mem_cons_of_mem a hc)]
  | swap a b xs =>
    have hswap := hcommute b List.mem_cons_self a (List.mem_cons_of_mem b List.mem_cons_self)
    rw [List.flatMap_cons, List.flatMap_cons, List.flatMap_cons, List.flatMap_cons,
      ← List.append_assoc, hswap, List.append_assoc]
  | trans hfirst _ ih ih' =>
    rw [ih hcommute]
    exact ih' fun a ha b hb => hcommute a (hfirst.mem_iff.mpr ha) b (hfirst.mem_iff.mpr hb)

theorem flatMap_parts {xs : List α} (hlength : ∀ a ∈ xs, (f a).length = (g a).length)
    (h : xs.flatMap f = xs.flatMap g) : ∀ a ∈ xs, f a = g a := by
  induction xs with
  | nil => exact nofun
  | cons x xs ih =>
    rw [List.flatMap_cons, List.flatMap_cons] at h
    obtain ⟨hx, hrest⟩ := List.append_inj h (hlength x List.mem_cons_self)
    intro a ha
    cases ha with
    | head => exact hx
    | tail _ ha => exact ih (fun b hb => hlength b (List.mem_cons_of_mem x hb)) hrest a ha

theorem perm_front [DecidableEq α] {xs : List α} {a b : α} (ha : a ∈ xs) (hb : b ∈ xs)
    (hne : a ≠ b) : xs.Perm (a :: b :: (xs.erase a).erase b) :=
  (List.perm_cons_erase ha).trans
    ((List.perm_cons_erase ((List.mem_erase_of_ne hne.symm).mpr hb)).cons a)

end Lists

section Check

variable (span : Span) (code : DiagnosticCode)

/-- What a check reports when it goes through the fields as they are listed. -/
def reports (expected actual : Ty) : List SemanticDiagnostic :=
  (assignableErrors .listed span code expected actual 0).1

def fieldReports (name : String) (expected : Ty) : Option Ty → List SemanticDiagnostic
  | some actual => reports span code expected actual
  | none => [⟨.missingProperty, s!"missing property `{name}`", span⟩]

def namedReports (expected actual : List (String × Ty)) (name : String) :
    List SemanticDiagnostic :=
  match expected.lookup name with
  | some ty => fieldReports span code name ty (actual.lookup name)
  | none => []

/-- The check reports the same in every order of the fields. -/
inductive Steady : Ty → Ty → Prop
  | array {expected actual : Ty} (element : Steady expected actual) :
    Steady (.array expected) (.array actual)
  | object {expected actual : List (String × Ty)}
    (fields : ∀ name ty actualTy, expected.lookup name = some ty →
      actual.lookup name = some actualTy → Steady ty actualTy)
    (commute : ∀ first ∈ expected.map Prod.fst, ∀ second ∈ expected.map Prod.fst,
      namedReports span code expected actual first ++ namedReports span code expected actual second =
        namedReports span code expected actual second ++
          namedReports span code expected actual first) :
    Steady (.object expected) (.object actual)
  | plain {expected actual : Ty}
    (arrays : ∀ e a, expected = .array e → actual ≠ .array a)
    (objects : ∀ e a, expected = .object e → actual ≠ .object a) : Steady expected actual

variable {span code}

theorem assignableErrors_plain (order : IterationOrder) {expected actual : Ty}
    (arrays : ∀ e a, expected = .array e → actual ≠ .array a)
    (objects : ∀ e a, expected = .object e → actual ≠ .object a) (n : ℕ) :
    assignableErrors order span code expected actual n = (reports span code expected actual, n) := by
  cases expected with
  | array expected =>
    cases actual with
    | array actual => exact absurd rfl (arrays expected actual rfl)
    | _ => rfl
  | object expected =>
    cases actual with
    | object actual => exact absurd rfl (objects expected actual rfl)
    | _ => rfl
  | _ =>
    cases actual with
    | _ => rfl

mutual

theorem assignableErrors_le (order : IterationOrder) (expected actual : Ty) (n : ℕ) :
    n ≤ (assignableErrors order span code expected actual n).2 := by
  cases expected with
  | array expected =>
    cases actual with
    | array actual =>
      rw [assignableErrors]
      exact assignableErrors_le order expected actual n
    | _ => exact Nat.le_refl n
  | object expected =>
    cases actual with
    | object actual =>
      rw [assignableErrors]
      exact Nat.le_trans (Nat.le_succ n) (fieldErrors_le order expected actual (n + 1))
    | _ => exact Nat.le_refl n
  | _ =>
    cases actual with
    | _ => exact Nat.le_refl n

theorem fieldErrors_le (order : IterationOrder) (fields actuals : List (String × Ty)) (n : ℕ) :
    n ≤ (fieldErrors order span code fields actuals n).2 := by
  match fields with
  | [] => exact Nat.le_refl n
  | (name, expected) :: fields =>
    rw [fieldErrors]
    cases actuals.lookup name with
    | none => exact fieldErrors_le order fields actuals n
    | some actual =>
      exact Nat.le_trans (assignableErrors_le order expected actual n)
        (fieldErrors_le order fields actuals _)

end

mutual

theorem assignableErrors_congr {order order' : IterationOrder} (expected actual : Ty) {n : ℕ}
    (h : ∀ k, n ≤ k → order.arrange k = order'.arrange k) :
    assignableErrors order span code expected actual n =
      assignableErrors order' span code expected actual n := by
  cases expected with
  | array expected =>
    cases actual with
    | array actual =>
      rw [assignableErrors, assignableErrors]
      exact assignableErrors_congr expected actual h
    | _ => rfl
  | object expected =>
    cases actual with
    | object actual =>
      have hfields := fieldErrors_congr expected actual fun k hk => h k (Nat.le_of_succ_le hk)
      rw [assignableErrors, assignableErrors, hfields, h n (Nat.le_refl n)]
    | _ => rfl
  | _ =>
    cases actual with
    | _ => rfl

theorem fieldErrors_congr {order order' : IterationOrder} (fields actuals : List (String × Ty))
    {n : ℕ} (h : ∀ k, n ≤ k → order.arrange k = order'.arrange k) :
    fieldErrors order span code fields actuals n =
      fieldErrors order' span code fields actuals n := by
  match fields with
  | [] => rfl
  | (name, expected) :: fields =>
    rw [fieldErrors, fieldErrors]
    cases actuals.lookup name with
    | none =>
      have hrest := fieldErrors_congr fields actuals h
      dsimp only
      rw [hrest]
    | some actual =>
      have hfield := assignableErrors_congr expected actual h
      have hle := @assignableErrors_le span code order' expected actual n
      have hrest := fieldErrors_congr fields actuals fun k hk => h k (Nat.le_trans hle hk)
      dsimp only
      rw [hfield, hrest]

end

theorem fieldErrors_lookup (fields actuals : List (String × Ty)) (n : ℕ) {name : String} {ty : Ty}
    (h : fields.lookup name = some ty) : ∃ k, n ≤ k ∧ ∀ order : IterationOrder,
      ((fieldErrors order span code fields actuals n).1.lookup name).getD [] =
        match actuals.lookup name with
        | some actual => (assignableErrors order span code ty actual k).1
        | none => [⟨.missingProperty, s!"missing property `{name}`", span⟩] := by
  induction fields generalizing n with
  | nil => cases h
  | cons field fields ih =>
    obtain ⟨key, expected⟩ := field
    rw [List.lookup_cons] at h
    by_cases hkey : name = key
    · subst hkey
      rw [beq_self_eq_true] at h
      cases h
      refine ⟨n, Nat.le_refl n, fun order => ?_⟩
      rw [fieldErrors]
      cases actuals.lookup name with
      | none =>
        dsimp only
        rw [List.lookup_cons, beq_self_eq_true]
        rfl
      | some actual =>
        dsimp only
        rw [List.lookup_cons, beq_self_eq_true]
        rfl
    · rw [beq_false_of_ne hkey] at h
      cases hactual : actuals.lookup key with
      | none =>
        obtain ⟨k, hk, hlookup⟩ := ih n h
        refine ⟨k, hk, fun order => ?_⟩
        rw [fieldErrors, hactual]
        dsimp only
        rw [List.lookup_cons, beq_false_of_ne hkey]
        exact hlookup order
      | some actual =>
        obtain ⟨k, hk, hlookup⟩ := ih (assignableErrors .listed span code expected actual n).2 h
        refine ⟨k, Nat.le_trans (assignableErrors_le .listed expected actual n) hk,
          fun order => ?_⟩
        rw [fieldErrors, hactual]
        dsimp only
        rw [List.lookup_cons, beq_false_of_ne hkey,
          (assignableErrors_perm order .listed span code expected actual n).2]
        exact hlookup order

theorem mem_names {fields : List (String × Ty)} {name : String}
    (h : name ∈ fields.map Prod.fst) : ∃ ty, fields.lookup name = some ty :=
  Option.isSome_iff_exists.mp ((lookup_isSome_iff fields name).mpr h)

theorem assignableErrors_object (order : IterationOrder) (expected actual : List (String × Ty))
    (n : ℕ) :
    (assignableErrors order span code (.object expected) (.object actual) n).1 =
      (order.arrange n (expected.map Prod.fst)).flatMap fun name =>
        ((fieldErrors order span code expected actual (n + 1)).1.lookup name).getD [] := by
  rw [assignableErrors]

/-- Once the fields report the same in every order, a loop reports what they report in its
    own order. -/
theorem fieldErrors_named {expected actual : List (String × Ty)}
    (h : ∀ name ty actualTy, expected.lookup name = some ty → actual.lookup name = some actualTy →
      ∀ (order : IterationOrder) (n : ℕ),
        (assignableErrors order span code ty actualTy n).1 = reports span code ty actualTy)
    (order : IterationOrder) (n : ℕ) {name : String} (hname : name ∈ expected.map Prod.fst) :
    ((fieldErrors order span code expected actual n).1.lookup name).getD [] =
      namedReports span code expected actual name := by
  obtain ⟨ty, hty⟩ := mem_names hname
  obtain ⟨k, _, hlookup⟩ := @fieldErrors_lookup span code expected actual n name ty hty
  rw [hlookup order, namedReports, hty]
  cases hactual : actual.lookup name with
  | none => rfl
  | some actualTy => exact h name ty actualTy hty hactual order k

theorem Steady.reports {expected actual : Ty} (h : Steady span code expected actual)
    (order : IterationOrder) (n : ℕ) :
    (assignableErrors order span code expected actual n).1 = reports span code expected actual := by
  induction h generalizing order n with
  | array _ ih =>
    rw [assignableErrors]
    exact ih order n
  | @object expected actual fields commute ih =>
    have hnamed (order : IterationOrder) (n : ℕ) :
        (assignableErrors order span code (.object expected) (.object actual) n).1 =
          (expected.map Prod.fst).flatMap (namedReports span code expected actual) := by
      have hperm := order.perm n (expected.map Prod.fst)
      rw [assignableErrors_object, flatMap_perm hperm.symm commute]
      exact List.flatMap_congr fun name hname =>
        fieldErrors_named ih order (n + 1) (hperm.mem_iff.mp hname)
    exact (hnamed order n).trans (hnamed .listed 0).symm
  | plain arrays objects => rw [assignableErrors_plain order arrays objects n]

def IterationOrder.starting (order : IterationOrder) (n : ℕ) (names : List String)
    (first : List String) (h : first.Perm names) : IterationOrder where
  arrange k keys := if k = n then if keys = names then first else keys else order.arrange k keys
  perm k keys := by
    split
    · split
      · rename_i hkeys
        rw [hkeys]
        exact h
      · exact .refl _
    · exact order.perm k keys

theorem starting_later (order : IterationOrder) {n : ℕ} {names first : List String}
    (h : first.Perm names) {k : ℕ} (hk : n + 1 ≤ k) :
    (IterationOrder.starting order n names first h).arrange k = order.arrange k := by
  funext keys
  exact if_neg (by omega)

theorem starting_first (order : IterationOrder) {n : ℕ} {names first : List String}
    (h : first.Perm names) :
    (IterationOrder.starting order n names first h).arrange n names = first := by
  change (if n = n then if names = names then first else names else _) = first
  rw [if_pos rfl, if_pos rfl]

theorem assignableErrors_starting (order : IterationOrder) (expected actual : List (String × Ty))
    (n : ℕ) {first : List String} (h : first.Perm (expected.map Prod.fst)) :
    (assignableErrors (IterationOrder.starting order n (expected.map Prod.fst) first h) span code
        (.object expected) (.object actual) n).1 =
      first.flatMap fun name =>
        ((fieldErrors order span code expected actual (n + 1)).1.lookup name).getD [] := by
  rw [assignableErrors_object, starting_first,
    fieldErrors_congr expected actual fun k hk => starting_later order h hk]

theorem field_equal {expected actual : List (String × Ty)} {n : ℕ}
    (h : ∀ order order' : IterationOrder,
      (assignableErrors order span code (.object expected) (.object actual) n).1 =
        (assignableErrors order' span code (.object expected) (.object actual) n).1)
    {name : String} {ty actualTy : Ty} (hty : expected.lookup name = some ty)
    (hactual : actual.lookup name = some actualTy) :
    ∃ k, ∀ order order' : IterationOrder, (assignableErrors order span code ty actualTy k).1 =
      (assignableErrors order' span code ty actualTy k).1 := by
  obtain ⟨k, _, hlookup⟩ :=
    @fieldErrors_lookup span code expected actual (n + 1) name ty hty
  refine ⟨k, fun order order' => ?_⟩
  have hname : name ∈ expected.map Prod.fst :=
    (lookup_isSome_iff expected name).mp (by rw [hty]; rfl)
  have hrefl := List.Perm.refl (expected.map Prod.fst)
  have hsame := h (IterationOrder.starting order n _ _ hrefl)
    (IterationOrder.starting order' n _ _ hrefl)
  rw [assignableErrors_starting, assignableErrors_starting] at hsame
  have hfield := flatMap_parts (fun name _ => (lookup_perm
    (fieldErrors_perm order order' span code expected actual (n + 1)).1 name).length_eq) hsame
    name hname
  rw [hlookup order, hlookup order', hactual] at hfield
  exact hfield

theorem commute_of_equal {expected actual : List (String × Ty)} {n : ℕ}
    (h : ∀ order order' : IterationOrder,
      (assignableErrors order span code (.object expected) (.object actual) n).1 =
        (assignableErrors order' span code (.object expected) (.object actual) n).1)
    (hfields : ∀ name ∈ expected.map Prod.fst,
      ((fieldErrors .listed span code expected actual (n + 1)).1.lookup name).getD [] =
        namedReports span code expected actual name)
    {first second : String} (hfirst : first ∈ expected.map Prod.fst)
    (hsecond : second ∈ expected.map Prod.fst) :
    namedReports span code expected actual first ++ namedReports span code expected actual second =
      namedReports span code expected actual second ++
        namedReports span code expected actual first := by
  by_cases hne : first = second
  · rw [hne]
  · have hfront := perm_front hfirst hsecond hne
    have hsame := h (IterationOrder.starting .listed n _ _ hfront.symm)
      (IterationOrder.starting .listed n _ _ ((List.Perm.swap _ _ _).trans hfront.symm))
    rw [assignableErrors_starting, assignableErrors_starting] at hsame
    simp only [List.flatMap_cons, ← List.append_assoc] at hsame
    have hpair := List.append_cancel_right hsame
    rw [hfields first hfirst, hfields second hsecond] at hpair
    exact hpair

theorem sizeOf_lookup_lt {fields : List (String × Ty)} {name : String} {ty : Ty}
    (h : fields.lookup name = some ty) : sizeOf ty < sizeOf (Ty.object fields) := by
  induction fields with
  | nil => cases h
  | cons field fields ih =>
    obtain ⟨key, value⟩ := field
    rw [List.lookup_cons] at h
    by_cases hkey : name = key
    · rw [hkey, beq_self_eq_true] at h
      cases h
      simp only [Ty.object.sizeOf_spec, List.cons.sizeOf_spec, Prod.mk.sizeOf_spec]
      omega
    · rw [beq_false_of_ne hkey] at h
      have hlt := ih h
      simp only [Ty.object.sizeOf_spec, List.cons.sizeOf_spec] at hlt ⊢
      omega

/-- A check that reports the same in every order is steady. -/
theorem steady_of_equal (expected actual : Ty) {n : ℕ}
    (h : ∀ order order' : IterationOrder, (assignableErrors order span code expected actual n).1 =
      (assignableErrors order' span code expected actual n).1) :
    Steady span code expected actual := by
  cases expected with
  | array expected =>
    cases actual with
    | array actual =>
      simp only [assignableErrors] at h
      exact .array (steady_of_equal expected actual h)
    | _ => exact .plain (fun _ _ _ => nofun) nofun
  | object expected =>
    cases actual with
    | object actual =>
      have hfields (name : String) (ty actualTy : Ty) (hty : expected.lookup name = some ty)
          (hactual : actual.lookup name = some actualTy) : Steady span code ty actualTy := by
        have hlt := sizeOf_lookup_lt hty
        obtain ⟨k, hequal⟩ := field_equal h hty hactual
        exact steady_of_equal ty actualTy hequal
      refine .object hfields fun first hfirst second hsecond =>
        commute_of_equal h (fun name hname => ?_) hfirst hsecond
      exact fieldErrors_named (fun name ty actualTy hty hactual => (hfields name ty actualTy hty
        hactual).reports) .listed (n + 1) hname
    | _ => exact .plain nofun (fun _ _ _ => nofun)
  | _ => exact .plain nofun nofun
termination_by sizeOf expected

end Check

end Tsvm.FieldOrders
