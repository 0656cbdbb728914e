import Tsvm.SourceMeaning

set_option autoImplicit false

/-!
# Names and slots

The environment of a call and the locals of its frame agree on the names that the
check has seen stored. As long as an expression reads no other name, its evaluation
is the run with the slots.
-/
namespace Tsvm.EnvironmentRuns
open Ast Bytecode Interop Lowering Compilation RuntimeValues Interpreter
open LoweredChecks CompiledOperands CompiledSlots FunctionSlots ExpressionRuns SourceChecks
  SourceMeaning

section

variable {known known' : List String}

theorem checkInstruction_cases {instruction : Ir.IrInstruction}
    (h : checkInstruction instruction known = some known') :
    known' = known ∨
      ∃ name value, instruction.kind = .storeLocal name value ∧ known' = name :: known := by
  obtain ⟨kind, result, ty, span⟩ := instruction
  cases kind with
  | loadLocal name =>
    by_cases hname : name ∈ known
    · have hsame : some known = some known' := (if_pos hname).symm.trans h
      exact .inl (Option.some.inj hsame).symm
    · have hnone : none = some known' := (if_neg hname).symm.trans h
      cases hnone
  | storeLocal name value => exact .inr ⟨name, value, rfl, (Option.some.inj h).symm⟩
  | binary op left right =>
    by_cases hunknown : ty.isUnknown = true
    · have hnone : none = some known' := (if_pos hunknown).symm.trans h
      cases hnone
    · have hsame : some known = some known' := (if_neg hunknown).symm.trans h
      exact .inl (Option.some.inj hsame).symm
  | _ => exact .inl (Option.some.inj h).symm

theorem checkCode_subset {code : List Ir.IrInstruction} {known : List String}
    (h : checkCode code known = some known') : known ⊆ known' := by
  induction code generalizing known with
  | nil =>
    cases h
    exact List.Subset.refl _
  | cons instruction code ih =>
    obtain ⟨between, hfirst, hrest⟩ := Option.bind_eq_some_iff.mp h
    have hsubset : known ⊆ between := by
      rcases checkInstruction_cases hfirst with rfl | ⟨name, _, _, rfl⟩
      · exact List.Subset.refl _
      · exact List.subset_cons_self name known
    exact List.Subset.trans hsubset (ih hrest)

theorem checkCode_stores {code : List Ir.IrInstruction} {known : List String}
    (h : checkCode code known = some known') {name : String} (hname : name ∈ known') :
    name ∈ known ∨ ∃ instruction ∈ code, ∃ value, instruction.kind = .storeLocal name value := by
  induction code generalizing known with
  | nil =>
    cases h
    exact .inl hname
  | cons instruction code ih =>
    obtain ⟨between, hfirst, hrest⟩ := Option.bind_eq_some_iff.mp h
    rcases ih hrest with hbetween | ⟨stored, hmem, hkind⟩
    · rcases checkInstruction_cases hfirst with rfl | ⟨stored, value, hkind, rfl⟩
      · exact .inl hbetween
      · rcases List.mem_cons.mp hbetween with rfl | hold
        · exact .inr ⟨instruction, List.mem_cons_self, value, hkind⟩
        · exact .inl hold
    · exact .inr ⟨stored, List.mem_cons_of_mem _ hmem, hkind⟩

theorem checkExpression_subset {types : List (String × Ir.IrType)} {expression : Expression}
    (h : checkExpression types expression known = some known') : known ⊆ known' := by
  rw [← checkCode_expressionCode types expression 0] at h
  exact checkCode_subset h

theorem checkExpressions_subset {types : List (String × Ir.IrType)} {expressions : List Expression}
    (h : checkExpressions types expressions known = some known') : known ⊆ known' := by
  rw [← checkCode_expressionsCode types expressions 0] at h
  exact checkCode_subset h

theorem checkProperties_subset {types : List (String × Ir.IrType)}
    {properties : List ObjectProperty}
    (h : checkProperties types properties known = some known') : known ⊆ known' := by
  rw [← checkCode_propertiesCode types properties 0] at h
  exact checkCode_subset h

end

variable {ν : Type}

/-- Each of the names has a slot with its value. -/
def Corresponds (final : LocalSlots) (known : List String) (env : Environment ν)
    (locals : Locals ν) : Prop :=
  ∀ name ∈ known, ∃ slot value, final.ids.lookup name = some slot ∧
    env.lookup name = some value ∧ locals[slot.toNat]? = some value

def Slotted (final : LocalSlots) (known : List String) : Prop :=
  ∀ name ∈ known, final.ids.lookup name ≠ none

section

variable {final : LocalSlots} {params known known' : List String} {env : Environment ν}
  {locals : Locals ν}

theorem Corresponds.mono (h : Corresponds final known' env locals) (hsubset : known ⊆ known') :
    Corresponds final known env locals :=
  fun name hname => h name (hsubset hname)

theorem Slotted.mono (h : Slotted final known') (hsubset : known ⊆ known') :
    Slotted final known :=
  fun name hname => h name (hsubset hname)

theorem Corresponds.slotted (h : Corresponds final known env locals) : Slotted final known := by
  intro name hname hnone
  obtain ⟨slot, _, hslot, _⟩ := h name hname
  rw [hnone] at hslot
  cases hslot

/-- A name that is stored does not change what is behind another. -/
theorem Corresponds.store (h : Corresponds final known env locals)
    (hslots : SlotsFor params 0 final) {name : String} (hname : final.ids.lookup name ≠ none)
    (value : RuntimeValue ν) :
    Corresponds final (name :: known) ((name, value) :: env)
      (storeSlot locals (slotOf final name) value) := by
  obtain ⟨slot, hslot⟩ := Option.ne_none_iff_exists'.mp hname
  rw [slotOf_lookup hslot]
  intro other hother
  by_cases hsame : other = name
  · rw [hsame]
    exact ⟨slot, value, hslot, List.lookup_cons_self, Frame.storeLocal_self _ slot value⟩
  · obtain ⟨slot', found, hslot', hfound, hlocal⟩ :=
      h other ((List.mem_cons.mp hother).resolve_left hsame)
    have hne : slot' ≠ slot := by
      rintro rfl
      exact hsame (hslots.unique other name slot' hslot' hslot)
    refine ⟨slot', found, hslot', ?_, Frame.storeLocal_ne hne value hlocal⟩
    rw [List.lookup_cons, beq_false_of_ne hsame]
    exact hfound

theorem Corresponds.read (h : Corresponds final known env locals) {name : String}
    (hname : name ∈ known) : ∃ value, readVariable name env = .ok value ∧
      loadSlot locals (slotOf final name) = .ok value := by
  obtain ⟨slot, value, hslot, hfound, hlocal⟩ := h name hname
  refine ⟨value, ?_, ?_⟩
  · rw [readVariable, hfound]
  · rw [slotOf_lookup hslot, loadSlot, Frame.loadLocal, hlocal]

end

/-- `d'` ends as `d` does, and where `d` ends with an environment `d'` ends with locals
    that agree with it on the `known` names. -/
def Mirrors (final : LocalSlots) (known : List String) {α : Type} (d : Run ν (α × Environment ν))
    (d' : Run ν (α × Locals ν)) : Prop :=
  ∀ s, FailState.wp d s
    (fun r t => ∃ locals, d' s = (.ok (r.1, locals), t) ∧ Corresponds final known r.2 locals)
    (fun e t => d' s = (.error e, t))

namespace Mirrors

variable {final : LocalSlots} {known known' : List String} {env : Environment ν}
  {locals : Locals ν} {α β : Type}

theorem pure (h : Corresponds final known env locals) (a : α) :
    Mirrors final known (Pure.pure (a, env)) (Pure.pure (a, locals)) :=
  fun _ => ⟨locals, rfl, h⟩

theorem bind {d : Run ν (α × Environment ν)} {d' : Run ν (α × Locals ν)}
    {f : α × Environment ν → Run ν (β × Environment ν)} {f' : α × Locals ν → Run ν (β × Locals ν)}
    (hd : Mirrors final known d d') (hf : ∀ a env locals, Corresponds final known env locals →
      Mirrors final known' (f (a, env)) (f' (a, locals))) :
    Mirrors final known' (d >>= f) (d' >>= f') := by
  intro s
  rw [FailState.wp_bind]
  refine FailState.wp_mono (hd s) ?_ ?_
  · rintro ⟨a, env⟩ t ⟨locals, hrun, hcorresponds⟩
    refine FailState.wp_mono (hf a env locals hcorresponds t) ?_ ?_
    · rintro r u ⟨locals', hrest, hafter⟩
      exact ⟨locals', (FailState.bind_ok hrun).trans hrest, hafter⟩
    · intro e u hrest
      exact (FailState.bind_ok hrun).trans hrest
  · intro e t hrun
    exact FailState.bind_error hrun

theorem step (d : Run ν α) {f : α → Run ν (β × Environment ν)} {f' : α → Run ν (β × Locals ν)}
    (hf : ∀ a, Mirrors final known (f a) (f' a)) : Mirrors final known (d >>= f) (d >>= f') := by
  intro s
  rw [FailState.wp_bind]
  unfold FailState.wp
  cases hd : d s with
  | mk r t =>
    cases r with
    | ok a =>
      refine FailState.wp_mono (hf a t) ?_ ?_
      · rintro r u ⟨locals, hrest, hafter⟩
        exact ⟨locals, (FailState.bind_ok hd).trans hrest, hafter⟩
      · intro e u hrest
        exact (FailState.bind_ok hd).trans hrest
    | error e => exact FailState.bind_error hd

end Mirrors

section

variable [F64 ν] {final : LocalSlots} {params : List String} {call : Call ν}

theorem evaluateConstant_mirrors {known : List String} (constant : Constant)
    {env : Environment ν} {locals : Locals ν} (h : Corresponds final known env locals) :
    Mirrors final known (evaluateConstant constant env) (constantRun constant locals) :=
  .step _ fun value => .pure h value

variable (types : List (String × Ir.IrType))

mutual

/-- Where the check accepts an expression, its evaluation is its run. -/
theorem evaluate_mirrors (hslots : SlotsFor params 0 final) (expression : Expression)
    {known known' : List String} (hcheck : checkExpression types expression known = some known')
    (hslotted : Slotted final known') {env : Environment ν} {locals : Locals ν}
    (h : Corresponds final known env locals) :
    Mirrors final known' (evaluate call expression env)
      (runExpression (slotOf final) call expression locals) := by
  cases expression with
  | identifier name span =>
    by_cases hname : name ∈ known
    · have hsame : some known = some known' := (if_pos hname).symm.trans hcheck
      cases hsame
      obtain ⟨value, hread, hload⟩ := h.read hname
      rw [evaluate, runExpression, hread, hload]
      exact .step _ fun value => .pure h value
    · have hnone : none = some known' := (if_neg hname).symm.trans hcheck
      cases hnone
  | number | string | boolean | null | undefined | error =>
    cases hcheck
    exact evaluateConstant_mirrors _ h
  | unary operator argument span => exact evaluate_mirrors hslots argument hcheck hslotted h
  | object properties span =>
    refine (evaluateProperties_mirrors hslots properties hcheck hslotted h).bind ?_
    intro fields env locals hafter
    exact .step _ fun handle => .pure hafter _
  | array elements span =>
    refine (evaluateAll_mirrors hslots elements hcheck hslotted h).bind ?_
    intro values env locals hafter
    exact .step _ fun handle => .pure hafter _
  | member object property span =>
    refine (evaluate_mirrors hslots object hcheck hslotted h).bind ?_
    intro value env locals hafter
    exact .step _ fun loaded => .pure hafter loaded
  | call callee arguments span =>
    refine (evaluateAll_mirrors hslots arguments hcheck hslotted h).bind ?_
    intro values env locals hafter
    exact .step _ fun value => .pure hafter value
  | binary left operator right span =>
    obtain ⟨between, hleft, hrest⟩ := Option.bind_eq_some_iff.mp hcheck
    obtain ⟨last, hright, hlast⟩ := Option.bind_eq_some_iff.mp hrest
    obtain rfl : last = known' := by
      by_cases hnullish : operator = .nullishCoalesce
      · rw [if_pos hnullish] at hlast
        cases hlast
      · rw [if_neg hnullish] at hlast
        exact Option.some.inj hlast
    refine (evaluate_mirrors hslots left hleft
      (hslotted.mono (checkExpression_subset hright)) h).bind ?_
    intro first env locals hafter
    refine (evaluate_mirrors hslots right hright hslotted hafter).bind ?_
    intro second env locals hafter
    exact .step _ fun value => .pure hafter value
  | assignment left operator right span =>
    cases left with
    | identifier name leftSpan =>
      obtain ⟨last, hright, hlast⟩ := Option.bind_eq_some_iff.mp hcheck
      cases hlast
      refine (evaluate_mirrors hslots right hright
        (hslotted.mono (List.subset_cons_self name last)) h).bind ?_
      intro value env locals hafter
      exact .pure (hafter.store hslots (hslotted name List.mem_cons_self) value) value
    | member object property leftSpan =>
      obtain ⟨between, hobject, hrest⟩ := Option.bind_eq_some_iff.mp hcheck
      obtain ⟨last, hright, hlast⟩ := Option.bind_eq_some_iff.mp hrest
      obtain rfl : last = known' := by
        by_cases hunknown : operator ≠ .assign ∧ (expressionType types right).isUnknown = true
        · rw [if_pos hunknown] at hlast
          cases hlast
        · rw [if_neg hunknown] at hlast
          exact Option.some.inj hlast
      refine (evaluate_mirrors hslots object hobject
        (hslotted.mono (checkExpression_subset hright)) h).bind ?_
      intro first env locals hafter
      refine (evaluate_mirrors hslots right hright hslotted hafter).bind ?_
      intro second env locals hafter
      exact .step _ fun stored => .pure hafter stored
    | _ => exact evaluate_mirrors hslots right hcheck hslotted h

theorem evaluateAll_mirrors (hslots : SlotsFor params 0 final) (expressions : List Expression)
    {known known' : List String} (hcheck : checkExpressions types expressions known = some known')
    (hslotted : Slotted final known') {env : Environment ν} {locals : Locals ν}
    (h : Corresponds final known env locals) :
    Mirrors final known' (evaluateAll call expressions env)
      (runExpressions (slotOf final) call expressions locals) := by
  match expressions with
  | [] =>
    cases hcheck
    exact .pure h []
  | expression :: expressions =>
    obtain ⟨between, hfirst, hrest⟩ := Option.bind_eq_some_iff.mp hcheck
    refine (evaluate_mirrors hslots expression hfirst
      (hslotted.mono (checkExpressions_subset hrest)) h).bind ?_
    intro first env locals hafter
    refine (evaluateAll_mirrors hslots expressions hrest hslotted hafter).bind ?_
    intro rest env locals hafter
    exact .pure hafter _

theorem evaluateProperties_mirrors (hslots : SlotsFor params 0 final)
    (properties : List ObjectProperty) {known known' : List String}
    (hcheck : checkProperties types properties known = some known')
    (hslotted : Slotted final known') {env : Environment ν} {locals : Locals ν}
    (h : Corresponds final known env locals) :
    Mirrors final known' (evaluateProperties call properties env)
      (runProperties (slotOf final) call properties locals) := by
  match properties with
  | [] =>
    cases hcheck
    exact .pure h []
  | .mk name value span :: properties =>
    obtain ⟨between, hfirst, hrest⟩ := Option.bind_eq_some_iff.mp hcheck
    refine (evaluate_mirrors hslots value hfirst
      (hslotted.mono (checkProperties_subset hrest)) h).bind ?_
    intro first env locals hafter
    refine (evaluateProperties_mirrors hslots properties hrest hslotted hafter).bind ?_
    intro rest env locals hafter
    exact .pure hafter _

end

end

end Tsvm.EnvironmentRuns
