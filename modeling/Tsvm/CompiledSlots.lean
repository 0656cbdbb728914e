import Tsvm.CompiledOperands

set_option autoImplicit false

/-!
# The local slots of a function

The parameters have the first slots. Every other name gets the next free slot when
the compiler comes to it for the first time, and keeps it.
-/
namespace Tsvm.CompiledSlots
open Bytecode Ir Compilation LoweringCode CompiledOperands

/-- Slots of a function with these parameters, when there is room for `n` more. -/
structure SlotsFor (params : List String) (n : ℕ) (slots : LocalSlots) : Prop where
  count : params.length ≤ slots.next.toNat
  room : slots.next.toNat + n < 2 ^ 32
  below : ∀ name id, slots.ids.lookup name = some id → id.toNat < slots.next.toNat
  parameter : ∀ name id, slots.ids.lookup name = some id →
    (id.toNat < params.length ↔ name ∈ params)
  found : ∀ name ∈ params, slots.ids.lookup name ≠ none
  unique : ∀ name name' id, slots.ids.lookup name = some id → slots.ids.lookup name' = some id →
    name = name'

def Knows (known : List String) (slots : LocalSlots) : Prop :=
  ∀ name, name ∈ known ↔ slots.ids.lookup name ≠ none

theorem localId_of_lookup {name : String} {slots : LocalSlots} {id : UInt32}
    (h : slots.ids.lookup name = some id) : localId name slots = (id, slots) := by
  rw [localId, h]

theorem localId_fresh {name : String} {slots : LocalSlots} (h : slots.ids.lookup name = none) :
    localId name slots = (slots.next, ⟨(name, slots.next) :: slots.ids, slots.next + 1⟩) := by
  rw [localId, h]

theorem localId_lookup (name : String) (slots : LocalSlots) :
    (localId name slots).2.ids.lookup name = some (slotOf slots name) := by
  cases h : slots.ids.lookup name with
  | some id => rw [slotOf, localId_of_lookup h, h]
  | none =>
    rw [slotOf, localId_fresh h]
    exact List.lookup_cons_self

theorem localId_lookup_ne {name name' : String} (hne : name' ≠ name) (slots : LocalSlots) :
    (localId name slots).2.ids.lookup name' = slots.ids.lookup name' := by
  cases h : slots.ids.lookup name with
  | some id => rw [localId_of_lookup h]
  | none =>
    rw [localId_fresh h, List.lookup_cons, beq_false_of_ne hne]

theorem Knows.localId {known : List String} {slots : LocalSlots} (h : Knows known slots)
    (name : String) : Knows (name :: known) (Compilation.localId name slots).2 := by
  intro name'
  by_cases hname : name' = name
  · rw [hname, localId_lookup]
    exact ⟨fun _ => nofun, fun _ => List.mem_cons_self⟩
  · rw [localId_lookup_ne hname, ← h name', List.mem_cons]
    exact ⟨fun hmem => hmem.resolve_left hname, .inr⟩

/-- A name with a slot changes nothing. -/
theorem Knows.localId_eq {known : List String} {slots : LocalSlots} (h : Knows known slots)
    {name : String} (hname : name ∈ known) : (Compilation.localId name slots).2 = slots := by
  obtain ⟨id, hid⟩ := Option.ne_none_iff_exists'.mp ((h name).mp hname)
  rw [localId_of_lookup hid]

theorem toNat_succ {next : UInt32} {n : ℕ} (h : next.toNat + (n + 1) < 2 ^ 32) :
    (next + 1).toNat = next.toNat + 1 := by
  rw [UInt32.toNat_add]
  exact Nat.mod_eq_of_lt (by change next.toNat + 1 < 2 ^ 32; omega)

section

variable {params : List String} {n : ℕ} {slots : LocalSlots}

theorem SlotsFor.mono (h : SlotsFor params n slots) {k : ℕ} (hle : k ≤ n) :
    SlotsFor params k slots := by
  have hroom := h.room
  exact ⟨h.count, by omega, h.below, h.parameter, h.found, h.unique⟩

theorem SlotsFor.localId (h : SlotsFor params (n + 1) slots) (name : String) :
    SlotsFor params n (Compilation.localId name slots).2 := by
  cases hlookup : slots.ids.lookup name with
  | some id =>
    rw [localId_of_lookup hlookup]
    exact h.mono (Nat.le_succ n)
  | none =>
    have hcount := h.count
    have hroom := h.room
    have hnext := toNat_succ hroom
    have hname : name ∉ params := fun hmem => h.found name hmem hlookup
    have hnew (name' : String) (id : UInt32)
        (hid : (Compilation.localId name slots).2.ids.lookup name' = some id) :
        name' = name ∧ id = slots.next ∨ name' ≠ name ∧ slots.ids.lookup name' = some id := by
      by_cases hsame : name' = name
      · rw [hsame, localId_lookup, slotOf, localId_fresh hlookup] at hid
        cases hid
        exact .inl ⟨hsame, rfl⟩
      · rw [localId_lookup_ne hsame] at hid
        exact .inr ⟨hsame, hid⟩
    have hslots : (Compilation.localId name slots).2.next.toNat = slots.next.toNat + 1 := by
      rw [localId_fresh hlookup]
      exact hnext
    refine ⟨by omega, by omega, ?_, ?_, ?_, ?_⟩
    · intro name' id hid
      rcases hnew name' id hid with ⟨_, rfl⟩ | ⟨_, hold⟩
      · omega
      · have hbelow := h.below name' id hold
        omega
    · intro name' id hid
      rcases hnew name' id hid with ⟨rfl, rfl⟩ | ⟨_, hold⟩
      · exact ⟨fun hlt => absurd hlt (by omega), fun hmem => absurd hmem hname⟩
      · exact h.parameter name' id hold
    · intro name' hmem
      have hne : name' ≠ name := fun hsame => hname (hsame ▸ hmem)
      rw [localId_lookup_ne hne]
      exact h.found name' hmem
    · intro first second id hfirst hsecond
      rcases hnew first id hfirst with ⟨rfl, rfl⟩ | ⟨_, hfirst⟩
      · rcases hnew second _ hsecond with ⟨rfl, _⟩ | ⟨_, hsecond⟩
        · rfl
        · exact absurd (h.below second _ hsecond) (Nat.lt_irrefl _)
      · rcases hnew second id hsecond with ⟨_, rfl⟩ | ⟨_, hsecond⟩
        · exact absurd (h.below first _ hfirst) (Nat.lt_irrefl _)
        · exact h.unique first second id hfirst hsecond

theorem SlotsFor.slotsAfter (h : SlotsFor params (n + 1) slots) (kind : IrInstructionKind) :
    SlotsFor params n (CompiledOperands.slotsAfter kind slots) := by
  cases kind with
  | loadLocal name => exact h.localId name
  | storeLocal name value => exact h.localId name
  | _ => exact h.mono (Nat.le_succ n)

theorem SlotsFor.slotOf_lt_iff (h : SlotsFor params n slots) (name : String) :
    (slotOf slots name).toNat < params.length ↔ name ∈ params := by
  cases hlookup : slots.ids.lookup name with
  | some id =>
    rw [slotOf, localId_of_lookup hlookup]
    exact h.parameter name id hlookup
  | none =>
    have hcount := h.count
    rw [slotOf, localId_fresh hlookup]
    exact ⟨fun hlt => absurd hcount (Nat.not_le_of_lt hlt),
      fun hmem => absurd hlookup (h.found name hmem)⟩

theorem SlotsFor.slotOf_lt_next_iff (h : SlotsFor params n slots) {known : List String}
    (hknown : Knows known slots) (name : String) :
    (slotOf slots name).toNat < slots.next.toNat ↔ name ∈ known := by
  rw [hknown name]
  cases hlookup : slots.ids.lookup name with
  | some id =>
    rw [slotOf, localId_of_lookup hlookup]
    exact ⟨fun _ => nofun, fun _ => h.below name id hlookup⟩
  | none =>
    rw [slotOf, localId_fresh hlookup]
    exact ⟨fun hlt => absurd hlt (Nat.lt_irrefl _), fun hne => absurd rfl hne⟩

/-- Unless the name is known, it gets the next slot. -/
theorem Knows.localId_next {known : List String} (h : Knows known slots) {name : String}
    (hname : name ∉ known) :
    slotOf slots name = slots.next ∧ (Compilation.localId name slots).2.next = slots.next + 1 := by
  have hlookup : slots.ids.lookup name = none := by
    by_contra hfound
    exact hname ((h name).mpr hfound)
  rw [slotOf, localId_fresh hlookup]
  exact ⟨rfl, rfl⟩

end

theorem mem_parameterSlots {params : List IrParam} {name : String} {id : UInt32} :
    (name, id) ∈ (parameterSlots params).ids ↔
      ∃ i, (params.map IrParam.name)[i]? = some name ∧ id = .ofNat i := by
  rw [parameterSlots, List.mem_reverse, List.mem_map]
  constructor
  · rintro ⟨⟨param, i⟩, hmem, heq⟩
    cases heq
    rw [List.mem_zipIdx_iff_getElem?] at hmem
    exact ⟨i, by rw [List.getElem?_map, hmem]; rfl, rfl⟩
  · rintro ⟨i, hi, rfl⟩
    rw [List.getElem?_map, Option.map_eq_some_iff] at hi
    obtain ⟨param, hparam, rfl⟩ := hi
    exact ⟨(param, i), List.mem_zipIdx_iff_getElem?.mpr hparam, rfl⟩

theorem parameterSlots_lookup {params : List IrParam} {name : String} {id : UInt32}
    (h : (parameterSlots params).ids.lookup name = some id) :
    ∃ i, (params.map IrParam.name)[i]? = some name ∧ id = .ofNat i := by
  obtain ⟨before, after, hids, _⟩ := List.lookup_eq_some_iff.mp h
  refine mem_parameterSlots.mp ?_
  rw [hids]
  exact List.mem_append_right _ List.mem_cons_self

theorem parameterSlots_knows (params : List IrParam) :
    Knows (params.map IrParam.name) (parameterSlots params) := by
  intro name
  constructor
  · intro hmem hnone
    obtain ⟨i, hi⟩ := List.getElem?_of_mem hmem
    have hentry := List.lookup_eq_none_iff.mp hnone _ (mem_parameterSlots.mpr ⟨i, hi, rfl⟩)
    exact bne_iff_ne.mp hentry rfl
  · intro hfound
    obtain ⟨id, hid⟩ := Option.ne_none_iff_exists'.mp hfound
    obtain ⟨i, hi, _⟩ := parameterSlots_lookup hid
    exact List.mem_of_getElem? hi

theorem parameterSlots_slotsFor (params : List IrParam) {n : ℕ} (h : params.length + n < 2 ^ 32) :
    SlotsFor (params.map IrParam.name) n (parameterSlots params) := by
  have hlength : (params.map IrParam.name).length = params.length := List.length_map _
  have hnext : (parameterSlots params).next.toNat = params.length :=
    UInt32.toNat_ofNat_of_lt' (by change params.length < 2 ^ 32; omega)
  have hlookup (name : String) (id : UInt32)
      (hid : (parameterSlots params).ids.lookup name = some id) :
      id.toNat < params.length ∧ (params.map IrParam.name)[id.toNat]? = some name := by
    obtain ⟨i, hi, rfl⟩ := parameterSlots_lookup hid
    have hlt := (List.getElem?_eq_some_iff.mp hi).1
    rw [UInt32.toNat_ofNat_of_lt' (by change i < 2 ^ 32; omega)]
    exact ⟨by omega, hi⟩
  refine ⟨by omega, by omega, ?_, ?_, ?_, ?_⟩
  · intro name id hid
    rw [hnext]
    exact (hlookup name id hid).1
  · intro name id hid
    rw [hlength]
    exact ⟨fun _ => List.mem_of_getElem? (hlookup name id hid).2, fun _ => (hlookup name id hid).1⟩
  · exact fun name hmem => (parameterSlots_knows params name).mp hmem
  · intro first second id hfirst hsecond
    exact Option.some.inj ((hlookup first id hfirst).2.symm.trans (hlookup second id hsecond).2)

end Tsvm.CompiledSlots
