import Tsvm.HandleIntegrity
import Tsvm.Ir

set_option autoImplicit false

/-!
# Typings of a heap

A typing says by which object types the objects of a run are known. It does not depend
on the heap, so values keep their types, and a heap conforms when the members of each
object have the types that its own types give them.
-/
namespace Tsvm.StoreTypings
open Heap Interop Ir RuntimeValues RunInvariants HandleIntegrity

variable {ν : Type}

mutual

def same : IrType → IrType → Bool
  | .number, .number | .string, .string | .boolean, .boolean | .null, .null
  | .undefined, .undefined | .unknown, .unknown => true
  | .object fields, .object fields' => sameFields fields fields'
  | .array element, .array element' => same element element'
  | .named name, .named name' => name == name'
  | _, _ => false

def sameFields : List (String × IrType) → List (String × IrType) → Bool
  | [], [] => true
  | (name, ty) :: fields, (name', ty') :: fields' =>
    name == name' && same ty ty' && sameFields fields fields'
  | _, _ => false

end

mutual

theorem same_iff : ∀ ty ty' : IrType, same ty ty' = true ↔ ty = ty'
  | .object fields, ty' => by
    cases ty' <;> simp [same, sameFields_iff fields]
  | .array element, ty' => by
    cases ty' <;> simp [same, same_iff element]
  | .number, ty' | .string, ty' | .boolean, ty' | .null, ty' | .undefined, ty' | .named _, ty'
  | .unknown, ty' => by
    cases ty' <;> simp [same]

theorem sameFields_iff : ∀ fields fields' : List (String × IrType),
    sameFields fields fields' = true ↔ fields = fields'
  | [], fields' => by
    cases fields' <;> simp [sameFields]
  | (name, ty) :: fields, fields' => by
    cases fields' <;> simp [sameFields, same_iff ty, sameFields_iff fields, Prod.ext_iff]

end

instance : DecidableEq IrType := fun ty ty' => decidable_of_iff _ (same_iff ty ty')

instance : LawfulBEq (List (String × IrType)) := inferInstance

abbrev Typing := HeapHandle → List (List (String × IrType))

def hasType (typing : Typing) (ty : IrType) (value : RuntimeValue ν) : Bool :=
  match ty, value with
  | .number, .number _ | .string, .string _ | .boolean, .boolean _ => true
  | .number, _ | .string, _ | .boolean, _ => false
  | .object fields, .object handle => fields ∈ typing handle
  | .object _, _ => false
  | .null, _ | .undefined, _ | .array _, _ | .named _, _ | .unknown, _ => true

abbrev HasType (typing : Typing) (ty : IrType) (value : RuntimeValue ν) : Prop :=
  hasType typing ty value = true

def memberValue (object : Std.TreeMap String (RuntimeValue ν)) (name : String) : RuntimeValue ν :=
  object[name]?.getD .undefined

/-- The members have their types. -/
def MembersHaveTypes (typing : Typing) (fields : List (String × IrType))
    (object : Std.TreeMap String (RuntimeValue ν)) : Prop :=
  ∀ name ty, fields.lookup name = some ty → HasType typing ty (memberValue object name)

instance (typing : Typing) (fields : List (String × IrType))
    (object : Std.TreeMap String (RuntimeValue ν)) :
    Decidable (MembersHaveTypes typing fields object) :=
  decidable_of_iff (∀ name ∈ fields.map Prod.fst, ∀ ty ∈ fields.lookup name,
      HasType typing ty (memberValue object name))
    ⟨fun h name ty hlookup => h name (by
        obtain ⟨before, after, hfields, _⟩ := List.lookup_eq_some_iff.mp hlookup
        rw [hfields, List.map_append]
        exact List.mem_append_right _ List.mem_cons_self) ty hlookup,
      fun h name _ ty hlookup => h name ty hlookup⟩

/-- The members of each object have the types that its own types give them. -/
def Conforms (typing : Typing) (heap : Store ν) : Prop :=
  ∀ handle object fields, heap.get handle = some (.object object) → fields ∈ typing handle →
    MembersHaveTypes typing fields object

section

variable {typing : Typing} {heap : Store ν}

theorem hasType_number {value : RuntimeValue ν} :
    HasType typing .number value ↔ ∃ n, value = .number n := by
  cases value <;> simp [HasType, hasType]

theorem hasType_string {value : RuntimeValue ν} :
    HasType typing .string value ↔ ∃ text, value = .string text := by
  cases value <;> simp [HasType, hasType]

theorem hasType_boolean {value : RuntimeValue ν} :
    HasType typing .boolean value ↔ ∃ b, value = .boolean b := by
  cases value <;> simp [HasType, hasType]

theorem hasType_object {fields : List (String × IrType)} {value : RuntimeValue ν} :
    HasType typing (.object fields) value ↔ ∃ handle, value = .object handle ∧ fields ∈ typing handle := by
  cases value <;> simp [HasType, hasType]

theorem HasType.number {ty : IrType} {n : ν} (h : HasType typing ty (.number n)) (n' : ν) :
    HasType typing ty (.number n') := by
  cases ty <;> first | rfl | exact h

theorem HasType.string {ty : IrType} {text : String}
    (h : HasType typing ty (.string text : RuntimeValue ν)) (text' : String) :
    HasType typing ty (.string text' : RuntimeValue ν) := by
  cases ty <;> first | rfl | exact h

theorem conforms_new (typing : Typing) : Conforms typing (.new : Store ν) := by
  intro handle object fields hget
  cases hget

theorem valueAt_of_allocate {stored found : HeapValue ν} {i : ℕ}
    (h : (heap.allocate stored).2.valueAt i = some found) :
    (heap.nextIndex = i ∧ found = stored) ∨ heap.valueAt i = some found := by
  by_cases hi : i < heap.slots.length
  · unfold GcHeap.valueAt GcHeap.allocate at h
    by_cases hnew : heap.freeList.headD heap.slots.length = heap.slots.length
    · simp only [if_pos hnew] at h
      rw [List.getElem?_append_left hi] at h
      exact .inr h
    · simp only [if_neg hnew] at h
      rw [GcHeap.modify_value] at h
      by_cases hhere : heap.freeList.headD heap.slots.length = i
      · rw [if_pos ⟨hhere, hi⟩] at h
        cases h
        exact .inl ⟨hhere, rfl⟩
      · rw [if_neg fun hboth => hhere hboth.1] at h
        exact .inr h
  · unfold GcHeap.valueAt GcHeap.allocate at h
    by_cases hnew : heap.freeList.headD heap.slots.length = heap.slots.length
    · simp only [if_pos hnew] at h
      rw [List.getElem?_append_right (Nat.le_of_not_lt hi)] at h
      by_cases hlast : heap.slots.length = i
      · rw [hlast, Nat.sub_self] at h
        cases h
        exact .inl ⟨hnew.trans hlast, rfl⟩
      · rw [List.getElem?_eq_none (by rw [List.length_singleton]; omega)] at h
        cases h
    · simp only [if_neg hnew] at h
      rw [GcHeap.modify_value, if_neg fun hboth => hi hboth.2] at h
      exact .inr h

/-- A handle that is found behind an allocation is the new one, or was found before. -/
theorem get_of_allocate {stored found : HeapValue ν} {handle : HeapHandle}
    (h : (heap.allocate stored).2.get handle = some found) :
    (handle = (heap.allocate stored).1 ∧ found = stored) ∨ heap.get handle = some found := by
  rw [GcHeap.get_eq, GcHeap.allocate_generationAt] at h
  by_cases hgeneration : heap.generationAt handle.index.toNat = handle.generation
  · rw [if_pos hgeneration] at h
    rcases valueAt_of_allocate h with ⟨hindex, rfl⟩ | hbefore
    · refine .inl ⟨?_, rfl⟩
      obtain ⟨index, generation⟩ := handle
      rw [GcHeap.allocate_handle, GcHeap.allocate_generationAt, hindex, hgeneration,
        UInt32.ofNat_toNat]
    · rw [GcHeap.get_eq, if_pos hgeneration]
      exact .inr hbefore
  · rw [if_neg hgeneration] at h
    cases h

theorem Conforms.allocate (h : Conforms typing heap) {stored : HeapValue ν}
    (hstored : ∀ object fields, stored = .object object → fields ∈ typing (heap.allocate stored).1 →
      MembersHaveTypes typing fields object) :
    Conforms typing (heap.allocate stored).2 := by
  intro handle object fields hget htyping
  rcases get_of_allocate hget with ⟨rfl, hfound⟩ | hbefore
  · exact hstored object fields hfound.symm htyping
  · exact h handle object fields hbefore htyping

theorem MembersHaveTypes.insert {fields : List (String × IrType)}
    {object : Std.TreeMap String (RuntimeValue ν)} (h : MembersHaveTypes typing fields object)
    {property : String} {value : RuntimeValue ν}
    (hvalue : ∀ ty, fields.lookup property = some ty → HasType typing ty value) :
    MembersHaveTypes typing fields (object.insert property value) := by
  intro name ty hlookup
  rw [memberValue, Std.TreeMap.getElem?_insert]
  by_cases hname : compare property name = .eq
  · rw [if_pos hname]
    obtain rfl : property = name := Std.LawfulEqCmp.eq_of_compare hname
    exact hvalue ty hlookup
  · rw [if_neg hname]
    exact h name ty hlookup

/-- A handle that is found behind a store is the one written to, or finds what it did. -/
theorem get_of_set {handle other : HeapHandle} {before stored found : HeapValue ν}
    (hget : heap.get handle = some before)
    (h : (heap.set handle stored).get other = some found) :
    (other = handle ∧ found = stored) ∨ heap.get other = some found := by
  have hbefore : heap.generationAt other.index.toNat = other.generation := by
    by_contra hne
    rw [GcHeap.get_eq, GcHeap.set_generationAt, if_neg hne] at h
    cases h
  by_cases hindex : handle.index.toNat = other.index.toNat
  · have hother : heap.get other = some before := by
      rw [GcHeap.get_eq, if_pos hbefore, ← hindex]
      exact GcHeap.get_valueAt hget
    have hset := @set_get _ heap handle _ _ stored hother
    rw [if_pos hindex, h] at hset
    have hsame : handle = other :=
      GcHeap.Resolves.unique ⟨by rw [hget]; rfl, hindex⟩ ⟨by rw [hother]; rfl, rfl⟩
    exact .inl ⟨hsame.symm, Option.some.inj hset⟩
  · rw [GcHeap.get_eq, GcHeap.set_generationAt, if_pos hbefore, GcHeap.set_valueAt,
      if_neg fun hboth => hindex hboth.1] at h
    rw [GcHeap.get_eq, if_pos hbefore]
    exact .inr h

/-- A store into a member that has the types of the member. -/
theorem Conforms.set (h : Conforms typing heap) {handle : HeapHandle}
    {object : Std.TreeMap String (RuntimeValue ν)} {property : String} {value : RuntimeValue ν}
    (hget : heap.get handle = some (.object object))
    (hvalue : ∀ fields ty, fields ∈ typing handle → fields.lookup property = some ty →
      HasType typing ty value) :
    Conforms typing (heap.set handle (.object (object.insert property value))) := by
  intro other found fields hother htyping
  rcases get_of_set hget hother with ⟨rfl, hfound⟩ | hbefore
  · cases hfound
    exact (h other object fields hget htyping).insert fun ty => hvalue fields ty htyping
  · exact h other found fields hbefore htyping

theorem arithmetic_ok {op : ν → ν → ν} {left right value : RuntimeValue ν}
    (h : arithmetic op left right = .ok value) :
    ∃ a b, left = .number a ∧ right = .number b ∧ value = .number (op a b) := by
  cases left with
  | number a =>
    cases right with
    | number b =>
      cases h
      exact ⟨a, b, rfl, rfl, rfl⟩
    | _ => cases h
  | _ => cases h

theorem comparison_ok {op : ν → ν → Bool} {left right value : RuntimeValue ν}
    (h : comparison op left right = .ok value) : ∃ b, value = .boolean b := by
  cases left with
  | number a =>
    cases right with
    | number b =>
      cases h
      exact ⟨op a b, rfl⟩
    | _ => cases h
  | _ => cases h

theorem Except.bind_eq_ok {α β : Type} {x : Except Stop α} {f : α → Except Stop β} {b : β} :
    (x >>= f) = .ok b ↔ ∃ a, x = .ok a ∧ f a = .ok b := by
  cases x with
  | error e => exact ⟨nofun, nofun⟩
  | ok a => exact ⟨fun h => ⟨a, rfl, h⟩, fun ⟨_, ha, h⟩ => Except.ok.inj ha ▸ h⟩

def isString : RuntimeValue ν → Bool
  | .string _ => true
  | _ => false

section

variable [F64 ν] {left right value : RuntimeValue ν}

theorem add_cases (h : add heap left right = .ok value) :
    (∃ text, (left = .string text ∨ right = .string text) ∧ ∃ text', value = .string text') ∨
      arithmetic F64.add left right = .ok value := by
  cases left with
  | string text =>
    obtain ⟨shown, _, hvalue⟩ := Except.bind_eq_ok.mp h
    cases hvalue
    exact .inl ⟨text, .inl rfl, _, rfl⟩
  | _ =>
    cases right with
    | string text =>
      obtain ⟨shown, _, hvalue⟩ := Except.bind_eq_ok.mp h
      cases hvalue
      exact .inl ⟨text, .inr rfl, _, rfl⟩
    | _ => exact .inr h

/-- An addition of two values of a type gives one of the type. -/
theorem HasType.add {ty : IrType} (h : RuntimeValues.add heap left right = .ok value)
    (hleft : HasType typing ty left) (hright : HasType typing ty right) :
    HasType typing ty value := by
  rcases add_cases h with ⟨text, hstring, text', rfl⟩ | harithmetic
  · rcases hstring with rfl | rfl
    · exact hleft.string text'
    · exact hright.string text'
  · obtain ⟨a, b, rfl, rfl, rfl⟩ := arithmetic_ok harithmetic
    exact hright.number _

omit [F64 ν] in
theorem HasType.arithmetic {ty : IrType} {op : ν → ν → ν}
    (h : RuntimeValues.arithmetic op left right = .ok value) (hright : HasType typing ty right) :
    HasType typing ty value := by
  obtain ⟨a, b, rfl, rfl, rfl⟩ := arithmetic_ok h
  exact hright.number _

theorem add_number (h : RuntimeValues.add heap left right = .ok value)
    (hleft : isString left = false) (hright : isString right = false) :
    HasType typing .number value := by
  rcases add_cases h with ⟨text, hstring, _⟩ | harithmetic
  · rcases hstring with rfl | rfl
    · cases hleft
    · cases hright
  · obtain ⟨a, b, rfl, rfl, rfl⟩ := arithmetic_ok harithmetic
    rfl

end

end

end Tsvm.StoreTypings
