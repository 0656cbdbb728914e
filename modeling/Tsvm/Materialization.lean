import Mathlib.Data.Finset.Card
import Tsvm.HandleIntegrity

set_option autoImplicit false

/-!
# The recursion of materialize

The source has no bound on the recursion, the model has one level for each slot.
This is enough for a recursion that ends: on the way down a slot does not come
twice, since the second visit would need as much room as the first.
-/
namespace Tsvm.Materialization
open Heap RuntimeValues HandleIntegrity

variable {ν : Type}

/-- The recursion of `materialize` on the value ends, whatever room it is given. -/
def Terminates (heap : Store ν) (value : RuntimeValue ν) : Prop :=
  ∃ depth, materializeWithin heap depth value ≠ .error .stackOverflow

theorem bind_overflow {α β : Type} {x : Except Stop α} {f : α → Except Stop β}
    (h : (x >>= f) ≠ .error .stackOverflow) : x ≠ .error .stackOverflow := by
  rintro rfl
  exact h rfl

theorem mapM_agree {α β : Type} {f g : α → Except Stop β} {xs : List α}
    (h : xs.mapM f ≠ .error .stackOverflow)
    (hsame : ∀ x ∈ xs, f x ≠ .error .stackOverflow → g x = f x) : xs.mapM g = xs.mapM f := by
  induction xs with
  | nil => rfl
  | cons x xs ih =>
    obtain ⟨hfirst, hrest⟩ := List.forall_mem_cons.mp hsame
    rw [List.mapM_cons] at h
    rw [List.mapM_cons, List.mapM_cons, hfirst (bind_overflow h)]
    cases hx : f x with
    | error e => rfl
    | ok y =>
      rw [hx] at h
      rw [ih (bind_overflow h) hrest]

section Depth

variable {heap : Store ν} {depth : ℕ} {handle : HeapHandle}

def materializeField (heap : Store ν) (depth : ℕ) (field : String × RuntimeValue ν) :
    Except Stop (String × Value ν) := do
  let value ← materializeWithin heap depth field.2
  pure (field.1, value)

theorem materializeWithin_object {fields : Std.TreeMap String (RuntimeValue ν)}
    (hget : heap.get handle = some (.object fields)) :
    materializeWithin heap (depth + 1) (.object handle) =
      fields.toList.mapM (materializeField heap depth) >>= fun fields => pure (.object fields) := by
  rw [materializeWithin, hget]
  rfl

theorem materializeWithin_array {values : List (RuntimeValue ν)}
    (hget : heap.get handle = some (.array values)) :
    materializeWithin heap (depth + 1) (.array handle) =
      values.mapM (materializeWithin heap depth) >>= fun values => pure (.array values) := by
  rw [materializeWithin, hget]

end Depth

theorem materializeWithin_more {heap : Store ν} {depth : ℕ} {value : RuntimeValue ν}
    (h : materializeWithin heap depth value ≠ .error .stackOverflow) :
    materializeWithin heap (depth + 1) value = materializeWithin heap depth value := by
  induction depth generalizing value with
  | zero => cases value <;> first | rfl | exact absurd rfl h
  | succ depth ih =>
    cases value with
    | object handle =>
      by_cases hget : ∃ fields, heap.get handle = some (.object fields)
      · obtain ⟨fields, hget⟩ := hget
        rw [materializeWithin_object hget] at h ⊢
        rw [materializeWithin_object hget, mapM_agree (bind_overflow h)]
        intro field _ hfield
        rw [materializeField, ih (bind_overflow hfield)]
        rfl
      · rw [materializeWithin, materializeWithin]
        split <;> first | rfl | exact absurd ⟨_, ‹_›⟩ hget
    | array handle =>
      by_cases hget : ∃ values, heap.get handle = some (.array values)
      · obtain ⟨values, hget⟩ := hget
        rw [materializeWithin_array hget] at h ⊢
        rw [materializeWithin_array hget, mapM_agree (bind_overflow h)]
        exact fun value _ hvalue => ih hvalue
      · rw [materializeWithin, materializeWithin]
        split <;> first | rfl | exact absurd ⟨_, ‹_›⟩ hget
    | _ => rfl

theorem materializeWithin_le {heap : Store ν} {depth more : ℕ} (hle : depth ≤ more)
    {value : RuntimeValue ν} (h : materializeWithin heap depth value ≠ .error .stackOverflow) :
    materializeWithin heap more value = materializeWithin heap depth value := by
  induction hle with
  | refl => rfl
  | step _ ih => rw [materializeWithin_more (by rw [ih]; exact h), ih]

theorem materializeWithin_agree {heap : Store ν} {depth depth' : ℕ} {value : RuntimeValue ν}
    (h : materializeWithin heap depth value ≠ .error .stackOverflow)
    (h' : materializeWithin heap depth' value ≠ .error .stackOverflow) :
    materializeWithin heap depth value = materializeWithin heap depth' value := by
  rcases Nat.le_total depth depth' with hle | hle
  · exact (materializeWithin_le hle h).symm
  · exact materializeWithin_le hle h'

theorem reference_unique {heap : Store ν} {value other : RuntimeValue ν}
    (hvalue : Resolves heap value) (hother : Resolves heap other) {handle handle' : HeapHandle}
    (hhandle : handle ∈ value.handles) (hhandle' : handle' ∈ other.handles)
    (hsame : handle'.index.toNat = handle.index.toNat) : other = value := by
  have hgeneration {handle : HeapHandle} {found : HeapValue ν} (h : heap.get handle = some found) :
      heap.generationAt handle.index.toNat = handle.generation ∧
        heap.valueAt handle.index.toNat = some found := by
    refine ⟨?_, GcHeap.get_valueAt h⟩
    rw [GcHeap.get_eq] at h
    split at h
    · assumption
    · cases h
  have hhandles {found found' : HeapValue ν} (h : heap.get handle = some found)
      (h' : heap.get handle' = some found') : handle' = handle ∧ found' = found := by
    obtain ⟨hg, hv⟩ := hgeneration h
    obtain ⟨hg', hv'⟩ := hgeneration h'
    rw [hsame, hg] at hg'
    rw [hsame, hv, Option.some.injEq] at hv'
    obtain ⟨index, generation⟩ := handle
    obtain ⟨index', generation'⟩ := handle'
    have hindex : index' = index := UInt32.toNat_inj.mp hsame
    exact ⟨by rw [hindex, show generation' = generation from hg'.symm], hv'.symm⟩
  cases value with
  | object first =>
    obtain ⟨fields, hget⟩ := hvalue
    cases List.mem_singleton.mp hhandle
    cases other with
    | object second =>
      obtain ⟨fields', hget'⟩ := hother
      cases List.mem_singleton.mp hhandle'
      rw [(hhandles hget hget').1]
    | array second =>
      obtain ⟨values', hget'⟩ := hother
      cases List.mem_singleton.mp hhandle'
      cases (hhandles hget hget').2
    | _ => cases hhandle'
  | array first =>
    obtain ⟨values, hget⟩ := hvalue
    cases List.mem_singleton.mp hhandle
    cases other with
    | array second =>
      obtain ⟨values', hget'⟩ := hother
      cases List.mem_singleton.mp hhandle'
      rw [(hhandles hget hget').1]
    | object second =>
      obtain ⟨fields', hget'⟩ := hother
      cases List.mem_singleton.mp hhandle'
      cases (hhandles hget hget').2
    | _ => cases hhandle'
  | _ => cases hhandle

/-- The references to the slots in `above` need more than `depth`. -/
structure Deeper (heap : Store ν) (above : Finset ℕ) (depth : ℕ) : Prop where
  slots : above ⊆ Finset.range heap.slots.length
  overflow : ∀ other, Resolves heap other → ∀ handle ∈ other.handles,
    handle.index.toNat ∈ above → materializeWithin heap depth other = .error .stackOverflow

theorem Deeper.enter {heap : Store ν} {above : Finset ℕ} {depth : ℕ} (h : Deeper heap above depth)
    {value : RuntimeValue ν} {handle : HeapHandle} (hresolves : Resolves heap value)
    (hhandle : handle ∈ value.handles)
    (hends : materializeWithin heap depth value ≠ .error .stackOverflow) :
    ∃ less, materializeWithin heap (less + 1) value ≠ .error .stackOverflow ∧
      (insert handle.index.toNat above).card = above.card + 1 ∧
      Deeper heap (insert handle.index.toNat above) less := by
  classical
  have hexists : ∃ depth, materializeWithin heap depth value ≠ .error .stackOverflow :=
    ⟨depth, hends⟩
  have hle : Nat.find hexists ≤ depth := Nat.find_min' hexists hends
  have hspec := Nat.find_spec hexists
  cases hfind : Nat.find hexists with
  | zero =>
    rw [hfind] at hspec
    cases value with
    | object _ => exact absurd rfl hspec
    | array _ => exact absurd rfl hspec
    | _ => cases hhandle
  | succ less =>
    rw [hfind] at hspec hle
    have hoverflow : materializeWithin heap less value = .error .stackOverflow :=
      not_not.mp (Nat.find_min hexists (show less < Nat.find hexists by omega))
    obtain ⟨found, hget⟩ := Option.isSome_iff_exists.mp (hresolves.get hhandle)
    have hlt := GcHeap.valueAt_lt (GcHeap.get_valueAt hget)
    refine ⟨less, hspec, Finset.card_insert_of_notMem fun hmem => ?_, ?_, ?_⟩
    · exact hends (h.overflow value hresolves handle hhandle hmem)
    · exact Finset.insert_subset (Finset.mem_range.mpr hlt) h.slots
    · intro other hother handle' hhandle' hmem
      rcases Finset.mem_insert.mp hmem with hsame | hmem
      · rw [reference_unique hresolves hother hhandle hhandle' hsame]
        exact hoverflow
      · by_contra hne
        have hmore := materializeWithin_le (show less ≤ depth by omega) hne
        rw [h.overflow other hother handle' hhandle' hmem] at hmore
        exact hne hmore.symm

theorem materializeWithin_room {heap : Store ν} {above : Finset ℕ} {depth room : ℕ}
    {value : RuntimeValue ν} (h : Deeper heap above depth)
    (hends : materializeWithin heap depth value ≠ .error .stackOverflow)
    (hroom : heap.slots.length < room + above.card) :
    materializeWithin heap room value ≠ .error .stackOverflow := by
  induction room generalizing above depth value with
  | zero =>
    have hle := Finset.card_le_card h.slots
    rw [Finset.card_range] at hle
    omega
  | succ room ih =>
    cases value with
    | object handle =>
      by_cases hget : ∃ fields, heap.get handle = some (.object fields)
      · have hresolves : Resolves heap (.object handle) := hget
        obtain ⟨less, hless, hcard, hdeeper⟩ := h.enter hresolves (List.mem_singleton_self handle) hends
        obtain ⟨fields, hget⟩ := hget
        rw [materializeWithin_object hget] at hless ⊢
        rw [mapM_agree (bind_overflow hless)]
        · exact hless
        · intro field _ hfield
          have hinner := bind_overflow hfield
          rw [materializeField, materializeField,
            materializeWithin_agree (ih hdeeper hinner (by omega)) hinner]
      · rw [materializeWithin]
        split
        · exact absurd ⟨_, ‹_›⟩ hget
        · exact fun h => by cases h
    | array handle =>
      by_cases hget : ∃ values, heap.get handle = some (.array values)
      · have hresolves : Resolves heap (.array handle) := hget
        obtain ⟨less, hless, hcard, hdeeper⟩ := h.enter hresolves (List.mem_singleton_self handle) hends
        obtain ⟨values, hget⟩ := hget
        rw [materializeWithin_array hget] at hless ⊢
        rw [mapM_agree (bind_overflow hless)]
        · exact hless
        · exact fun inner _ hinner =>
            materializeWithin_agree (ih hdeeper hinner (by omega)) hinner
      · rw [materializeWithin]
        split
        · exact absurd ⟨_, ‹_›⟩ hget
        · exact fun h => by cases h
    | _ => exact fun h => by cases h

/-- `materialize` gives up exactly where the recursion has no end. -/
theorem materialize_overflow_iff (heap : Store ν) (value : RuntimeValue ν) :
    materialize heap value = .error .stackOverflow ↔ ¬ Terminates heap value := by
  constructor
  · rintro h ⟨depth, hends⟩
    have hnone : Deeper heap ∅ depth := ⟨Finset.empty_subset _, nofun⟩
    refine materializeWithin_room hnone hends ?_ h
    rw [Finset.card_empty]
    exact Nat.lt_succ_self _
  · intro h
    by_contra hne
    exact h ⟨_, hne⟩

end Tsvm.Materialization
