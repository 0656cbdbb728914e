import Tsvm.HeapOperations

set_option autoImplicit false

/-!
# Stale handles

A run of heap operations keeps the generation of a slot but for one step at each
reclaim, modulo `2 ^ 32`. A stale handle resolves again when the count comes
around and the slot is in use.
-/
namespace Tsvm.StaleHandles
open Heap

variable {τ : Type}

inductive Operation (τ : Type) where
  | allocate (value : τ)
  | write (handle : HeapHandle) (value : τ)
  | collect (roots : List HeapHandle)

section Runs

variable [Trace τ]

def apply (heap : GcHeap τ) : Operation τ → GcHeap τ
  | .allocate value => (heap.allocate value).2
  | .write handle value => ((heap.getMut handle).map fun found => found.2 value).getD heap
  | .collect roots => (heap.collect roots).2

def run (ops : List (Operation τ)) (heap : GcHeap τ) : GcHeap τ := ops.foldl apply heap

def Occupied (heap : GcHeap τ) (index : ℕ) : Prop := (heap.valueAt index).isSome = true

instance (heap : GcHeap τ) (index : ℕ) : Decidable (Occupied heap index) :=
  inferInstanceAs (Decidable (_ = true))

def reclaims (heap : GcHeap τ) : List (Operation τ) → ℕ → ℕ
  | [], _ => 0
  | op :: ops, index =>
    (if Occupied heap index ∧ ¬ Occupied (apply heap op) index then 1 else 0) +
      reclaims (apply heap op) ops index

theorem write_eq (heap : GcHeap τ) (handle : HeapHandle) (value : τ) :
    apply heap (.write handle value) =
      if (heap.get handle).isSome = true then heap.set handle value else heap := by
  cases h : heap.get handle <;> simp [apply, GcHeap.getMut, h]

theorem run_keeps {P : GcHeap τ → Prop}
    (hallocate : ∀ {heap}, P heap → ∀ value, P (heap.allocate value).2)
    (hset : ∀ {heap}, P heap → ∀ handle found, heap.get handle = some found →
      ∀ value, P (heap.set handle value))
    (hcollect : ∀ {heap}, P heap → ∀ roots, P (heap.collect roots).2)
    (ops : List (Operation τ)) {heap : GcHeap τ} (h : P heap) : P (run ops heap) := by
  induction ops generalizing heap with
  | nil => exact h
  | cons op ops ih =>
    refine ih ?_
    cases op with
    | allocate value => exact hallocate h value
    | write handle value =>
      rw [write_eq]
      by_cases hresolves : (heap.get handle).isSome = true
      · rw [if_pos hresolves]
        obtain ⟨found, hfound⟩ := Option.isSome_iff_exists.mp hresolves
        exact hset h handle found hfound value
      · rw [if_neg hresolves]
        exact h
    | collect roots => exact hcollect h roots

theorem occupied_apply {heap : GcHeap τ} {op : Operation τ} {i : ℕ} (h : Occupied heap i)
    (hop : ∀ roots, op ≠ .collect roots) : Occupied (apply heap op) i := by
  cases op with
  | allocate value => exact GcHeap.allocate_valueAt_isSome heap value h
  | write handle value =>
    rw [write_eq]
    split
    · rw [Occupied, GcHeap.set_valueAt]
      split
      · rfl
      · exact h
    · exact h
  | collect roots => exact absurd rfl (hop roots)

theorem apply_generationAt (heap : GcHeap τ) (op : Operation τ) (i : ℕ) :
    (apply heap op).generationAt i = heap.generationAt i +
      .ofNat (if Occupied heap i ∧ ¬ Occupied (apply heap op) i then 1 else 0) := by
  have hkept (hop : ∀ roots, op ≠ .collect roots)
      (hsame : (apply heap op).generationAt i = heap.generationAt i) :
      (apply heap op).generationAt i = heap.generationAt i +
        .ofNat (if Occupied heap i ∧ ¬ Occupied (apply heap op) i then 1 else 0) := by
    rw [if_neg fun h => h.2 (occupied_apply h.1 hop), hsame]
    exact (UInt32.add_zero _).symm
  cases op with
  | allocate value => exact hkept nofun (GcHeap.allocate_generationAt heap value i)
  | write handle value =>
    refine hkept nofun ?_
    rw [write_eq]
    split
    · exact GcHeap.set_generationAt heap handle value i
    · rfl
  | collect roots =>
    have hoccupied : Occupied (apply heap (.collect roots)) i ↔
        Occupied heap i ∧ heap.Marked roots i := by
      rw [Occupied, apply, GcHeap.collect_valueAt]
      by_cases hmarked : heap.Marked roots i <;> simp [Occupied, hmarked]
    rw [apply, GcHeap.collect_generationAt]
    change (if Occupied heap i ∧ ¬ heap.Marked roots i then _ else _) = heap.generationAt i +
      .ofNat (if Occupied heap i ∧ ¬ Occupied (apply heap (.collect roots)) i then 1 else 0)
    by_cases hreclaimed : Occupied heap i ∧ ¬ heap.Marked roots i
    · rw [if_pos hreclaimed, if_pos ⟨hreclaimed.1, fun h => hreclaimed.2 (hoccupied.mp h).2⟩]
      rfl
    · rw [if_neg hreclaimed, if_neg fun h => hreclaimed ⟨h.1, fun hmarked =>
        h.2 (hoccupied.mpr ⟨h.1, hmarked⟩)⟩]
      exact (UInt32.add_zero _).symm

/-- A run: the generation counts the reclaims. -/
theorem run_generationAt (heap : GcHeap τ) (ops : List (Operation τ)) (i : ℕ) :
    (run ops heap).generationAt i = heap.generationAt i + .ofNat (reclaims heap ops i) := by
  induction ops generalizing heap with
  | nil => exact (UInt32.add_zero _).symm
  | cons op ops ih =>
    change (run ops (apply heap op)).generationAt i = _
    rw [ih, apply_generationAt, reclaims, UInt32.ofNat_add, UInt32.add_assoc]

theorem add_ofNat_eq_self_iff (generation : UInt32) (n : ℕ) :
    generation + .ofNat n = generation ↔ 2 ^ 32 ∣ n := by
  have hlt := generation.toNat_lt
  rw [← UInt32.toNat_inj, UInt32.toNat_add, UInt32.toNat_ofNat']
  omega

/-- After a run a handle resolves to what is in its slot, if the number of reclaims
    since its allocation is a multiple of `2 ^ 32`. -/
theorem get_run (heap : GcHeap τ) (value : τ) (hindex : heap.nextIndex < 2 ^ 32)
    (ops : List (Operation τ)) :
    (run ops (heap.allocate value).2).get (heap.allocate value).1 =
      if 2 ^ 32 ∣ reclaims (heap.allocate value).2 ops heap.nextIndex then
        (run ops (heap.allocate value).2).valueAt heap.nextIndex
      else none := by
  have hhandle : (heap.allocate value).1.index.toNat = heap.nextIndex :=
    UInt32.toNat_ofNat_of_lt' hindex
  have hgeneration : (heap.allocate value).1.generation =
      (heap.allocate value).2.generationAt heap.nextIndex := rfl
  rw [GcHeap.get_eq, hhandle, hgeneration, run_generationAt]
  simp only [add_ofNat_eq_self_iff]

/-- No access of the heap finds anything behind the handle. -/
structure FailsClosed (heap : GcHeap τ) (handle : HeapHandle) : Prop where
  get : heap.get handle = none
  getMut : (heap.getMut handle).isNone = true
  contains : heap.contains handle = false

omit [Trace τ] in
theorem failsClosed_iff {heap : GcHeap τ} {handle : HeapHandle} :
    FailsClosed heap handle ↔ heap.get handle = none := by
  refine ⟨FailsClosed.get, fun h => ⟨h, ?_, ?_⟩⟩
  · simp [GcHeap.getMut, h]
  · simp [GcHeap.contains, h]

/-- In every run a handle fails closed from the first reclaim on, exactly when its
    slot is never in use with a multiple of `2 ^ 32` reclaims behind it. -/
theorem staleHandle_failsClosed_iff (before : List (Operation τ)) (value : τ)
    (hindex : (run before .new).nextIndex < 2 ^ 32) (after : List (Operation τ)) :
    let index := (run before .new).nextIndex
    let issued := (run before .new).allocate value
    (∀ ops, ops <+: after → 0 < reclaims issued.2 ops index →
        FailsClosed (run ops issued.2) issued.1) ↔
      ∀ ops, ops <+: after → 0 < reclaims issued.2 ops index →
        ¬ (2 ^ 32 ∣ reclaims issued.2 ops index ∧ Occupied (run ops issued.2) index) := by
  intro index issued
  refine forall₃_congr fun ops _ _ => ?_
  rw [failsClosed_iff, get_run _ value hindex, Occupied]
  change (if 2 ^ 32 ∣ reclaims issued.2 ops index then (run ops issued.2).valueAt index else none) =
    none ↔ ¬ (2 ^ 32 ∣ reclaims issued.2 ops index ∧ ((run ops issued.2).valueAt index).isSome = true)
  by_cases hwrapped : 2 ^ 32 ∣ reclaims issued.2 ops index
  · rw [if_pos hwrapped, and_iff_right hwrapped, Option.not_isSome_iff_eq_none]
  · rw [if_neg hwrapped]
    exact ⟨fun _ h => hwrapped h.1, fun _ => rfl⟩

end Runs

instance : Trace Unit where
  trace _ := []

/-- An object without fields, reclaimed at once. -/
theorem unitHandle_failsClosed_iff :
    let index := (run [] (.new : GcHeap Unit)).nextIndex
    let issued := (run [] (.new : GcHeap Unit)).allocate ()
    (∀ ops, ops <+: [.collect []] → 0 < reclaims issued.2 ops index →
        FailsClosed (run ops issued.2) issued.1) ↔
      ∀ ops, ops <+: [.collect []] → 0 < reclaims issued.2 ops index →
        ¬ (2 ^ 32 ∣ reclaims issued.2 ops index ∧ Occupied (run ops issued.2) index) :=
  staleHandle_failsClosed_iff [] () (by decide) [.collect []]

def reuses (n : ℕ) : List (Operation Unit) :=
  (List.replicate n [.collect [], .allocate ()]).flatten

def singleSlot (generation : UInt32) : GcHeap Unit := ⟨[⟨generation, some ()⟩], [], 1⟩

theorem reuses_succ (n : ℕ) : reuses (n + 1) = .collect [] :: .allocate () :: reuses n := by
  rw [reuses, List.replicate_succ, List.flatten_cons]
  rfl

theorem run_reuses (n : ℕ) (generation : UInt32) :
    run (reuses n) (singleSlot generation) = singleSlot (generation + .ofNat n) ∧
      reclaims (singleSlot generation) (reuses n) 0 = n := by
  induction n generalizing generation with
  | zero => exact ⟨congrArg singleSlot (UInt32.add_zero _).symm, rfl⟩
  | succ n ih =>
    have hstep : apply (apply (singleSlot generation) (.collect [])) (.allocate ()) =
        singleSlot (generation + 1) := rfl
    obtain ⟨hrun, hcount⟩ := ih (generation + 1)
    rw [reuses_succ]
    constructor
    · change run (reuses n)
        (apply (apply (singleSlot generation) (.collect [])) (.allocate ())) = _
      rw [hstep, hrun, UInt32.add_assoc, Nat.add_comm n 1, UInt32.ofNat_add]
      rfl
    · change 1 + (0 + reclaims
        (apply (apply (singleSlot generation) (.collect [])) (.allocate ())) (reuses n) 0) = n + 1
      rw [hstep, hcount]
      omega

/-- After `2 ^ 32` reclaims the first handle resolves to the object that is there
    now, although it was stale after the first. -/
theorem staleHandle_resolves :
    let issued := (GcHeap.new : GcHeap Unit).allocate ()
    FailsClosed (run [.collect []] issued.2) issued.1 ∧
      0 < reclaims issued.2 (reuses (2 ^ 32)) 0 ∧
      (run (reuses (2 ^ 32)) issued.2).get issued.1 = some () := by
  obtain ⟨hrun, hcount⟩ := run_reuses (2 ^ 32) 0
  have hwrap : (0 : UInt32) + .ofNat (2 ^ 32) = 0 := (add_ofNat_eq_self_iff 0 _).mpr (Nat.dvd_refl _)
  rw [hwrap] at hrun
  refine ⟨⟨rfl, rfl, rfl⟩, ?_, ?_⟩
  · exact Nat.lt_of_lt_of_eq (Nat.two_pow_pos 32) hcount.symm
  · exact congrArg (fun heap => GcHeap.get heap ⟨0, 0⟩) hrun

end Tsvm.StaleHandles
