import Mathlib
import Tsvm.Interning

set_option autoImplicit false

/-!
# The order of interning

A table has its entries in the order in which they came for the first time, and the
index of an entry is its position. Nothing here depends on how many entries there are:
where the index of an entry wraps, it is the position that is truncated.
-/
namespace Interning.Pool

variable {α : Type}

/-- The entries with their truncated positions, the last entry first. -/
def indices (entries : List α) : List (α × UInt32) :=
  (entries.zipIdx.map fun entry => (entry.1, UInt32.ofNat entry.2)).reverse

theorem indices_concat (entries : List α) (entry : α) :
    indices (entries ++ [entry]) = (entry, .ofNat entries.length) :: indices entries := by
  rw [indices, List.zipIdx_append, List.map_append, List.reverse_append]
  simp [indices]

/-- Every entry is there once, with its position. -/
structure Indexed (pool : Pool α) : Prop where
  nodup : pool.entries.Nodup
  ids : pool.ids = indices pool.entries

theorem Indexed.empty : Indexed (empty : Pool α) := ⟨List.nodup_nil, rfl⟩

variable [BEq α]

def internAll (pool : Pool α) (entries : List α) : Pool α :=
  entries.foldl (fun pool entry => (pool.intern entry).2) pool

theorem internAll_cons (pool : Pool α) (entry : α) (entries : List α) :
    pool.internAll (entry :: entries) = (pool.intern entry).2.internAll entries := rfl

theorem internAll_append (pool : Pool α) (first second : List α) :
    pool.internAll (first ++ second) = (pool.internAll first).internAll second :=
  List.foldl_append

theorem internAll_grows (pool : Pool α) (entries : List α) : Grows pool (pool.internAll entries) := by
  induction entries generalizing pool with
  | nil => exact .refl pool
  | cons entry entries ih => exact (intern_grows pool entry).trans (ih _)

variable [LawfulBEq α]

theorem indices_lookup {entries : List α} (hnodup : entries.Nodup) (entry : α) :
    (indices entries).lookup entry =
      if entry ∈ entries then some (.ofNat (entries.idxOf entry)) else none := by
  induction entries using List.reverseRecOn with
  | nil => rfl
  | append_singleton entries last ih =>
    obtain ⟨hbefore, _, hdisjoint⟩ := List.nodup_append.mp hnodup
    have hlast : last ∉ entries := fun hmem => hdisjoint last hmem last List.mem_cons_self rfl
    rw [indices_concat, List.lookup_cons]
    by_cases hsame : entry = last
    · rw [hsame, beq_self_eq_true, if_pos (by simp), List.idxOf_append_of_notMem hlast]
      simp
    · rw [beq_false_of_ne hsame]
      dsimp only
      rw [ih hbefore]
      by_cases hmem : entry ∈ entries
      · rw [if_pos hmem, if_pos (List.mem_append_left _ hmem), List.idxOf_append_of_mem hmem]
      · rw [if_neg hmem, if_neg (by simp [hmem, hsame])]

theorem Indexed.lookup {pool : Pool α} (h : pool.Indexed) (entry : α) :
    pool.ids.lookup entry =
      if entry ∈ pool.entries then some (.ofNat (pool.entries.idxOf entry)) else none := by
  rw [h.ids, indices_lookup h.nodup]

theorem Indexed.intern_eq {pool : Pool α} (h : pool.Indexed) (entry : α) :
    pool.intern entry = if entry ∈ pool.entries then (.ofNat (pool.entries.idxOf entry), pool)
      else (.ofNat pool.entries.length,
        ⟨pool.entries ++ [entry], (entry, .ofNat pool.entries.length) :: pool.ids⟩) := by
  rw [Pool.intern, h.lookup]
  by_cases hmem : entry ∈ pool.entries
  · rw [if_pos hmem, if_pos hmem]
  · rw [if_neg hmem, if_neg hmem]

theorem Indexed.intern {pool : Pool α} (h : pool.Indexed) (entry : α) :
    (pool.intern entry).2.Indexed := by
  rw [h.intern_eq]
  split
  · exact h
  · rename_i hmem
    refine ⟨List.nodup_append.mpr ⟨h.nodup, List.nodup_singleton entry, ?_⟩, ?_⟩
    · rintro old hold new hnew rfl
      rw [List.mem_singleton.mp hnew] at hold
      exact hmem hold
    · rw [indices_concat, h.ids]

theorem Indexed.mem_intern {pool : Pool α} (h : pool.Indexed) (entry other : α) :
    other ∈ (pool.intern entry).2.entries ↔ other ∈ pool.entries ∨ other = entry := by
  rw [h.intern_eq]
  split
  · rename_i hmem
    refine ⟨.inl, fun hother => hother.elim id fun hsame => ?_⟩
    rw [hsame]
    exact hmem
  · simp

theorem Indexed.internAll {pool : Pool α} (h : pool.Indexed) (entries : List α) :
    (pool.internAll entries).Indexed := by
  induction entries generalizing pool with
  | nil => exact h
  | cons entry entries ih => exact ih (h.intern entry)

theorem Indexed.mem_internAll {pool : Pool α} (h : pool.Indexed) (entries : List α) (other : α) :
    other ∈ (pool.internAll entries).entries ↔ other ∈ pool.entries ∨ other ∈ entries := by
  induction entries generalizing pool with
  | nil => simp [Pool.internAll]
  | cons entry entries ih =>
    rw [internAll_cons, ih (h.intern entry), h.mem_intern, List.mem_cons, or_assoc]

theorem Indexed.intern_index {pool : Pool α} (h : pool.Indexed) {entry : α} {final : List α}
    (hfinal : (pool.intern entry).2.entries <+: final) :
    (pool.intern entry).1 = .ofNat (final.idxOf entry) ∧ entry ∈ final := by
  obtain ⟨rest, rfl⟩ := hfinal
  have hmem : entry ∈ (pool.intern entry).2.entries := (h.mem_intern entry entry).mpr (.inr rfl)
  refine ⟨?_, List.mem_append_left _ hmem⟩
  rw [List.idxOf_append_of_mem hmem, h.intern_eq]
  split
  · rfl
  · rename_i hnew
    rw [List.idxOf_append_of_notMem hnew, List.idxOf_cons_self, Nat.add_zero]

/-- While the positions fit into a `u32`, the index finds the entry. -/
theorem getElem?_idxOf {entries : List α} (hlength : entries.length ≤ 2 ^ 32) {entry : α}
    (hmem : entry ∈ entries) :
    entries[(UInt32.ofNat (entries.idxOf entry)).toNat]? = some entry := by
  have hlt := List.idxOf_lt_length_of_mem hmem
  rw [UInt32.toNat_ofNat_of_lt' (Nat.lt_of_lt_of_le hlt hlength), List.getElem?_eq_getElem hlt,
    List.getElem_idxOf]

end Interning.Pool
