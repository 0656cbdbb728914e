import Mathlib

set_option autoImplicit false

/-!
# Tables that give every entry one index

An entry is stored when it is seen for the first time, and its index is a `u32`.
While a table has room for the index, an index that was given out once finds its
entry in every later state of the table.
-/
namespace Interning

/-- A table with the index of each of its entries. -/
structure Pool (α : Type) where
  entries : List α
  ids : List (α × UInt32)

namespace Pool

variable {α : Type}

def empty : Pool α := ⟨[], []⟩

def intern [BEq α] (pool : Pool α) (entry : α) : UInt32 × Pool α :=
  match pool.ids.lookup entry with
  | some index => (index, pool)
  | none =>
    let index := UInt32.ofNat pool.entries.length
    (index, ⟨pool.entries ++ [entry], (entry, index) :: pool.ids⟩)

def Valid [BEq α] (pool : Pool α) : Prop :=
  ∀ entry index, pool.ids.lookup entry = some index →
    pool.entries[index.toNat]? = some entry

/-- The table is valid and has room for `n` more entries. -/
structure Room [BEq α] (n : ℕ) (pool : Pool α) : Prop where
  valid : pool.Valid
  length : pool.entries.length + n ≤ 2 ^ 32

def Grows (pool pool' : Pool α) : Prop := pool.entries <+: pool'.entries

theorem Grows.refl (pool : Pool α) : Grows pool pool := List.prefix_rfl

theorem Grows.trans {p q r : Pool α} (h : Grows p q) (h' : Grows q r) : Grows p r :=
  List.IsPrefix.trans h h'

theorem Grows.getElem? {p q : Pool α} (h : Grows p q) {k : ℕ} {entry : α}
    (hk : p.entries[k]? = some entry) : q.entries[k]? = some entry := by
  obtain ⟨rest, hrest⟩ := h
  rw [← hrest, List.getElem?_append_left (List.getElem?_eq_some_iff.mp hk).1]
  exact hk

theorem valid_empty [BEq α] : Valid (empty : Pool α) := nofun

theorem Room.mono [BEq α] {n k : ℕ} {pool : Pool α} (h : pool.Room n) (hle : k ≤ n) :
    pool.Room k := by
  have hlength := h.length
  exact ⟨h.valid, by omega⟩

theorem intern_grows [BEq α] (pool : Pool α) (entry : α) : Grows pool (pool.intern entry).2 := by
  unfold intern
  split
  · exact .refl pool
  · exact List.prefix_append _ _

theorem Room.intern [BEq α] [LawfulBEq α] {n : ℕ} {pool : Pool α} (h : pool.Room (n + 1))
    (entry : α) : (pool.intern entry).2.Room n ∧
      (pool.intern entry).2.entries[(pool.intern entry).1.toNat]? = some entry := by
  have hlength := h.length
  unfold Pool.intern
  split
  · rename_i index hindex
    exact ⟨h.mono (Nat.le_succ n), h.valid entry index hindex⟩
  · have hnew : (UInt32.ofNat pool.entries.length).toNat = pool.entries.length := by
      rw [UInt32.toNat_ofNat']
      exact Nat.mod_eq_of_lt (by omega)
    have hlast : (pool.entries ++ [entry])[(UInt32.ofNat pool.entries.length).toNat]? =
        some entry := by
      rw [hnew]
      exact List.getElem?_concat_length
    refine ⟨⟨?_, ?_⟩, hlast⟩
    · intro other index hother
      rw [List.lookup_cons] at hother
      by_cases hsame : (other == entry) = true
      · rw [hsame] at hother
        cases hother
        rw [eq_of_beq hsame]
        exact hlast
      · rw [Bool.not_eq_true] at hsame
        rw [hsame] at hother
        have hold := h.valid other index hother
        rw [List.getElem?_append_left (List.getElem?_eq_some_iff.mp hold).1]
        exact hold
    · rw [List.length_append, List.length_singleton]
      omega

end Pool

end Interning
