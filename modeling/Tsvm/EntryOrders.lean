import Mathlib

set_option autoImplicit false

/-!
# Graphs that are built while they are walked

A vertex is entered, and edges are added from the entered vertices to such as
have not been entered yet. So every edge leads to a vertex that comes later in
the order of entry, or is never entered, and no walk comes to a vertex twice.
-/
namespace Tsvm.EntryOrders
open Relation

variable {V : Type}

/-- No walk leads back to where it started. -/
def Acyclic (edge : V → V → Prop) : Prop := ∀ v, ¬ TransGen edge v v

section

variable {edge : V → V → Prop}

theorem acyclic_of_rank (rank : V → ℕ) (h : ∀ v w, edge v w → rank v < rank w) : Acyclic edge := by
  have hgrows {v w : V} (hwalk : TransGen edge v w) : rank v < rank w := by
    induction hwalk with
    | single hedge => exact h _ _ hedge
    | tail _ hedge ih => exact Nat.lt_trans ih (h _ _ hedge)
  intro v hcycle
  exact Nat.lt_irrefl _ (hgrows hcycle)

theorem Acyclic.nodup (h : Acyclic edge) {walk : List V} (hwalk : walk.IsChain edge) :
    walk.Nodup := by
  have hchain : walk.IsChain (TransGen edge) := hwalk.imp fun _ _ hedge => .single hedge
  refine hchain.pairwise.imp fun {v w} hpath => ?_
  rintro rfl
  exact h v hpath

theorem Acyclic.length_le (h : Acyclic edge) {walk vertices : List V} (hwalk : walk.IsChain edge)
    (hinside : walk ⊆ vertices) : walk.length ≤ vertices.length :=
  ((h.nodup hwalk).subperm hinside).length_le

/-- Only the last one of a walk need not have an edge. -/
theorem walk_dropLast {walk : List V} (h : walk.IsChain edge) :
    ∀ v ∈ walk.dropLast, ∃ w, edge v w := by
  induction walk with
  | nil => exact fun v hv => nomatch hv
  | cons v walk ih =>
    cases walk with
    | nil => exact fun v hv => nomatch hv
    | cons w walk =>
      obtain ⟨hfirst, hrest⟩ := List.isChain_cons_cons.mp h
      intro u hu
      rcases List.mem_cons.mp hu with rfl | hu
      · exact ⟨w, hfirst⟩
      · exact ih hrest u hu

theorem walk_subset {walk vertices : List V} (hwalk : walk.IsChain edge)
    (hfirst : ∀ v ∈ walk.head?, v ∈ vertices) (hedges : ∀ v w, edge v w → w ∈ vertices) :
    walk ⊆ vertices := by
  induction walk with
  | nil => exact List.nil_subset _
  | cons v walk ih =>
    obtain ⟨hnext, hrest⟩ := List.isChain_cons.mp hwalk
    have hv := hfirst v rfl
    exact List.cons_subset.mpr ⟨hv, ih hrest fun w hw => hedges v w (hnext w hw)⟩

theorem Acyclic.comap {W : Type} (h : Acyclic edge) {edge' : W → W → Prop} (f : W → V)
    (hedges : ∀ a b, edge' a b → edge (f a) (f b)) : Acyclic edge' :=
  fun a hcycle => h (f a) (hcycle.lift f hedges)

end

section

variable [DecidableEq V] {order : List V} {edge edge' : V → V → Prop}

/-- Every edge leads to a vertex that is entered behind its source, or not at all. -/
def Forward (order : List V) (edge : V → V → Prop) : Prop :=
  ∀ v w, edge v w → order.idxOf v < order.idxOf w

theorem Forward.acyclic (h : Forward order edge) : Acyclic edge := acyclic_of_rank order.idxOf h

theorem Forward.mem (h : Forward order edge) {v w : V} (hedge : edge v w) : v ∈ order := by
  have hlt := h v w hedge
  have hle : order.idxOf w ≤ order.length := List.idxOf_le_length
  exact List.idxOf_lt_length_iff.mp (by omega)

theorem idxOf_lt_of_fresh {v w : V} (hv : v ∈ order) (hw : w ∉ order) :
    order.idxOf v < order.idxOf w := by
  rw [List.idxOf_of_notMem hw]
  exact List.idxOf_lt_length_iff.mpr hv

theorem Forward.enter (h : Forward order edge) (more : List V) : Forward (order ++ more) edge := by
  intro v w hedge
  have hv := h.mem hedge
  have hlt := h v w hedge
  rw [List.idxOf_append_of_mem hv]
  by_cases hw : w ∈ order
  · rw [List.idxOf_append_of_mem hw]
    exact hlt
  · rw [List.idxOf_append_of_notMem hw]
    rw [List.idxOf_of_notMem hw] at hlt
    omega

theorem Forward.add (h : Forward order edge)
    (hedges : ∀ v w, edge' v w → edge v w ∨ v ∈ order ∧ w ∉ order) : Forward order edge' := by
  intro v w hedge
  rcases hedges v w hedge with hold | ⟨hv, hw⟩
  · exact h v w hold
  · exact idxOf_lt_of_fresh hv hw

end

end Tsvm.EntryOrders
