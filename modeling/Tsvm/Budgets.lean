import Tsvm.EntryOrders
import Tsvm.FailState

set_option autoImplicit false

/-!
# Budgets that are not used up

A computation that recurses on a budget stops with an error of its own when there is none
left. Where the recursion goes along the edges of a graph without a cycle, a budget of one
unit for each vertex is enough.
-/
namespace Tsvm

namespace FailState

variable {ε σ α β : Type} {e₀ : ε}

/-- No run of `d` stops with `e₀`. -/
def Avoids (e₀ : ε) (d : FailState ε σ α) : Prop := ∀ s, (d s).1 ≠ .error e₀

theorem Avoids.pure (a : α) : Avoids e₀ (Pure.pure a : FailState ε σ α) :=
  fun _ h => nomatch h

theorem Avoids.read : Avoids e₀ (FailState.read : FailState ε σ σ) := fun _ h => nomatch h

theorem Avoids.modify (f : σ → σ) : Avoids e₀ (FailState.modify f) := fun _ h => nomatch h

theorem Avoids.fail {e : ε} (h : e ≠ e₀) : Avoids e₀ (FailState.fail e : FailState ε σ α) :=
  fun _ he => h (Except.error.inj he)

theorem Avoids.lift {x : Except ε α} (h : x ≠ .error e₀) :
    Avoids e₀ (FailState.lift x : FailState ε σ α) := fun _ => h

theorem Avoids.bind_of {d : FailState ε σ α} {f : α → FailState ε σ β} (hd : Avoids e₀ d)
    (hf : ∀ s a t, d s = (.ok a, t) → (f a t).1 ≠ .error e₀) : Avoids e₀ (d >>= f) := by
  intro s
  cases hrun : d s with
  | mk result t =>
    cases result with
    | ok a =>
      rw [bind_ok hrun]
      exact hf s a t hrun
    | error e =>
      rw [bind_error hrun]
      have hne := hd s
      rw [hrun] at hne
      exact fun he => hne (congrArg Except.error (Except.error.inj he))

theorem Avoids.bind {d : FailState ε σ α} {f : α → FailState ε σ β} (hd : Avoids e₀ d)
    (hf : ∀ a, Avoids e₀ (f a)) : Avoids e₀ (d >>= f) :=
  hd.bind_of fun _ a t _ => hf a t

theorem Extends.of_avoids {d d' : FailState ε σ α} (h : Extends e₀ d d') (hd : Avoids e₀ d) :
    d' = d := funext fun s => h s (hd s)

theorem Extends.avoids {d d' : FailState ε σ α} (h : Extends e₀ d d') (hd : Avoids e₀ d) :
    Avoids e₀ d' := by
  rw [h.of_avoids hd]
  exact hd

end FailState

namespace EntryOrders

variable {V : Type} {edge : V → V → Prop}

/-- `P n v` says that `n` is enough for `v`. Where one unit more than all the successors
    need is enough, as many units as there are vertices are enough for each. -/
theorem Acyclic.enough (hacyclic : Acyclic edge) (vertices : List V) (least : ℕ)
    (hinside : ∀ v w, edge v w → w ∈ vertices) {P : ℕ → V → Prop}
    (hstep : ∀ n v, least ≤ n → v ∈ vertices → (∀ w, edge v w → P n w) → P (n + 1) v)
    {v : V} (hv : v ∈ vertices) {n : ℕ} (hn : least + vertices.length ≤ n) : P n v := by
  -- The units that are gone are those of the vertices passed on the way to `v`.
  have hwalk (n : ℕ) : ∀ (walk : List V) (v : V), (walk ++ [v]).IsChain edge →
      walk ++ [v] ⊆ vertices → least + vertices.length ≤ n + walk.length → P n v := by
    induction n with
    | zero =>
      intro walk v hchain hsubset hn
      have hle := hacyclic.length_le hchain hsubset
      rw [List.length_append, List.length_singleton] at hle
      omega
    | succ n ih =>
      intro walk v hchain hsubset hn
      have hle := hacyclic.length_le hchain hsubset
      rw [List.length_append, List.length_singleton] at hle
      refine hstep n v (by omega) (hsubset List.mem_concat_self) fun w hedge => ?_
      refine ih (walk ++ [v]) w ?_ ?_ ?_
      · refine List.isChain_append.mpr ⟨hchain, .singleton w, ?_⟩
        intro last hlast first hfirst
        rw [List.getLast?_concat] at hlast
        cases hlast
        cases hfirst
        exact hedge
      · exact List.append_subset.mpr
          ⟨hsubset, List.cons_subset.mpr ⟨hinside v w hedge, List.nil_subset _⟩⟩
      · rw [List.length_append, List.length_singleton]
        omega
  exact hwalk n [] v (.singleton v) (List.cons_subset.mpr ⟨hv, List.nil_subset _⟩) hn

end EntryOrders

end Tsvm
