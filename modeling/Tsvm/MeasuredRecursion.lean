import Mathlib

set_option autoImplicit false

/-!
# Recursion with a measure

Computations on a state, and recursions that go on only at states with less left. `Agree` and
`Takes` compare two computations, so that one rule for each combinator says both what a
recursion depends on and how it moves the state.
-/
namespace MeasuredRecursion

/-- How the state may move, and how much is left of it. -/
structure Course (σ : Type) where
  left : σ → ℕ
  before : σ → σ → Prop
  refl : ∀ s, before s s
  trans : ∀ {s t u}, before s t → before t u → before s u
  left_le : ∀ {s t}, before s t → left t ≤ left s

section Rules

variable {σ α β : Type} (C : Course σ)

/-- With fewer than `k` left, the two computations do the same, and do not go back. -/
def Agree (k : ℕ) (f g : StateM σ α) : Prop :=
  ∀ s, C.left s < k → f s = g s ∧ C.before s (f s).2

def TakesAt (s : σ) (f g : StateM σ α) : Prop :=
  f s = g s ∧ C.before s (f s).2 ∧ C.left (f s).2 < C.left s

def Takes (k : ℕ) (f g : StateM σ α) : Prop :=
  ∀ s, 0 < C.left s → C.left s ≤ k → TakesAt C s f g

variable {C} {k : ℕ} {f g : StateM σ α} {f' g' : α → StateM σ β}

theorem Agree.mono {j : ℕ} (h : Agree C k f g) (hj : j ≤ k) : Agree C j f g :=
  fun s hs => h s (Nat.lt_of_lt_of_le hs hj)

theorem agree_zero : Agree C 0 f g := fun _ hs => absurd hs (Nat.not_lt_zero _)

theorem agree_pure (v : α) : Agree C k (pure v) (pure v) := fun s _ => ⟨rfl, C.refl s⟩

theorem Agree.bind (h : Agree C k f g) (hnext : ∀ v, Agree C k (f' v) (g' v)) :
    Agree C k (f >>= f') (g >>= g') := by
  intro s hs
  obtain ⟨hsame, hbefore⟩ := h s hs
  obtain ⟨hsame', hbefore'⟩ := hnext (f s).1 (f s).2 (Nat.lt_of_le_of_lt (C.left_le hbefore) hs)
  constructor
  · change f' (f s).1 (f s).2 = g' (g s).1 (g s).2
    rw [hsame', hsame]
  · exact C.trans hbefore hbefore'

theorem agree_get_bind {f' g' : σ → StateM σ β} (h : ∀ s, Agree C k (f' s) (g' s)) :
    Agree C k (get >>= f') (get >>= g') := fun s hs => h s s hs

theorem Agree.ite {p : Prop} [Decidable p] {f₁ g₁ : StateM σ α} (h : Agree C k f g)
    (h₁ : Agree C k f₁ g₁) : Agree C k (if p then f else f₁) (if p then g else g₁) := by
  by_cases hp : p
  · rw [if_pos hp, if_pos hp]
    exact h
  · rw [if_neg hp, if_neg hp]
    exact h₁

theorem TakesAt.bind {s : σ} (h : TakesAt C s f g) (hs : C.left s ≤ k)
    (hnext : ∀ v, Agree C k (f' v) (g' v)) : TakesAt C s (f >>= f') (g >>= g') := by
  obtain ⟨hsame, hbefore, hless⟩ := h
  obtain ⟨hsame', hbefore'⟩ := hnext (f s).1 (f s).2 (Nat.lt_of_lt_of_le hless hs)
  refine ⟨?_, C.trans hbefore hbefore', Nat.lt_of_le_of_lt (C.left_le hbefore') hless⟩
  change f' (f s).1 (f s).2 = g' (g s).1 (g s).2
  rw [hsame', hsame]

theorem Takes.bind (h : Takes C k f g) (hnext : ∀ v, Agree C k (f' v) (g' v)) :
    Takes C k (f >>= f') (g >>= g') := fun s hpos hs => (h s hpos hs).bind hs hnext

theorem takes_get_bind {f' g' : σ → StateM σ β} (h : ∀ s, Takes C k (f' s) (g' s)) :
    Takes C k (get >>= f') (get >>= g') := fun s hpos hs => h s s hpos hs

theorem Takes.agree (h : Takes C k f g)
    (hzero : ∀ s, C.left s = 0 → f s = g s ∧ C.before s (f s).2) : Agree C (k + 1) f g := by
  intro s hs
  by_cases hpos : 0 < C.left s
  · obtain ⟨hsame, hbefore, _⟩ := h s hpos (Nat.le_of_lt_succ hs)
    exact ⟨hsame, hbefore⟩
  · exact hzero s (Nat.eq_zero_of_not_pos hpos)

variable (C) in
structure Consumes (k : ℕ) (f g : StateM σ α) : Prop where
  agree : Agree C k f g
  takes : Takes C k f g

theorem Consumes.bind (h : Consumes C k f g) (hnext : ∀ v, Agree C k (f' v) (g' v)) :
    Consumes C k (f >>= f') (g >>= g') := ⟨h.agree.bind hnext, h.takes.bind hnext⟩

theorem consumes_get_bind {f' g' : σ → StateM σ β} (h : ∀ s, Consumes C k (f' s) (g' s)) :
    Consumes C k (get >>= f') (get >>= g') :=
  ⟨agree_get_bind fun s => (h s).agree, takes_get_bind fun s => (h s).takes⟩

end Rules

section Recursion

variable {σ α ι : Type} {C : Course σ} {F : (ι → StateM σ α) → ι → StateM σ α}

/-- `F` goes on only with less left than it was called with. -/
def Shrinks (C : Course σ) (F : (ι → StateM σ α) → ι → StateM σ α) : Prop :=
  ∀ k g h, (∀ i, Agree C k (g i) (h i)) → ∀ i, Agree C (k + 1) (F g i) (F h i)

/-- The recursion with the body `F` ends everywhere, with what `f` computes. -/
structure Descends (C : Course σ) (F : (ι → StateM σ α) → ι → StateM σ α)
    (f : ι → StateM σ α) : Prop where
  shrinks : Shrinks C F
  solution : ∀ i s, f i s = F f i s

theorem Descends.agree {f g : ι → StateM σ α} (h : Descends C F f) (hg : ∀ i s, g i s = F g i s)
    (k : ℕ) (i : ι) : Agree C k (f i) (g i) := by
  induction k generalizing i with
  | zero => exact agree_zero
  | succ k ih =>
    intro s hs
    have hstep := h.shrinks k f g ih i s hs
    rw [h.solution, hg]
    exact hstep

theorem agree_budget {f : ℕ → ι → StateM σ α} (hF : Shrinks C F)
    (hstep : ∀ n i, f (n + 1) i = F (f n) i) (k : ℕ) {m n : ℕ} (hm : k ≤ m) (hn : k ≤ n) (i : ι) :
    Agree C k (f m i) (f n i) := by
  induction k generalizing m n i with
  | zero => exact agree_zero
  | succ k ih =>
    obtain ⟨m, rfl⟩ := Nat.exists_eq_add_of_le' (Nat.le_trans (Nat.succ_pos k) hm)
    obtain ⟨n, rfl⟩ := Nat.exists_eq_add_of_le' (Nat.le_trans (Nat.succ_pos k) hn)
    rw [hstep, hstep]
    exact hF k _ _ (ih (Nat.le_of_succ_le_succ hm) (Nat.le_of_succ_le_succ hn)) i

/-- A budget of one more than what is left is enough. -/
theorem descends_of_budget {f : ℕ → ι → StateM σ α} (hF : Shrinks C F)
    (hstep : ∀ n i, f (n + 1) i = F (f n) i) :
    Descends C F fun i s => f (C.left s + 1) i s := by
  refine ⟨hF, fun i s => ?_⟩
  have hagree : ∀ i, Agree C (C.left s) (f (C.left s) i) fun t => f (C.left t + 1) i t := by
    intro i t ht
    exact agree_budget hF hstep (C.left t + 1) ht (Nat.le_refl _) i t (Nat.lt_succ_self _)
  change f (C.left s + 1) i s = _
  rw [hstep]
  exact (hF (C.left s) _ _ hagree i s (Nat.lt_succ_self _)).1

end Recursion

end MeasuredRecursion
