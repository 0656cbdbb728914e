import Mathlib

set_option autoImplicit false

/-!
# Computations that may fail and keep the state they reached

A `FailState ε σ α` is a method on a mutable `σ` that returns an `α` or stops
with an `ε`. The state survives a failure, so what was written before it can
still be observed. `wp` is its weakest precondition with one postcondition for
each way to end.
-/
namespace Tsvm

def FailState (ε σ α : Type) : Type := σ → Except ε α × σ

namespace FailState

variable {ε σ α β : Type}

def pure (a : α) : FailState ε σ α := fun s => (.ok a, s)

def bind (d : FailState ε σ α) (f : α → FailState ε σ β) : FailState ε σ β := fun s =>
  match d s with
  | (.ok a, t) => f a t
  | (.error e, t) => (.error e, t)

instance : Monad (FailState ε σ) where
  pure := FailState.pure
  bind := FailState.bind

def fail (e : ε) : FailState ε σ α := fun s => (.error e, s)

def read : FailState ε σ σ := fun s => (.ok s, s)

def modify (f : σ → σ) : FailState ε σ Unit := fun s => (.ok (), f s)

def lift (x : Except ε α) : FailState ε σ α := fun s => (x, s)

/-- `map_err`. -/
def mapError {ε' : Type} (f : ε → ε') (d : FailState ε σ α) : FailState ε' σ α := fun s =>
  let (result, t) := d s
  (result.mapError f, t)

theorem bind_ok {d : FailState ε σ α} {f : α → FailState ε σ β} {s t : σ} {a : α}
    (h : d s = (.ok a, t)) : (d >>= f) s = f a t := by
  change FailState.bind d f s = _
  simp only [FailState.bind, h]

theorem bind_error {d : FailState ε σ α} {f : α → FailState ε σ β} {s t : σ} {e : ε}
    (h : d s = (.error e, t)) : (d >>= f) s = (.error e, t) := by
  change FailState.bind d f s = _
  simp only [FailState.bind, h]

@[simp] theorem pure_run (a : α) (s : σ) : (Pure.pure a : FailState ε σ α) s = (.ok a, s) := rfl
@[simp] theorem fail_run (e : ε) (s : σ) : (fail e : FailState ε σ α) s = (.error e, s) := rfl
@[simp] theorem read_run (s : σ) : (read : FailState ε σ σ) s = (.ok s, s) := rfl
@[simp] theorem modify_run (f : σ → σ) (s : σ) :
    (modify f : FailState ε σ Unit) s = (.ok (), f s) := rfl
@[simp] theorem lift_run (x : Except ε α) (s : σ) : (lift x : FailState ε σ α) s = (x, s) := rfl

/-- A successful sequence splits at its first semicolon. -/
theorem bind_eq_ok {d : FailState ε σ α} {f : α → FailState ε σ β} {s u : σ} {b : β} :
    (d >>= f) s = (.ok b, u) ↔ ∃ a t, d s = (.ok a, t) ∧ f a t = (.ok b, u) := by
  change FailState.bind d f s = _ ↔ _
  unfold FailState.bind
  constructor
  · intro h
    split at h
    · rename_i a t hd
      exact ⟨a, t, hd, h⟩
    · simp only [Prod.mk.injEq, reduceCtorEq, false_and] at h
  · rintro ⟨a, t, hd, hf⟩
    simp only [hd, hf]

theorem bind_eq_error {d : FailState ε σ α} {f : α → FailState ε σ β} {s u : σ} {e : ε} :
    (d >>= f) s = (.error e, u) ↔
      d s = (.error e, u) ∨ ∃ a t, d s = (.ok a, t) ∧ f a t = (.error e, u) := by
  change FailState.bind d f s = _ ↔ _
  unfold FailState.bind
  constructor
  · intro h
    split at h
    · rename_i a t hd
      exact .inr ⟨a, t, hd, h⟩
    · rename_i e' t hd
      simp only [Prod.mk.injEq, Except.error.injEq] at h
      exact .inl (by rw [hd, h.1, h.2])
  · rintro (hd | ⟨a, t, hd, hf⟩)
    · simp only [hd]
    · simp only [hd, hf]

/-- Weakest precondition: `Q` of a normal end and `E` of a failure. -/
def wp (d : FailState ε σ α) (s : σ) (Q : α → σ → Prop) (E : ε → σ → Prop) : Prop :=
  match d s with
  | (.ok a, t) => Q a t
  | (.error e, t) => E e t

section Rules

variable {Q : α → σ → Prop} {E : ε → σ → Prop}

@[simp] theorem wp_pure (a : α) (s : σ) :
    wp (Pure.pure a : FailState ε σ α) s Q E ↔ Q a s := Iff.rfl
@[simp] theorem wp_fail (e : ε) (s : σ) :
    wp (fail e : FailState ε σ α) s Q E ↔ E e s := Iff.rfl
@[simp] theorem wp_read (Q : σ → σ → Prop) (s : σ) :
    wp (read : FailState ε σ σ) s Q E ↔ Q s s := Iff.rfl
@[simp] theorem wp_modify (Q : Unit → σ → Prop) (f : σ → σ) (s : σ) :
    wp (modify f : FailState ε σ Unit) s Q E ↔ Q () (f s) := Iff.rfl
@[simp] theorem wp_lift_ok (a : α) (s : σ) :
    wp (lift (.ok a) : FailState ε σ α) s Q E ↔ Q a s := Iff.rfl
@[simp] theorem wp_lift_error (e : ε) (s : σ) :
    wp (lift (.error e) : FailState ε σ α) s Q E ↔ E e s := Iff.rfl

@[simp] theorem wp_bind (d : FailState ε σ α) (f : α → FailState ε σ β) (s : σ)
    (Q : β → σ → Prop) :
    wp (d >>= f) s Q E ↔ wp d s (fun a t => wp (f a) t Q E) E := by
  change wp (FailState.bind d f) s Q E ↔ _
  unfold wp FailState.bind
  cases d s with
  | mk r t => cases r <;> exact Iff.rfl

theorem wp_lift (x : Except ε α) (s : σ) :
    wp (lift x : FailState ε σ α) s Q E ↔
      (∀ a, x = .ok a → Q a s) ∧ (∀ e, x = .error e → E e s) := by
  cases x <;> simp

theorem wp_mono {d : FailState ε σ α} {s : σ} {Q' : α → σ → Prop} {E' : ε → σ → Prop}
    (h : wp d s Q E) (hQ : ∀ a t, Q a t → Q' a t) (hE : ∀ e t, E e t → E' e t) :
    wp d s Q' E' := by
  unfold wp at h ⊢
  cases hd : d s with
  | mk r t =>
    rw [hd] at h
    cases r with
    | ok a => exact hQ a t h
    | error e => exact hE e t h

theorem wp_ok {d : FailState ε σ α} {s t : σ} {a : α} (h : wp d s Q E)
    (hd : d s = (.ok a, t)) : Q a t := by
  unfold wp at h
  rwa [hd] at h

theorem wp_error {d : FailState ε σ α} {s t : σ} {e : ε} (h : wp d s Q E)
    (hd : d s = (.error e, t)) : E e t := by
  unfold wp at h
  rwa [hd] at h

end Rules

/-- `d'` does what `d` does wherever `d` does not stop with `e₀`. -/
def Extends (e₀ : ε) (d d' : FailState ε σ α) : Prop :=
  ∀ s, (d s).1 ≠ .error e₀ → d' s = d s

theorem Extends.refl (e₀ : ε) (d : FailState ε σ α) : Extends e₀ d d := fun _ _ => rfl

theorem Extends.fail (e₀ : ε) (d : FailState ε σ α) : Extends e₀ (FailState.fail e₀) d :=
  fun _ h => absurd rfl h

theorem Extends.bind {e₀ : ε} {d d' : FailState ε σ α} {f f' : α → FailState ε σ β}
    (hd : Extends e₀ d d') (hf : ∀ a, Extends e₀ (f a) (f' a)) :
    Extends e₀ (d >>= f) (d' >>= f') := by
  intro s h
  cases hr : d s with
  | mk r t =>
    cases r with
    | error e =>
      rw [bind_error hr] at h ⊢
      have hne : (d s).1 ≠ .error e₀ := by
        rw [hr]
        rintro ⟨⟩
        exact h rfl
      exact bind_error ((hd s hne).trans hr)
    | ok a =>
      have hne : (d s).1 ≠ .error e₀ := by rw [hr]; nofun
      rw [bind_ok hr] at h ⊢
      rw [bind_ok ((hd s hne).trans hr)]
      exact hf a t h

theorem Extends.error {e₀ e : ε} {d d' : FailState ε σ α} (h : Extends e₀ d d') {s : σ}
    (he : (d s).1 = .error e) (hne : e ≠ e₀) : (d' s).1 = .error e := by
  have hd : (d s).1 ≠ .error e₀ := by
    rw [he]
    exact fun heq => hne (Except.error.inj heq)
  rw [h s hd, he]

theorem Extends.ok {e₀ : ε} {d d' : FailState ε σ α} (h : Extends e₀ d d') {s t : σ} {a : α}
    (ha : d s = (.ok a, t)) : d' s = (.ok a, t) := by
  have hd : (d s).1 ≠ .error e₀ := by rw [ha]; nofun
  rw [h s hd, ha]

/-- What one family ends with under some budget the other ends with under some budget,
    unless it is the end of the budget. -/
def SameEnds (e₀ : ε) (d d' : ℕ → FailState ε σ α) : Prop :=
  ∀ s result, result.1 ≠ .error e₀ → ((∃ n, d n s = result) ↔ ∃ n, d' n s = result)

theorem SameEnds.of_extends {e₀ : ε} {d d' : ℕ → FailState ε σ α}
    (h : ∀ n, ∃ k, Extends e₀ (d n) (d' k)) (h' : ∀ n, ∃ k, Extends e₀ (d' n) (d k)) :
    SameEnds e₀ d d' := by
  intro s result hresult
  constructor
  · rintro ⟨n, rfl⟩
    obtain ⟨k, hk⟩ := h n
    exact ⟨k, hk s hresult⟩
  · rintro ⟨n, rfl⟩
    obtain ⟨k, hk⟩ := h' n
    exact ⟨k, hk s hresult⟩

theorem SameEnds.symm {e₀ : ε} {d d' : ℕ → FailState ε σ α} (h : SameEnds e₀ d d') :
    SameEnds e₀ d' d := fun s result hresult => (h s result hresult).symm

/-- What follows does not see the budget. -/
theorem SameEnds.bind {e₀ : ε} {d d' : ℕ → FailState ε σ α} (h : SameEnds e₀ d d')
    (f : α → FailState ε σ β) : SameEnds e₀ (fun n => d n >>= f) (fun n => d' n >>= f) := by
  have hbind {d d' : ℕ → FailState ε σ α} (h : SameEnds e₀ d d') (s : σ) (n : ℕ)
      (hresult : ((d n >>= f) s).1 ≠ .error e₀) : ∃ k, (d' k >>= f) s = (d n >>= f) s := by
    cases hd : d n s with
    | mk r t =>
      have hr : (r, t).1 ≠ .error e₀ := by
        rintro rfl
        exact hresult (congrArg Prod.fst (bind_error hd))
      obtain ⟨k, hk⟩ := (h s (r, t) hr).mp ⟨n, hd⟩
      refine ⟨k, ?_⟩
      change FailState.bind (d' k) f s = FailState.bind (d n) f s
      unfold FailState.bind
      rw [hk, hd]
  intro s result hresult
  constructor
  · rintro ⟨n, rfl⟩
    exact hbind h s n hresult
  · rintro ⟨n, rfl⟩
    exact hbind h.symm s n hresult

/-- The same of the results alone. -/
theorem SameEnds.result {e₀ : ε} {d d' : ℕ → FailState ε σ α} (h : SameEnds e₀ d d') (s : σ)
    {result : Except ε α} (hresult : result ≠ .error e₀) :
    (∃ n, (d n s).1 = result) ↔ ∃ n, (d' n s).1 = result := by
  constructor
  · rintro ⟨n, rfl⟩
    obtain ⟨k, hk⟩ := (h s (d n s) hresult).mp ⟨n, rfl⟩
    exact ⟨k, congrArg Prod.fst hk⟩
  · rintro ⟨n, rfl⟩
    obtain ⟨k, hk⟩ := (h s (d' n s) hresult).mpr ⟨n, rfl⟩
    exact ⟨k, congrArg Prod.fst hk⟩

section Parallel

variable {R : σ → σ → Prop}

/-- From states that `R` relates, `d` and `d'` end alike and in related states. -/
def Parallel (R : σ → σ → Prop) (d d' : FailState ε σ α) : Prop :=
  ∀ s s', R s s' → (d s).1 = (d' s').1 ∧ R (d s).2 (d' s').2

theorem Parallel.pure (a : α) : Parallel R (Pure.pure a : FailState ε σ α) (Pure.pure a) :=
  fun _ _ h => ⟨rfl, h⟩

theorem Parallel.fail (e : ε) : Parallel R (FailState.fail e : FailState ε σ α) (FailState.fail e) :=
  fun _ _ h => ⟨rfl, h⟩

theorem Parallel.lift (x : Except ε α) : Parallel R (FailState.lift x) (FailState.lift x) :=
  fun _ _ h => ⟨rfl, h⟩

theorem Parallel.modify {f f' : σ → σ} (hf : ∀ s s', R s s' → R (f s) (f' s')) :
    Parallel R (FailState.modify f : FailState ε σ Unit) (FailState.modify f') :=
  fun s s' h => ⟨rfl, hf s s' h⟩

theorem Parallel.bind {d d' : FailState ε σ α} {f f' : α → FailState ε σ β}
    (hd : Parallel R d d') (hf : ∀ a, Parallel R (f a) (f' a)) :
    Parallel R (d >>= f) (d' >>= f') := by
  intro s s' h
  obtain ⟨hresult, hstate⟩ := hd s s' h
  cases hr : d s with
  | mk r t =>
    cases hr' : d' s' with
    | mk r' t' =>
      rw [hr, hr'] at hresult hstate
      simp only at hresult hstate
      subst hresult
      cases r with
      | error e =>
        rw [bind_error hr, bind_error hr']
        exact ⟨rfl, hstate⟩
      | ok a =>
        rw [bind_ok hr, bind_ok hr']
        exact hf a t t' hstate

/-- What is read differs, so the rest has to do the same with either state. -/
theorem Parallel.read {f f' : σ → FailState ε σ β}
    (hf : ∀ s s', R s s' → Parallel R (f s) (f' s')) :
    Parallel R (FailState.read >>= f) (FailState.read >>= f') := by
  intro s s' h
  rw [bind_ok (read_run s), bind_ok (read_run s')]
  exact hf s s' h s s' h

end Parallel

end FailState
end Tsvm
