import Mathlib.Data.List.Forall2
import Tsvm.FailState

set_option autoImplicit false

/-!
# Decoders of symbol strings

A decoder reads a prefix of the symbols it has left. `Reads d w a` says that it
reads exactly `w` and returns `a`, whatever follows; the rules below compose it
along the structure of a format. Space reserved before a table is read is
recorded, each request with the number of symbols that were left at that time.
-/
namespace Tsvm.Codec

structure Cursor (β : Type) where
  rest : List β
  reserved : List (ℕ × ℕ)

abbrev Decoder (β ε α : Type) := FailState ε (Cursor β) α

variable {β ε α γ : Type}

/-- The next `n` symbols, or the failure `e` when fewer are left. -/
def take (n : ℕ) (e : ε) : Decoder β ε (List β) := fun c =>
  if n ≤ c.rest.length then (.ok (c.rest.take n), { c with rest := c.rest.drop n })
  else (.error e, c)

def reserve (n : ℕ) : Decoder β ε Unit :=
  FailState.modify fun c => { c with reserved := c.reserved ++ [(n, c.rest.length)] }

def times (d : Decoder β ε α) : ℕ → Decoder β ε (List α)
  | 0 => pure []
  | n + 1 => do
    let a ← d
    let as ← times d n
    pure (a :: as)

/-- A table: space is reserved for `n` entries, then the entries are read. -/
def table (d : Decoder β ε α) (n : ℕ) : Decoder β ε (List α) := do
  reserve n
  times d n

def finish (e : ε) : Decoder β ε Unit := fun c =>
  if c.rest = [] then (.ok (), c) else (.error e, c)

def Reads (d : Decoder β ε α) (w : List β) (a : α) : Prop :=
  ∀ rest reserved, ∃ reserved', d ⟨w ++ rest, reserved⟩ = (.ok a, ⟨rest, reserved'⟩)

theorem Reads.pure (a : α) : Reads (Pure.pure a : Decoder β ε α) [] a := by
  intro rest reserved
  exact ⟨reserved, rfl⟩

theorem Reads.bind {d : Decoder β ε α} {f : α → Decoder β ε γ} {v w : List β} {a : α} {b : γ}
    (hd : Reads d v a) (hf : Reads (f a) w b) : Reads (d >>= f) (v ++ w) b := by
  intro rest reserved
  obtain ⟨mid, hmid⟩ := hd (w ++ rest) reserved
  obtain ⟨last, hlast⟩ := hf rest mid
  refine ⟨last, ?_⟩
  rw [List.append_assoc, FailState.bind_ok hmid]
  exact hlast

theorem Reads.andThen {d : Decoder β ε α} {f : α → Decoder β ε γ} {w : List β} {a : α} {b : γ}
    (hd : Reads d w a) (hf : Reads (f a) [] b) : Reads (d >>= f) w b := by
  rw [← List.append_nil w]
  exact hd.bind hf

theorem Reads.map {d : Decoder β ε α} {f : α → γ} {w : List β} {a : α}
    (hd : Reads d w a) : Reads (d >>= fun a => Pure.pure (f a)) w (f a) :=
  hd.andThen (f := fun a => Pure.pure (f a)) (Reads.pure (f a))

theorem Reads.take (w : List β) (e : ε) : Reads (take w.length e) w w := by
  intro rest reserved
  refine ⟨reserved, ?_⟩
  simp [Codec.take]

theorem Reads.reserve (n : ℕ) : Reads (Codec.reserve n : Decoder β ε Unit) [] () := by
  intro rest reserved
  exact ⟨_, rfl⟩

theorem Reads.times {d : Decoder β ε α} {write : α → List β} {as : List α}
    (h : ∀ a ∈ as, Reads d (write a) a) :
    Reads (Codec.times d as.length) (as.flatMap write) as := by
  induction as with
  | nil => exact Reads.pure []
  | cons a as ih =>
    have head := h a (List.mem_cons_self ..)
    have tail := ih fun b hb => h b (List.mem_cons_of_mem _ hb)
    rw [List.flatMap_cons]
    exact head.bind tail.map

theorem Reads.table {d : Decoder β ε α} {write : α → List β} {as : List α}
    (h : ∀ a ∈ as, Reads d (write a) a) :
    Reads (Codec.table d as.length) (as.flatMap write) as :=
  (Reads.reserve as.length).bind (Reads.times h)

/-- A decoder that reads `w` and then insists on the end decodes `w` itself. -/
theorem Reads.finish {d : Decoder β ε α} {w : List β} {a : α} (h : Reads d w a) (e : ε)
    (reserved : List (ℕ × ℕ)) : ∃ reserved',
    (d >>= fun a => Codec.finish e >>= fun _ => Pure.pure a) ⟨w, reserved⟩ =
      (.ok a, ⟨[], reserved'⟩) := by
  obtain ⟨last, hlast⟩ := h [] reserved
  rw [List.append_nil] at hlast
  exact ⟨last, by rw [FailState.bind_ok hlast]; rfl⟩

/-- Whenever `d` succeeds, what it has read and what it returns are related by `P`. -/
def Consumes (d : Decoder β ε α) (P : List β → α → Prop) : Prop :=
  ∀ c a c', d c = (.ok a, c') → ∃ w, c.rest = w ++ c'.rest ∧ P w a

theorem Consumes.pure {P : List β → α → Prop} {a : α} (h : P [] a) :
    Consumes (Pure.pure a : Decoder β ε α) P := by
  intro c b c' hb
  cases hb
  exact ⟨[], rfl, h⟩

theorem Consumes.fail (e : ε) (P : List β → α → Prop) :
    Consumes (FailState.fail e : Decoder β ε α) P := nofun

theorem Consumes.bind {d : Decoder β ε α} {f : α → Decoder β ε γ} {P : List β → α → Prop}
    {Q : List β → γ → Prop} (hd : Consumes d P)
    (hf : ∀ v a, P v a → Consumes (f a) fun w b => Q (v ++ w) b) : Consumes (d >>= f) Q := by
  intro c b c' h
  obtain ⟨a, mid, ha, hb⟩ := FailState.bind_eq_ok.mp h
  obtain ⟨v, hv, hP⟩ := hd c a mid ha
  obtain ⟨w, hw, hQ⟩ := hf v a hP mid b c' hb
  refine ⟨v ++ w, ?_, hQ⟩
  rw [hv, hw, List.append_assoc]

theorem Consumes.mono {d : Decoder β ε α} {P Q : List β → α → Prop} (h : Consumes d P)
    (hPQ : ∀ w a, P w a → Q w a) : Consumes d Q := by
  intro c a c' ha
  obtain ⟨w, hw, hP⟩ := h c a c' ha
  exact ⟨w, hw, hPQ w a hP⟩

theorem Consumes.take (n : ℕ) (e : ε) :
    Consumes (take n e : Decoder β ε (List β)) fun w a => w = a ∧ a.length = n := by
  intro c a c' h
  unfold Codec.take at h
  by_cases hn : n ≤ c.rest.length
  · rw [if_pos hn] at h
    cases h
    exact ⟨_, (List.take_append_drop n c.rest).symm, rfl, List.length_take_of_le hn⟩
  · rw [if_neg hn] at h
    cases h

theorem Consumes.reserve (n : ℕ) :
    Consumes (Codec.reserve n : Decoder β ε Unit) fun w _ => w = [] := by
  intro c a c' h
  cases h
  exact ⟨[], rfl, rfl⟩

/-- A table of `n` entries, each of which is read as `P` says. -/
theorem Consumes.times {d : Decoder β ε α} {P : List β → α → Prop} (h : Consumes d P) (n : ℕ) :
    Consumes (Codec.times d n) fun w as =>
      as.length = n ∧ ∃ ws, w = ws.flatten ∧ List.Forall₂ P ws as := by
  induction n with
  | zero => exact .pure ⟨rfl, [], rfl, .nil⟩
  | succ n ih =>
    refine h.bind fun v a hv => ih.bind fun w as hw => .pure ?_
    obtain ⟨hlength, ws, rfl, hentries⟩ := hw
    refine ⟨by rw [List.length_cons, hlength], v :: ws, ?_, .cons hv hentries⟩
    rw [List.append_nil, List.flatten_cons]

theorem Consumes.table {d : Decoder β ε α} {P : List β → α → Prop} (h : Consumes d P) (n : ℕ) :
    Consumes (Codec.table d n) fun w as =>
      as.length = n ∧ ∃ ws, w = ws.flatten ∧ List.Forall₂ P ws as := by
  refine (Consumes.reserve n).bind fun v _ hv => ?_
  rw [hv]
  exact h.times n

theorem Consumes.tableOf {d : Decoder β ε α} {write : α → List β}
    (h : Consumes d fun w a => w = write a) (n : ℕ) :
    Consumes (Codec.table d n) fun w as => as.length = n ∧ w = as.flatMap write := by
  refine (h.table n).mono fun w as hw => ?_
  obtain ⟨hlength, ws, rfl, hentries⟩ := hw
  refine ⟨hlength, ?_⟩
  clear hlength
  induction hentries with
  | nil => rfl
  | cons hentry _ ih => rw [List.flatten_cons, List.flatMap_cons, hentry, ih]

end Tsvm.Codec
