import Tsvm.LocalDecoders

set_option autoImplicit false

/-!
# What a decoder reserves

`Requests d P` says that `d` reserves space for `n` entries behind what it has read
exactly where `P` says that the symbols read up to there announce `n` entries. The
rules below follow the structure of a format.
-/
namespace Tsvm.ReservedSpace
open Codec LocalDecoders

variable {β ε α γ : Type}

/-- `head w n`: after `w` a table of `n` entries begins. -/
abbrev Head (β : Type) := List β → ℕ → Prop

def Requests (d : Decoder β ε α) (head : Head β) : Prop :=
  ∀ c, ∃ log, (d c).2.reserved = c.reserved ++ log ∧ ∀ n left, (n, left) ∈ log ↔
    ∃ w rest, c.rest = w ++ rest ∧ rest.length = left ∧ head w n

def noHead : Head β := fun _ _ => False

def orHead (first second : Head β) : Head β := fun w n => first w n ∨ second w n

def thenHead (d : Decoder β ε α) (head : α → Head β) : Head β := fun w n =>
  ∃ v a u, Reads d v a ∧ w = v ++ u ∧ head a u n

/-- A table begins behind some of the entries of a table with `count` entries. -/
def entriesHead (d : Decoder β ε α) (head : Head β) (count : ℕ) : Head β := fun w n =>
  ∃ vs as u, List.Forall₂ (Reads d) vs as ∧ as.length < count ∧ w = vs.flatten ++ u ∧ head u n

/-- The table of `count` entries begins, or one inside it. -/
def tableHead (d : Decoder β ε α) (head : Head β) (count : ℕ) : Head β := fun w n =>
  (w = [] ∧ n = count) ∨ entriesHead d head count w n

theorem Reads.unique {d : Decoder β ε α} {v v' : List β} {a a' : α} (h : Reads d v a)
    (h' : Reads d v' a') {u u' : List β} (heq : v ++ u = v' ++ u') : a = a' ∧ v = v' ∧ u = u' := by
  obtain ⟨last, hlast⟩ := h u []
  obtain ⟨last', hlast'⟩ := h' u' []
  rw [heq, hlast'] at hlast
  cases hlast
  exact ⟨rfl, (List.append_cancel_right heq), rfl⟩

namespace Requests

variable {d : Decoder β ε α} {head head' : Head β}

theorem congr (h : Requests d head) (hsame : ∀ w n, head w n ↔ head' w n) : Requests d head' := by
  intro c
  obtain ⟨log, hlog, hmem⟩ := h c
  exact ⟨log, hlog, fun n left => (hmem n left).trans (by simp only [hsame])⟩

theorem of_reserved (h : ∀ c, (d c).2.reserved = c.reserved) : Requests d noHead := by
  intro c
  refine ⟨[], by rw [h, List.append_nil], fun n left => ?_⟩
  constructor
  · intro hmem
    cases hmem
  · rintro ⟨_, _, _, _, hfalse⟩
    exact hfalse.elim

theorem pure (a : α) : Requests (Pure.pure a : Decoder β ε α) noHead := of_reserved fun _ => rfl

theorem fail (e : ε) : Requests (FailState.fail e : Decoder β ε α) noHead := of_reserved fun _ => rfl

theorem take (n : ℕ) (e : ε) : Requests (Codec.take n e : Decoder β ε (List β)) noHead := by
  refine of_reserved fun c => ?_
  unfold Codec.take
  by_cases hle : n ≤ c.rest.length
  · rw [if_pos hle]
  · rw [if_neg hle]

theorem reserve (count : ℕ) :
    Requests (Codec.reserve count : Decoder β ε Unit) fun w n => w = [] ∧ n = count := by
  intro c
  refine ⟨[(count, c.rest.length)], rfl, fun n left => ?_⟩
  rw [List.mem_singleton, Prod.mk.injEq]
  constructor
  · rintro ⟨rfl, rfl⟩
    exact ⟨[], c.rest, rfl, rfl, rfl, rfl⟩
  · rintro ⟨w, rest, hrest, rfl, rfl, rfl⟩
    rw [hrest]
    exact ⟨rfl, rfl⟩

theorem bind (hd : Requests d head) (hlocal : Local d) {f : α → Decoder β ε γ}
    {behind : α → Head β} (hf : ∀ a, Requests (f a) (behind a)) :
    Requests (d >>= f) (orHead head (thenHead d behind)) := by
  intro c
  obtain ⟨log, hlog, hmem⟩ := hd c
  cases hrun : d c with
  | mk result mid =>
    rw [hrun] at hlog
    cases result with
    | error e =>
      rw [FailState.bind_error hrun]
      refine ⟨log, hlog, fun n left => (hmem n left).trans ?_⟩
      constructor
      · rintro ⟨w, rest, hrest, hleft, hhead⟩
        exact ⟨w, rest, hrest, hleft, .inl hhead⟩
      · rintro ⟨w, rest, hrest, hleft, hhead⟩
        cases hhead with
        | inl hhead => exact ⟨w, rest, hrest, hleft, hhead⟩
        | inr hthen =>
          obtain ⟨v, a, u, hreads, rfl, _⟩ := hthen
          obtain ⟨last, hlast⟩ := hreads (u ++ rest) c.reserved
          rw [← List.append_assoc, ← hrest] at hlast
          have hsame : d c = (.ok a, ⟨u ++ rest, last⟩) := hlast
          rw [hrun] at hsame
          cases hsame
    | ok a =>
      obtain ⟨v, hv, hreads⟩ := hlocal _ _ _ hrun
      obtain ⟨more, hmore, hmemMore⟩ := hf a mid
      rw [FailState.bind_ok hrun]
      dsimp only at hlog
      refine ⟨log ++ more, by rw [hmore, hlog, List.append_assoc], fun n left => ?_⟩
      rw [List.mem_append, hmem, hmemMore]
      constructor
      · intro h
        cases h with
        | inl h =>
          obtain ⟨w, rest, hrest, hleft, hhead⟩ := h
          exact ⟨w, rest, hrest, hleft, .inl hhead⟩
        | inr h =>
          obtain ⟨u, rest, hrest, hleft, hhead⟩ := h
          refine ⟨v ++ u, rest, ?_, hleft, .inr ⟨v, a, u, hreads, rfl, hhead⟩⟩
          rw [hv, hrest, List.append_assoc]
      · rintro ⟨w, rest, hrest, hleft, hhead⟩
        cases hhead with
        | inl hhead => exact .inl ⟨w, rest, hrest, hleft, hhead⟩
        | inr hthen =>
          obtain ⟨v', a', u, hreads', rfl, hbehind⟩ := hthen
          rw [List.append_assoc, hv] at hrest
          obtain ⟨rfl, rfl, hu⟩ := Reads.unique hreads hreads' hrest
          exact .inr ⟨u, rest, hu, hleft, hbehind⟩

theorem andThen (hd : Requests d noHead) (hlocal : Local d) {f : α → Decoder β ε γ}
    {behind : α → Head β} (hf : ∀ a, Requests (f a) (behind a)) :
    Requests (d >>= f) (thenHead d behind) :=
  (hd.bind hlocal hf).congr fun _ _ => iff_of_eq (false_or _)

theorem map (hd : Requests d head) (hlocal : Local d) (f : α → γ) :
    Requests (d >>= fun a => Pure.pure (f a)) head := by
  refine (hd.bind hlocal fun a => Requests.pure (f a)).congr fun w n => or_iff_left ?_
  rintro ⟨_, _, _, _, _, hfalse⟩
  exact hfalse

theorem none (hd : Requests d noHead) (hlocal : Local d) {f : α → Decoder β ε γ}
    (hf : ∀ a, Requests (f a) noHead) : Requests (d >>= f) noHead := by
  refine (hd.bind hlocal hf).congr fun w n => or_iff_left ?_
  rintro ⟨_, _, _, _, _, hfalse⟩
  exact hfalse

theorem times (hd : Requests d head) (hlocal : Local d) (count : ℕ) :
    Requests (Codec.times d count) (entriesHead d head count) := by
  induction count with
  | zero =>
    refine (Requests.pure []).congr fun w n => ?_
    constructor
    · intro hfalse
      exact hfalse.elim
    · rintro ⟨_, _, _, _, hlt, _⟩
      exact absurd hlt (Nat.not_lt_zero _)
  | succ count ih =>
    refine (hd.bind hlocal fun a => ih.map (hlocal.times count) _).congr fun w n => ?_
    constructor
    · intro h
      cases h with
      | inl hhead => exact ⟨[], [], w, .nil, Nat.succ_pos count, rfl, hhead⟩
      | inr hthen =>
        obtain ⟨v, a, u, hreads, rfl, vs, as, u', hall, hlt, rfl, hhead⟩ := hthen
        refine ⟨v :: vs, a :: as, u', .cons hreads hall, Nat.succ_lt_succ hlt, ?_, hhead⟩
        rw [List.flatten_cons, List.append_assoc]
    · rintro ⟨vs, as, u, hall, hlt, rfl, hhead⟩
      cases hall with
      | nil => exact .inl hhead
      | @cons v a vs as hreads hall =>
        refine .inr ⟨v, a, vs.flatten ++ u, hreads, ?_, vs, as, u, hall, Nat.lt_of_succ_lt_succ hlt,
          rfl, hhead⟩
        rw [List.flatten_cons, List.append_assoc]

theorem table (hd : Requests d head) (hlocal : Local d) (count : ℕ) :
    Requests (Codec.table d count) (tableHead d head count) := by
  refine ((Requests.reserve count).bind (Local.reserve count) fun _ => hd.times hlocal count).congr
    fun w n => or_congr_right ?_
  constructor
  · rintro ⟨v, a, u, hreads, rfl, hhead⟩
    obtain ⟨_, hv, _⟩ := Reads.unique hreads (Reads.reserve count)
      (show v ++ u = [] ++ (v ++ u) from rfl)
    rwa [hv, List.nil_append]
  · intro hhead
    exact ⟨[], (), w, Reads.reserve count, rfl, hhead⟩

theorem atEnd (hd : Requests d head) (hlocal : Local d) (e : ε) :
    Requests (d >>= fun a => Codec.finish e >>= fun _ => Pure.pure a) head := by
  refine (hd.bind hlocal fun a =>
    of_reserved fun c => ?_).congr fun w n => or_iff_left ?_
  · by_cases hnil : c.rest = []
    · have hfinish : (Codec.finish e : Decoder β ε Unit) c = (.ok (), c) := if_pos hnil
      rw [FailState.bind_ok hfinish]
      rfl
    · have hfinish : (Codec.finish e : Decoder β ε Unit) c = (.error e, c) := if_neg hnil
      rw [FailState.bind_error hfinish]
  · rintro ⟨_, _, _, _, _, hfalse⟩
    exact hfalse

end Requests

/-- Each table that begins has no more entries than there are symbols left. -/
theorem requests_within_iff {d : Decoder β ε α} {head : Head β} (h : Requests d head) (w : List β) :
    (∀ request ∈ (d ⟨w, []⟩).2.reserved, request.1 ≤ request.2) ↔
      ∀ v rest n, w = v ++ rest → head v n → n ≤ rest.length := by
  obtain ⟨log, hlog, hmem⟩ := h ⟨w, []⟩
  rw [hlog, List.nil_append]
  constructor
  · intro hall v rest n hw hhead
    exact hall (n, rest.length) ((hmem n rest.length).mpr ⟨v, rest, hw, rfl, hhead⟩)
  · rintro hall ⟨n, left⟩ hrequest
    obtain ⟨v, rest, hw, rfl, hhead⟩ := (hmem n left).mp hrequest
    exact hall v rest n hw hhead

end Tsvm.ReservedSpace
