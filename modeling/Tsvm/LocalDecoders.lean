import Tsvm.Codec

set_option autoImplicit false

/-!
# Local decoders

A local decoder looks at nothing but the symbols it reads: whatever it returns it
returns again when other symbols follow. A local decoder that then insists on the
end accepts no proper extension of what it accepts.
-/
namespace Tsvm.LocalDecoders
open Codec

variable {β ε α γ : Type}

/-- What has been read is read in the same way in front of anything else. -/
def Local (d : Decoder β ε α) : Prop := Consumes d (Reads d)

namespace Local

theorem pure (a : α) : Local (Pure.pure a : Decoder β ε α) := Consumes.pure (Reads.pure a)

theorem fail (e : ε) : Local (FailState.fail e : Decoder β ε α) := Consumes.fail e _

theorem bind {d : Decoder β ε α} {f : α → Decoder β ε γ} (hd : Local d) (hf : ∀ a, Local (f a)) :
    Local (d >>= f) :=
  Consumes.bind hd fun _ a hv => (hf a).mono fun _ _ hw => hv.bind hw

theorem map {d : Decoder β ε α} (hd : Local d) (f : α → γ) :
    Local (d >>= fun a => Pure.pure (f a)) :=
  hd.bind fun a => .pure (f a)

theorem take (n : ℕ) (e : ε) : Local (Codec.take n e : Decoder β ε (List β)) := by
  refine (Consumes.take n e).mono fun w a hw => ?_
  obtain ⟨rfl, rfl⟩ := hw
  exact Reads.take w e

theorem reserve (n : ℕ) : Local (Codec.reserve n : Decoder β ε Unit) := by
  refine (Consumes.reserve n).mono fun w a hw => ?_
  rw [hw]
  exact Reads.reserve n

theorem times {d : Decoder β ε α} (hd : Local d) (n : ℕ) : Local (Codec.times d n) := by
  induction n with
  | zero => exact .pure []
  | succ n ih => exact hd.bind fun a => ih.map fun as => a :: as

theorem table {d : Decoder β ε α} (hd : Local d) (n : ℕ) : Local (Codec.table d n) :=
  (Local.reserve n).bind fun _ => hd.times n

/-- What is accepted up to its end is accepted with nothing behind it. -/
theorem finish_unique {d : Decoder β ε α} (hd : Local d) {e : ε} {w extra : List β}
    {reserved reserved' : List (ℕ × ℕ)} {a b : α} {c c' : Cursor β}
    (h : (d >>= fun a => Codec.finish e >>= fun _ => Pure.pure a) ⟨w, reserved⟩ = (.ok a, c))
    (h' : (d >>= fun a => Codec.finish e >>= fun _ => Pure.pure a) ⟨w ++ extra, reserved'⟩ =
      (.ok b, c')) : extra = [] := by
  obtain ⟨a', mid, hread, hend⟩ := FailState.bind_eq_ok.mp h
  obtain ⟨_, _, hfinish, _⟩ := FailState.bind_eq_ok.mp hend
  obtain ⟨v, hv, hreads⟩ := hd _ _ _ hread
  obtain ⟨last, hlast⟩ := hreads extra reserved'
  have hempty : mid.rest = [] := by
    unfold Codec.finish at hfinish
    by_cases hnil : mid.rest = []
    · exact hnil
    · rw [if_neg hnil] at hfinish
      cases hfinish
  rw [hempty, List.append_nil] at hv
  change w = v at hv
  rw [hv, FailState.bind_ok hlast] at h'
  obtain ⟨_, _, hfinish', _⟩ := FailState.bind_eq_ok.mp h'
  unfold Codec.finish at hfinish'
  by_cases hnil : extra = []
  · exact hnil
  · rw [if_neg hnil] at hfinish'
    cases hfinish'

end Local

end Tsvm.LocalDecoders
