import Tsvm.LexerRuns
import Tsvm.Relocation

set_option autoImplicit false

/-!
# Slices of a source

A text that ends with a token lexes to the same kinds wherever it stands and
whatever white space follows it; only the positions move with it.
-/
namespace Tsvm.Lexing

/-- No token goes on into the text. -/
def Stops (text : List Char) : Prop := ∀ ch r, text = ch :: r → isWhitespace ch = true

theorem stops_nil : Stops [] := fun _ _ h => nomatch h

theorem stops_newline (text : List Char) : Stops ('\n' :: text) := by
  intro ch r h
  injection h with hch _
  rw [← hch]
  rfl

/-- Two lexers in front of one text, which different texts follow. -/
structure Recut (post post' m : List Char) (s s' : Lexer) : Prop where
  left : s.rest = m ++ post
  right : s'.rest = m ++ post'

theorem rest_of_peek {s : Lexer} {ch : Char} (h : s.peek = some ch) :
    s.rest = ch :: s.advance.rest := (Lexer.passes_advance h).rest

theorem peek_of_cons {s : Lexer} {ch : Char} {r : List Char} (h : s.rest = ch :: r) :
    s.peek = some ch := by
  rw [Lexer.peek, h]
  rfl

theorem advance_of_cons {s : Lexer} {ch : Char} {r : List Char} (h : s.rest = ch :: r) :
    s.advance.rest = r := by
  have hrest := rest_of_peek (peek_of_cons h)
  rw [h] at hrest
  injection hrest with _ hr
  exact hr.symm

theorem peekNext_eq {s : Lexer} {ch : Char} (h : s.peek = some ch) :
    s.peekNext = s.advance.peek := by
  rw [Lexer.peekNext, Lexer.peek, rest_of_peek h, List.getElem?_cons_succ]

theorem digit_not_space {ch : Char} (h : isAsciiDigit ch = true) : isWhitespace ch = false := by
  rw [isAsciiDigit, Bool.and_eq_true, decide_eq_true_eq, decide_eq_true_eq] at h
  obtain ⟨hzero, hnine⟩ := h
  have hlow : 48 ≤ ch.toNat := UInt32.le_iff_toNat_le.mp hzero
  have hhigh : ch.toNat ≤ 57 := UInt32.le_iff_toNat_le.mp hnine
  simp only [isWhitespace, Bool.or_eq_false_iff, Bool.and_eq_false_iff, decide_eq_false_iff_not,
    beq_eq_false_iff_ne]
  omega

/-- The lexer does not read back. -/
def Leads (s t : Lexer) : Prop := ∃ x, s.rest = x ++ t.rest

theorem Lexer.Passes.leads {s t : Lexer} {x : List Char} (h : s.Passes x t) : Leads s t :=
  ⟨x, h.rest⟩

namespace Recut

variable {post post' m m' : List Char} {s s' t t' : Lexer} {ch : Char}

theorem of_cons (h : Recut post post' (ch :: m) s s') : s.peek = some ch ∧ s'.peek = some ch ∧
    Recut post post' m s.advance s'.advance :=
  ⟨peek_of_cons h.left, peek_of_cons h.right, advance_of_cons h.left, advance_of_cons h.right⟩

/-- What is in front of a stopping place is in the common text. -/
theorem forward (h : Recut post post' m s s') (hstop : Stops post')
    (hch : isWhitespace ch = false) (hpeek : s'.peek = some ch) :
    s.peek = some ch ∧ ∃ m₁, m = ch :: m₁ ∧ Recut post post' m₁ s.advance s'.advance := by
  have hrest := rest_of_peek hpeek
  rw [h.right] at hrest
  cases m with
  | nil =>
    rw [hstop ch _ hrest] at hch
    exact absurd hch.symm Bool.false_ne_true
  | cons first m =>
    injection hrest with hfirst _
    subst hfirst
    obtain ⟨hleft, _, hrecut⟩ := h.of_cons
    exact ⟨hleft, m, rfl, hrecut⟩

/-- What is read by a lexer that ends in front of the cut is in the common text. -/
theorem back (h : Recut post post' m s s') (ht : t.rest = m' ++ post) (hpeek : s.peek = some ch)
    (hread : Leads s.advance t) :
    s'.peek = some ch ∧ ∃ m₁, m = ch :: m₁ ∧ Recut post post' m₁ s.advance s'.advance := by
  have hrest := rest_of_peek hpeek
  rw [h.left] at hrest
  obtain ⟨x, hx⟩ := hread
  cases m with
  | nil =>
    have hlength := congrArg List.length hrest
    rw [hx, ht, List.length_cons, List.length_append, List.length_append, List.length_append,
      List.length_nil] at hlength
    omega
  | cons first m =>
    injection hrest with hfirst _
    subst hfirst
    obtain ⟨_, hright, hrecut⟩ := h.of_cons
    exact ⟨hright, m, rfl, hrecut⟩

theorem unread (h : Recut post post' m s s') (hs : s.rest = m' ++ post) :
    Recut post post' m' s s' := by
  rw [List.append_cancel_right (hs.symm.trans h.left)]
  exact h

theorem text {x x' : List Char} (h : Recut post post' m s s') (h' : Recut post post' m' t t')
    (hx : s.rest = x ++ t.rest) (hx' : s'.rest = x' ++ t'.rest) : m = x ++ m' ∧ x = x' := by
  rw [h.left, h'.left, ← List.append_assoc] at hx
  rw [h.right, h'.right, ← List.append_assoc] at hx'
  have hm := List.append_cancel_right hx
  have hm' := List.append_cancel_right hx'
  exact ⟨hm, List.append_cancel_right (hm.symm.trans hm')⟩

end Recut

section Readers

variable {post post' m m' : List Char} {s s' t : Lexer}

theorem consumeWhileFrom_rest (predicate : Char → Bool) (rest : List Char) (position : Position) :
    (Lexer.consumeWhileFrom predicate rest position).rest = rest.dropWhile predicate := by
  induction rest generalizing position with
  | nil => rfl
  | cons ch rest ih =>
    rw [Lexer.consumeWhileFrom, List.dropWhile_cons]
    by_cases hpredicate : predicate ch = true
    · rw [if_pos hpredicate, if_pos hpredicate]
      exact ih _
    · rw [if_neg hpredicate, if_neg hpredicate]

theorem dropWhile_recut {predicate : Char → Bool}
    (hend : m' ≠ [] ∨ Stops post' ∧ ∀ ch, predicate ch = true → isWhitespace ch = false)
    (h : (m ++ post).dropWhile predicate = m' ++ post) :
    (m ++ post').dropWhile predicate = m' ++ post' := by
  induction m with
  | nil =>
    have hle := (List.dropWhile_suffix (l := post) predicate).length_le
    rw [List.nil_append] at h
    rw [h, List.length_append] at hle
    have hnil : m' = [] := List.length_eq_zero_iff.mp (by omega)
    obtain hne | ⟨hstop, hspace⟩ := hend
    · exact absurd hnil hne
    · subst hnil
      cases post' with
      | nil => rfl
      | cons ch r =>
        have hno : predicate ch ≠ true := fun hch => by
          have hspace := hspace ch hch
          rw [hstop ch r rfl] at hspace
          exact Bool.false_ne_true hspace.symm
        rw [List.nil_append, List.dropWhile_cons, if_neg hno]
  | cons ch m ih =>
    rw [List.cons_append, List.dropWhile_cons] at h ⊢
    by_cases hpredicate : predicate ch = true
    · rw [if_pos hpredicate] at h ⊢
      exact ih h
    · rw [if_neg hpredicate] at h ⊢
      rw [← List.cons_append] at h ⊢
      rw [List.append_cancel_right h]

theorem Recut.consumeWhile {predicate : Char → Bool}
    (hend : m' ≠ [] ∨ Stops post' ∧ ∀ ch, predicate ch = true → isWhitespace ch = false)
    (h : Recut post post' m s s') (ht : (s.consumeWhile predicate).rest = m' ++ post) :
    Recut post post' m' (s.consumeWhile predicate) (s'.consumeWhile predicate) := by
  refine ⟨ht, ?_⟩
  rw [Lexer.consumeWhile, consumeWhileFrom_rest, h.left] at ht
  rw [Lexer.consumeWhile, consumeWhileFrom_rest, h.right]
  exact dropWhile_recut hend ht

theorem consumeWhile_leads (s : Lexer) (predicate : Char → Bool) :
    Leads s (s.consumeWhile predicate) := by
  obtain ⟨x, hx⟩ := s.consumeWhile_passes predicate
  exact hx.leads

theorem digits_recut (hstop : Stops post') (h : Recut post post' m s s')
    (ht : (s.consumeWhile isAsciiDigit).rest = m' ++ post) :
    Recut post post' m' (s.consumeWhile isAsciiDigit) (s'.consumeWhile isAsciiDigit) :=
  h.consumeWhile (.inr ⟨hstop, fun _ => digit_not_space⟩) ht

theorem peek_of_digitAt (h : digitAt s.peek = true) :
    ∃ ch, s.peek = some ch ∧ isAsciiDigit ch = true := by
  rw [digitAt, Option.any_eq_true] at h
  exact h

theorem digitAt_of_peek {ch : Char} (h : s.peek = some ch) (hch : isAsciiDigit ch = true) :
    digitAt s.peek = true := by
  rw [h]
  exact hch

theorem Recut.digit_forward (h : Recut post post' m s s') (hstop : Stops post')
    (hdigit : digitAt s'.peek = true) : digitAt s.peek = true := by
  obtain ⟨ch, hpeek, hch⟩ := peek_of_digitAt hdigit
  exact digitAt_of_peek (h.forward hstop (digit_not_space hch) hpeek).1 hch

theorem Recut.digit_back (h : Recut post post' m s s') (hdigit : digitAt s.peek = true)
    (ht : (s.consumeWhile isAsciiDigit).rest = m' ++ post) : digitAt s'.peek = true := by
  obtain ⟨ch, hpeek, hch⟩ := peek_of_digitAt hdigit
  have hread : (s.consumeWhile isAsciiDigit).rest = s.advance.rest.dropWhile isAsciiDigit := by
    rw [Lexer.consumeWhile, consumeWhileFrom_rest, rest_of_peek hpeek, List.dropWhile_cons,
      if_pos hch]
  have hleads : Leads s.advance (s.consumeWhile isAsciiDigit) := by
    refine ⟨s.advance.rest.takeWhile isAsciiDigit, ?_⟩
    rw [hread, List.takeWhile_append_dropWhile]
  exact digitAt_of_peek (h.back ht hpeek hleads).1 hch

theorem fraction_recut (hstop : Stops post') (h : Recut post post' m s s')
    (ht : (fraction s).rest = m' ++ post) : Recut post post' m' (fraction s) (fraction s') := by
  rw [fraction] at ht ⊢
  rw [fraction]
  by_cases hpoint : s.peek = some '.' ∧ digitAt s.peekNext = true
  · rw [if_pos hpoint] at ht ⊢
    rw [peekNext_eq hpoint.1] at hpoint
    obtain ⟨hpoint', m₁, rfl, hm⟩ := h.back ht hpoint.1 (consumeWhile_leads _ _)
    rw [if_pos ⟨hpoint', by rw [peekNext_eq hpoint']; exact hm.digit_back hpoint.2 ht⟩]
    exact digits_recut hstop hm ht
  · rw [if_neg hpoint] at ht ⊢
    have hno : ¬(s'.peek = some '.' ∧ digitAt s'.peekNext = true) := by
      rintro ⟨hpeek, hdigit⟩
      rw [peekNext_eq hpeek] at hdigit
      obtain ⟨hpeek', m₁, rfl, hm⟩ := h.forward hstop rfl hpeek
      exact hpoint ⟨hpeek', by rw [peekNext_eq hpeek']; exact hm.digit_forward hstop hdigit⟩
    rw [if_neg hno]
    exact h.unread ht

def optionalOf (a b : Char) (s : Lexer) : Lexer :=
  if s.peek = some a ∨ s.peek = some b then s.advance else s

theorem Recut.optional {a b : Char} (ha : isWhitespace a = false) (hb : isWhitespace b = false)
    (hstop : Stops post') (h : Recut post post' m s s') (ht : t.rest = m' ++ post)
    (hread : Leads (optionalOf a b s) t) :
    ∃ m₁, Recut post post' m₁ (optionalOf a b s) (optionalOf a b s') := by
  rw [optionalOf] at hread ⊢
  rw [optionalOf]
  by_cases hpeek : s.peek = some a ∨ s.peek = some b
  · rw [if_pos hpeek] at hread ⊢
    cases hpeek with
    | inl hpeek =>
      obtain ⟨hpeek', m₁, _, hm⟩ := h.back ht hpeek hread
      rw [if_pos (.inl hpeek')]
      exact ⟨m₁, hm⟩
    | inr hpeek =>
      obtain ⟨hpeek', m₁, _, hm⟩ := h.back ht hpeek hread
      rw [if_pos (.inr hpeek')]
      exact ⟨m₁, hm⟩
  · have hno : ¬(s'.peek = some a ∨ s'.peek = some b) := by
      intro hpeek'
      cases hpeek' with
      | inl hpeek' => exact hpeek (.inl (h.forward hstop ha hpeek').1)
      | inr hpeek' => exact hpeek (.inr (h.forward hstop hb hpeek').1)
    rw [if_neg hpeek, if_neg hno]
    exact ⟨m, h⟩

theorem Recut.optional_digit {a b : Char} (ha : isWhitespace a = false)
    (hb : isWhitespace b = false) (hdigits : isAsciiDigit a = false ∧ isAsciiDigit b = false)
    (hstop : Stops post') (h : Recut post post' m s s')
    (hdigit : digitAt (optionalOf a b s').peek = true) :
    digitAt (optionalOf a b s).peek = true := by
  rw [optionalOf] at hdigit ⊢
  by_cases hpeek' : s'.peek = some a ∨ s'.peek = some b
  · rw [if_pos hpeek'] at hdigit
    cases hpeek' with
    | inl hpeek' =>
      obtain ⟨hpeek, m₁, _, hm⟩ := h.forward hstop ha hpeek'
      rw [if_pos (.inl hpeek)]
      exact hm.digit_forward hstop hdigit
    | inr hpeek' =>
      obtain ⟨hpeek, m₁, _, hm⟩ := h.forward hstop hb hpeek'
      rw [if_pos (.inr hpeek)]
      exact hm.digit_forward hstop hdigit
  · rw [if_neg hpeek'] at hdigit
    obtain ⟨ch, hpeek, hch⟩ := peek_of_digitAt hdigit
    have hpeek := (h.forward hstop (digit_not_space hch) hpeek).1
    have hno : ¬(s.peek = some a ∨ s.peek = some b) := by
      rw [hpeek]
      rintro (heq | heq)
      · rw [Option.some_inj.mp heq, hdigits.1] at hch
        exact Bool.false_ne_true hch
      · rw [Option.some_inj.mp heq, hdigits.2] at hch
        exact Bool.false_ne_true hch
    rw [if_neg hno]
    exact digitAt_of_peek hpeek hch

theorem optionalOf_leads (a b : Char) (s : Lexer) : Leads s (optionalOf a b s) := by
  rw [optionalOf]
  by_cases hpeek : s.peek = some a ∨ s.peek = some b
  · rw [if_pos hpeek]
    obtain ⟨x, hx⟩ := passes_of_peek_or hpeek
    exact hx.leads
  · rw [if_neg hpeek]
    exact ⟨[], rfl⟩

theorem Leads.trans {u : Lexer} (h : Leads s t) (h' : Leads t u) : Leads s u := by
  obtain ⟨x, hx⟩ := h
  obtain ⟨y, hy⟩ := h'
  exact ⟨x ++ y, by rw [hx, hy, List.append_assoc]⟩

def exponentDigits (s : Lexer) : Lexer := optionalOf '+' '-' s.advance

theorem exponent_eq (s : Lexer) : exponent s =
    if (s.peek = some 'e' ∨ s.peek = some 'E') ∧ digitAt (exponentDigits s).peek = true then
      (exponentDigits s).consumeWhile isAsciiDigit
    else s := by
  rw [exponent]
  by_cases hmark : s.peek = some 'e' ∨ s.peek = some 'E'
  · by_cases hdigit : digitAt (exponentDigits s).peek = true
    · rw [if_pos (show _ ∧ _ from ⟨hmark, hdigit⟩)]
      exact (if_pos hmark).trans (if_pos hdigit)
    · rw [if_neg (show ¬(_ ∧ _) from fun h => hdigit h.2)]
      exact (if_pos hmark).trans (if_neg hdigit)
  · rw [if_neg hmark, if_neg fun h => hmark h.1]

theorem Recut.mark_back {a b : Char} (h : Recut post post' m s s') (ht : t.rest = m' ++ post)
    (hmark : s.peek = some a ∨ s.peek = some b) (hread : Leads s.advance t) :
    (s'.peek = some a ∨ s'.peek = some b) ∧ ∃ m₁, Recut post post' m₁ s.advance s'.advance := by
  cases hmark with
  | inl hpeek =>
    obtain ⟨hpeek', m₁, _, hm⟩ := h.back ht hpeek hread
    exact ⟨.inl hpeek', m₁, hm⟩
  | inr hpeek =>
    obtain ⟨hpeek', m₁, _, hm⟩ := h.back ht hpeek hread
    exact ⟨.inr hpeek', m₁, hm⟩

theorem exponent_recut (hstop : Stops post') (h : Recut post post' m s s')
    (ht : (exponent s).rest = m' ++ post) : Recut post post' m' (exponent s) (exponent s') := by
  rw [exponent_eq] at ht ⊢
  rw [exponent_eq]
  by_cases hexponent : (s.peek = some 'e' ∨ s.peek = some 'E') ∧
      digitAt (exponentDigits s).peek = true
  · rw [if_pos hexponent] at ht ⊢
    have hread : Leads (exponentDigits s) ((exponentDigits s).consumeWhile isAsciiDigit) :=
      consumeWhile_leads _ _
    obtain ⟨hmark, m₁, hm⟩ := h.mark_back ht hexponent.1 ((optionalOf_leads _ _ _).trans hread)
    obtain ⟨m₂, hm⟩ := hm.optional rfl rfl hstop ht hread
    rw [if_pos ⟨hmark, hm.digit_back hexponent.2 ht⟩]
    exact digits_recut hstop hm ht
  · rw [if_neg hexponent] at ht ⊢
    have hno : ¬((s'.peek = some 'e' ∨ s'.peek = some 'E') ∧
        digitAt (exponentDigits s').peek = true) := by
      rintro ⟨hpeek | hpeek, hdigit⟩
      · obtain ⟨hpeek', m₁, _, hm⟩ := h.forward hstop rfl hpeek
        exact hexponent ⟨.inl hpeek', hm.optional_digit rfl rfl ⟨rfl, rfl⟩ hstop hdigit⟩
      · obtain ⟨hpeek', m₁, _, hm⟩ := h.forward hstop rfl hpeek
        exact hexponent ⟨.inr hpeek', hm.optional_digit rfl rfl ⟨rfl, rfl⟩ hstop hdigit⟩
    rw [if_neg hno]
    exact h.unread ht

/-- What a lexer has read in front of a cut leads up to it. -/
theorem Leads.common {x : List Char} (h : s.rest = x ++ t.rest) (ht : t.rest = m' ++ post) :
    s.rest = (x ++ m') ++ post := by
  rw [h, ht, List.append_assoc]

theorem numberStop_recut (hstop : Stops post') (h : Recut post post' m s s')
    (ht : (exponent (fraction (s.consumeWhile isAsciiDigit))).rest = m' ++ post) :
    Recut post post' m' (exponent (fraction (s.consumeWhile isAsciiDigit)))
      (exponent (fraction (s'.consumeWhile isAsciiDigit))) := by
  obtain ⟨y, hy⟩ := fraction_passes (s.consumeWhile isAsciiDigit)
  obtain ⟨z, hz⟩ := exponent_passes (fraction (s.consumeWhile isAsciiDigit))
  have hfraction := Leads.common hz.rest ht
  have hdigits := Leads.common hy.rest hfraction
  exact exponent_recut hstop (fraction_recut hstop (digits_recut hstop h hdigits) hfraction) ht

/-- The text of a token whose first character is read already. -/
theorem Recut.slice {ch : Char} {t' : Lexer} {start start' : Lexer} {x x' : List Char}
    (hstart : start.rest = ch :: s.rest) (hstart' : start'.rest = ch :: s'.rest)
    (h : Recut post post' m s s') (h' : Recut post post' m' t t')
    (hx : s.rest = x ++ t.rest) (hx' : s'.rest = x' ++ t'.rest) :
    start.slice t = start'.slice t' := by
  have heq := (h.text h' hx hx').2
  subst heq
  rw [Lexer.slice, hstart, hx, Lexer.slice, hstart', hx']
  simp only [List.length_cons, List.length_append]
  rw [show x.length + t.rest.length + 1 - t.rest.length = x.length + 1 by omega,
    show x.length + t'.rest.length + 1 - t'.rest.length = x.length + 1 by omega,
    List.take_succ_cons, List.take_succ_cons, List.take_left, List.take_left]

theorem identifier_not_space {ch : Char} (h : isIdentifierPart ch = true) :
    isWhitespace ch = false := by
  simp only [isIdentifierPart, isIdentifierStart, Bool.or_eq_true, Bool.and_eq_true,
    decide_eq_true_eq, beq_iff_eq] at h
  rcases h with (((⟨hlow, hhigh⟩ | ⟨hlow, hhigh⟩) | rfl) | rfl) | hdigit
  · have hlow : 97 ≤ ch.toNat := UInt32.le_iff_toNat_le.mp hlow
    have hhigh : ch.toNat ≤ 122 := UInt32.le_iff_toNat_le.mp hhigh
    simp only [isWhitespace, Bool.or_eq_false_iff, Bool.and_eq_false_iff, decide_eq_false_iff_not,
      beq_eq_false_iff_ne]
    omega
  · have hlow : 65 ≤ ch.toNat := UInt32.le_iff_toNat_le.mp hlow
    have hhigh : ch.toNat ≤ 90 := UInt32.le_iff_toNat_le.mp hhigh
    simp only [isWhitespace, Bool.or_eq_false_iff, Bool.and_eq_false_iff, decide_eq_false_iff_not,
      beq_eq_false_iff_ne]
    omega
  · rfl
  · rfl
  · exact digit_not_space hdigit

theorem Leads.refl (s : Lexer) : Leads s s := ⟨[], rfl⟩

theorem matchOr_recut {matched unmatched kind : TokenKind} {expected : Char}
    (hexpected : isWhitespace expected = false) (hstop : Stops post') (h : Recut post post' m s s')
    (ht : t.rest = m' ++ post) (hrun : matchOr s matched unmatched expected = (kind, t)) :
    ∃ t', matchOr s' matched unmatched expected = (kind, t') ∧ Recut post post' m' t t' := by
  rw [matchOr, Lexer.matchChar] at hrun
  rw [matchOr, Lexer.matchChar]
  by_cases hpeek : s.peek = some expected
  · rw [if_pos hpeek] at hrun
    obtain ⟨rfl, rfl⟩ := Prod.mk.inj hrun
    obtain ⟨hpeek', m₁, _, hm⟩ := h.back ht hpeek (.refl _)
    rw [if_pos hpeek']
    exact ⟨_, rfl, hm.unread ht⟩
  · rw [if_neg hpeek] at hrun
    obtain ⟨rfl, rfl⟩ := Prod.mk.inj hrun
    rw [if_neg fun hpeek' => hpeek (h.forward hstop hexpected hpeek').1]
    exact ⟨_, rfl, h.unread ht⟩

theorem equalsChain_recut {none one two kind : TokenKind} (hstop : Stops post')
    (h : Recut post post' m s s') (ht : t.rest = m' ++ post)
    (hrun : equalsChain s none one two = (kind, t)) :
    ∃ t', equalsChain s' none one two = (kind, t') ∧ Recut post post' m' t t' := by
  rw [equalsChain] at hrun ⊢
  by_cases hone : s.peek = some '='
  · rw [if_pos hone] at hrun
    by_cases htwo : s.advance.peek = some '='
    · rw [if_pos htwo] at hrun
      obtain ⟨rfl, rfl⟩ := Prod.mk.inj hrun
      obtain ⟨hone', m₁, _, hm⟩ := h.back ht hone (Lexer.passes_advance htwo).leads
      obtain ⟨htwo', m₂, _, hm⟩ := hm.back ht htwo (.refl _)
      rw [if_pos hone', if_pos htwo']
      exact ⟨_, rfl, hm.unread ht⟩
    · rw [if_neg htwo] at hrun
      obtain ⟨rfl, rfl⟩ := Prod.mk.inj hrun
      obtain ⟨hone', m₁, _, hm⟩ := h.back ht hone (.refl _)
      rw [if_pos hone', if_neg fun htwo' => htwo (hm.forward hstop rfl htwo').1]
      exact ⟨_, rfl, hm.unread ht⟩
  · rw [if_neg hone] at hrun
    obtain ⟨rfl, rfl⟩ := Prod.mk.inj hrun
    rw [if_neg fun hone' => hone (h.forward hstop rfl hone').1]
    exact ⟨_, rfl, h.unread ht⟩

theorem doubled_recut {start start' : Lexer} {ch : Char} {kind result : TokenKind}
    (h : Recut post post' m s s') (ht : t.rest = m' ++ post)
    (hrun : doubled start ch kind s = .ok (result, t)) :
    ∃ t', doubled start' ch kind s' = .ok (result, t') ∧ Recut post post' m' t t' := by
  rw [doubled] at hrun
  by_cases hpeek : s.peek = some ch
  · rw [if_pos hpeek] at hrun
    cases hrun
    obtain ⟨hpeek', m₁, _, hm⟩ := h.back ht hpeek (.refl _)
    refine ⟨s'.advance, ?_, hm.unread ht⟩
    rw [doubled, if_pos hpeek']
  · rw [if_neg hpeek] at hrun
    cases hrun

theorem cons_of_leads {ch : Char} {rest : List Char} (h : ch :: rest = m ++ post)
    (ht : t.rest = m' ++ post) {x : List Char} (hx : rest = x ++ t.rest) :
    ∃ m₁, m = ch :: m₁ ∧ rest = m₁ ++ post := by
  cases m with
  | nil =>
    have hlength := congrArg List.length h
    rw [hx, ht, List.length_cons, List.length_append, List.length_append, List.nil_append]
      at hlength
    omega
  | cons first m =>
    injection h with hfirst hrest
    subst hfirst
    exact ⟨m, rfl, hrest⟩

/-- A string is read up to its quote, whatever follows. -/
theorem stringLiteralFrom_recut (start start' : Position) (quote : Char) (rest : List Char)
    (position position' : Position) (value : List Char) {kind : TokenKind} (hrest : rest = m ++ post)
    (ht : t.rest = m' ++ post) (h : stringLiteralFrom start quote rest position value = .ok (kind, t)) :
    ∃ t', stringLiteralFrom start' quote (m ++ post') position' value = .ok (kind, t') ∧
      Recut post post' m' t t' := by
  fun_induction stringLiteralFrom start quote rest position value generalizing m position' with
  | case1 | case3 | case4 => cases h
  | case2 rest position value =>
    cases h
    obtain ⟨m₁, rfl, hm⟩ := cons_of_leads (x := []) hrest ht rfl
    refine ⟨⟨m₁ ++ post', Lexer.step quote position'⟩, ?_, ?_⟩
    · rw [List.cons_append, stringLiteralFrom.eq_def]
      exact if_pos rfl
    · exact Recut.unread ⟨hm, rfl⟩ ht
  | case5 position value escaped rest hquote hline ih =>
    obtain ⟨x, hx⟩ := stringLiteralFrom_passes _ _ _ _ _ h
    obtain ⟨m₁, rfl, hm⟩ := cons_of_leads (x := escaped :: x) hrest ht (congrArg (escaped :: ·) hx.rest)
    obtain ⟨m₂, rfl, hm₂⟩ := cons_of_leads hm ht hx.rest
    obtain ⟨t', hrun, hrecut⟩ := ih (Lexer.step escaped (Lexer.step '\\' position')) hm₂ h
    refine ⟨t', ?_, hrecut⟩
    rw [List.cons_append, List.cons_append, stringLiteralFrom.eq_def]
    exact (if_neg hquote).trans ((if_neg hline).trans ((if_pos rfl).trans hrun))
  | case6 ch rest position value hquote hline hescape ih =>
    obtain ⟨x, hx⟩ := stringLiteralFrom_passes _ _ _ _ _ h
    obtain ⟨m₁, rfl, hm⟩ := cons_of_leads hrest ht hx.rest
    obtain ⟨t', hrun, hrecut⟩ := ih (Lexer.step ch position') hm h
    refine ⟨t', ?_, hrecut⟩
    rw [List.cons_append, stringLiteralFrom.eq_def]
    exact (if_neg hquote).trans ((if_neg hline).trans ((if_neg hescape).trans hrun))

theorem tokenRule_either {ch expected : Char} {matched unmatched : TokenKind}
    (h : tokenRule ch = .either matched unmatched expected) : isWhitespace expected = false := by
  unfold tokenRule at h
  by_cases hstart : isIdentifierStart ch = true
  · rw [if_pos hstart] at h
    exact nomatch h
  · rw [if_neg hstart] at h
    by_cases hdigit : isAsciiDigit ch = true
    · rw [if_pos hdigit] at h
      exact nomatch h
    · rw [if_neg hdigit] at h
      split at h
      all_goals cases h
      all_goals rfl

theorem tokenKind_recut {start start' : Lexer} {ch : Char} {kind : TokenKind} (hstop : Stops post')
    (hstart : start.rest = ch :: s.rest) (hstart' : start'.rest = ch :: s'.rest)
    (h : Recut post post' m s s') (ht : t.rest = m' ++ post)
    (hrun : tokenKind start ch s = .ok (kind, t)) :
    ∃ t', tokenKind start' ch s' = .ok (kind, t') ∧ Recut post post' m' t t' := by
  rw [tokenKind_eq] at hrun
  cases hrule : tokenRule ch with
  | identifier =>
    rw [hrule] at hrun
    cases hrun
    have hstop := h.consumeWhile (.inr ⟨hstop, fun _ => identifier_not_space⟩) ht
    obtain ⟨x, hx⟩ := s.consumeWhile_passes isIdentifierPart
    obtain ⟨x', hx'⟩ := s'.consumeWhile_passes isIdentifierPart
    refine ⟨s'.consumeWhile isIdentifierPart, ?_, hstop⟩
    rw [tokenKind_eq, hrule, TokenRule.run, identifierOrKeyword,
      ← Recut.slice hstart hstart' h hstop hx.rest hx'.rest]
  | number =>
    rw [hrule] at hrun
    cases hrun
    have hstop := numberStop_recut hstop h ht
    obtain ⟨x, hx⟩ := numberLiteral_passes start s
    obtain ⟨x', hx'⟩ := numberLiteral_passes start' s'
    refine ⟨_, ?_, hstop⟩
    rw [tokenKind_eq, hrule, TokenRule.run, numberLiteral,
      ← Recut.slice hstart hstart' h hstop hx.rest hx'.rest]
  | string =>
    rw [hrule] at hrun
    obtain ⟨t', hrun', hrecut⟩ := stringLiteralFrom_recut start.position start'.position ch s.rest
      s.position s'.position [] h.left ht hrun
    refine ⟨t', ?_, hrecut⟩
    rw [tokenKind_eq, hrule, TokenRule.run, stringLiteral, h.right]
    exact hrun'
  | either matched unmatched expected =>
    rw [hrule] at hrun
    obtain ⟨t', hrun', hrecut⟩ := matchOr_recut (tokenRule_either hrule) hstop h ht
      (Except.ok.inj hrun)
    refine ⟨t', ?_, hrecut⟩
    rw [tokenKind_eq, hrule, TokenRule.run, hrun']
  | equals =>
    rw [hrule, TokenRule.run] at hrun
    rw [tokenKind_eq, hrule, TokenRule.run]
    by_cases harrow : s.peek = some '>'
    · rw [if_pos harrow] at hrun
      cases hrun
      obtain ⟨harrow', m₁, _, hm⟩ := h.back ht harrow (.refl _)
      rw [if_pos harrow']
      exact ⟨_, rfl, hm.unread ht⟩
    · rw [if_neg harrow] at hrun
      rw [if_neg fun harrow' => harrow (h.forward hstop rfl harrow').1]
      obtain ⟨t', hrun', hrecut⟩ := equalsChain_recut hstop h ht (Except.ok.inj hrun)
      exact ⟨t', congrArg Except.ok hrun', hrecut⟩
  | bang =>
    rw [hrule, TokenRule.run] at hrun
    rw [tokenKind_eq, hrule, TokenRule.run]
    obtain ⟨t', hrun', hrecut⟩ := equalsChain_recut hstop h ht (Except.ok.inj hrun)
    exact ⟨t', congrArg Except.ok hrun', hrecut⟩
  | doubled kind =>
    rw [hrule] at hrun
    rw [tokenKind_eq, hrule]
    exact doubled_recut h ht hrun
  | single kind =>
    rw [hrule] at hrun
    cases hrun
    refine ⟨s', ?_, h.unread ht⟩
    rw [tokenKind_eq, hrule, TokenRule.run]
  | unexpected =>
    rw [hrule] at hrun
    cases hrun

theorem skipBlockCommentFrom_recut (hstop : Stops post') (start start' : Position) (rest : List Char)
    (position position' : Position) (hrest : rest = m ++ post) (ht : t.rest = m' ++ post)
    (h : skipBlockCommentFrom start rest position = .ok t) :
    ∃ t', skipBlockCommentFrom start' (m ++ post') position' = .ok t' ∧
      Recut post post' m' t t' := by
  fun_induction skipBlockCommentFrom start rest position generalizing m position' with
  | case1 => cases h
  | case2 position rest =>
    cases h
    obtain ⟨m₁, rfl, hm⟩ := cons_of_leads (x := ['/']) hrest ht rfl
    obtain ⟨m₂, rfl, hm₂⟩ := cons_of_leads (x := []) hm ht rfl
    refine ⟨_, rfl, Recut.unread ⟨hm₂, rfl⟩ ht⟩
  | case3 ch rest position hclose ih =>
    obtain ⟨x, hx⟩ := skipBlockCommentFrom_passes _ _ _ h
    obtain ⟨m₁, rfl, hm⟩ := cons_of_leads hrest ht hx.rest
    obtain ⟨t', hrun, hrecut⟩ := ih (Lexer.step ch position') hm h
    refine ⟨t', ?_, hrecut⟩
    rw [List.cons_append, skipBlockCommentFrom.eq_3]
    · exact hrun
    · intro r hstar hslash
      cases m₁ with
      | nil => exact Bool.false_ne_true (hstop '/' r hslash)
      | cons first m₁ =>
        injection hslash with hfirst _
        exact hclose (m₁ ++ post) hstar (by rw [hm, hfirst]; rfl)

theorem Lexer.Passes.head {x : List Char} (h : s.Passes x t) (ht : t.rest = m' ++ post) :
    s.rest = x ++ m' ++ post := by
  rw [h.rest, ht, List.append_assoc]

theorem two_of_peekNext {ch : Char} (h : s.peekNext = some ch) :
    s.rest.length = s.advance.advance.rest.length + 2 := by
  obtain ⟨rest, position⟩ := s
  match rest with
  | [] => exact nomatch h
  | [_] => exact nomatch h
  | _ :: _ :: rest => rfl

theorem Recut.back_two {ch next : Char} (h : Recut post post' m s s') (ht : t.rest = m' ++ post)
    (hpeek : s.peek = some ch) (hnext : s.peekNext = some next)
    (hread : Leads s.advance.advance t) : s'.peek = some ch ∧ s'.peekNext = some next ∧
      ∃ m₂, Recut post post' m₂ s.advance.advance s'.advance.advance := by
  have hnextPeek := hnext
  rw [peekNext_eq hpeek] at hnextPeek
  obtain ⟨hpeek', m₁, _, hm⟩ :=
    h.back ht hpeek ((Lexer.passes_advance hnextPeek).leads.trans hread)
  obtain ⟨hnext', m₂, _, hm⟩ := hm.back ht hnextPeek hread
  exact ⟨hpeek', by rw [peekNext_eq hpeek', hnext'], m₂, hm⟩

/-- Trivia in front of a token are skipped with it. -/
theorem skipTriviaWithin_recut (turns turns' : ℕ) (hstop : Stops post') (hm' : m' ≠ [])
    (hturns : s.rest.length < turns) (hturns' : s'.rest.length < turns')
    (h : Recut post post' m s s') (ht : t.rest = m' ++ post)
    (hrun : skipTriviaWithin turns s = .ok t) :
    ∃ t', skipTriviaWithin turns' s' = .ok t' ∧ Recut post post' m' t t' := by
  induction turns generalizing turns' m s s' with
  | zero => exact absurd hturns (Nat.not_lt_zero _)
  | succ turns ih =>
    obtain ⟨turns', rfl⟩ := Nat.exists_eq_add_of_le' (show 1 ≤ turns' by omega)
    rw [skipTriviaWithin] at hrun
    cases hpeek : s.peek with
    | none =>
      rw [hpeek] at hrun
      cases hrun
      rw [Lexer.rest_eq_nil hpeek] at ht
      exact absurd (List.append_eq_nil_iff.mp ht.symm).1 hm'
    | some ch =>
      rw [hpeek] at hrun
      have hlength := (Lexer.passes_advance hpeek).length
      rw [List.length_singleton] at hlength
      simp only at hrun
      by_cases hspace : isWhitespace ch = true
      · rw [if_pos hspace] at hrun
        obtain ⟨x, hx⟩ := skipTriviaWithin_passes _ _ hrun
        obtain ⟨hpeek', m₁, _, hm⟩ := h.back ht hpeek hx.leads
        have hlength' := (Lexer.passes_advance hpeek').length
        rw [List.length_singleton] at hlength'
        obtain ⟨t', hrun', hrecut⟩ := ih turns' (by omega) (by omega) hm hrun
        refine ⟨t', ?_, hrecut⟩
        rw [skipTriviaWithin, hpeek']
        exact (if_pos hspace).trans hrun'
      · rw [if_neg hspace] at hrun
        by_cases hline : ch = '/' ∧ s.peekNext = some '/'
        · rw [if_pos hline] at hrun
          obtain ⟨x, hx⟩ := skipTriviaWithin_passes _ _ hrun
          have hread := (consumeWhile_leads s.advance.advance fun ch => ch ≠ '\n').trans hx.leads
          obtain ⟨hch', hnext', m₂, hm⟩ := h.back_two ht hpeek hline.2 hread
          have hcomment := hx.head ht
          have hrest := hm.consumeWhile (.inl fun hnil => hm' (List.append_eq_nil_iff.mp hnil).2)
            hcomment
          obtain ⟨y, hy⟩ := s.advance.advance.consumeWhile_passes fun ch => ch ≠ '\n'
          obtain ⟨y', hy'⟩ := s'.advance.advance.consumeWhile_passes fun ch => ch ≠ '\n'
          have hlength := hy.length
          have hlength' := hy'.length
          have htwo := two_of_peekNext hline.2
          have htwo' := two_of_peekNext hnext'
          obtain ⟨t', hrun', hrecut⟩ := ih turns' (by omega) (by omega) hrest hrun
          refine ⟨t', ?_, hrecut⟩
          rw [skipTriviaWithin, hch']
          exact (if_neg hspace).trans ((if_pos ⟨hline.1, hnext'⟩).trans hrun')
        · rw [if_neg hline] at hrun
          by_cases hblock : ch = '/' ∧ s.peekNext = some '*'
          · rw [if_pos hblock] at hrun
            cases hcomment : skipBlockComment s with
            | error error =>
              rw [hcomment] at hrun
              cases hrun
            | ok u =>
              rw [hcomment] at hrun
              obtain ⟨x, hx⟩ := skipTriviaWithin_passes _ _ hrun
              obtain ⟨y, hy⟩ := skipBlockCommentFrom_passes _ _ _ hcomment
              obtain ⟨hch', hnext', m₂, hm⟩ := h.back_two ht hpeek hblock.2 (hy.trans hx).leads
              obtain ⟨u', hcomment', hu⟩ := skipBlockCommentFrom_recut hstop _ s'.position _ _
                s'.advance.advance.position hm.left (hx.head ht) hcomment
              rw [← hm.right] at hcomment'
              obtain ⟨y', hy'⟩ := skipBlockCommentFrom_passes _ _ _ hcomment'
              have hlength := hy.length
              have hlength' := hy'.length
              have htwo := two_of_peekNext hblock.2
              have htwo' := two_of_peekNext hnext'
              obtain ⟨t', hrun', hrecut⟩ := ih turns' (by simp only at hlength; omega)
                (by simp only at hlength'; omega) hu hrun
              refine ⟨t', ?_, hrecut⟩
              have hno : ¬(ch = '/' ∧ s'.peekNext = some '/') := by
                rw [hnext']
                exact fun hslash => absurd hslash.2 (by decide)
              rw [skipTriviaWithin, hch']
              refine (if_neg hspace).trans ((if_neg hno).trans ((if_pos ⟨hblock.1, hnext'⟩).trans ?_))
              rw [show skipBlockComment s' = .ok u' from hcomment']
              exact hrun'
          · rw [if_neg hblock] at hrun
            have hst := Except.ok.inj hrun
            subst hst
            have hs := h.unread ht
            obtain ⟨first, m', rfl⟩ := List.exists_cons_of_ne_nil hm'
            obtain ⟨hpeek', hch', hm⟩ := hs.of_cons
            have hfirst := Option.some_inj.mp (hpeek'.symm.trans hpeek)
            subst hfirst
            have hno : ∀ next, isWhitespace next = false → s.peekNext ≠ some next →
                s'.peekNext ≠ some next := by
              intro next hnext hpeekNext hpeekNext'
              rw [peekNext_eq hch'] at hpeekNext'
              rw [peekNext_eq hpeek] at hpeekNext
              exact hpeekNext (hm.forward hstop hnext hpeekNext').1
            refine ⟨s', ?_, hs⟩
            rw [skipTriviaWithin, hch']
            refine (if_neg hspace).trans ((if_neg ?_).trans (if_neg ?_))
            · exact fun h => hno '/' rfl (fun hnext => hline ⟨h.1, hnext⟩) h.2
            · exact fun h => hno '*' rfl (fun hnext => hblock ⟨h.1, hnext⟩) h.2

theorem nextToken_recut {ch : Char} {token : Token} (hstop : Stops post')
    (h : Recut post post' m s s') (hpeek : s.peek = some ch) (ht : t.rest = m' ++ post)
    (hrun : nextToken s ch = .ok (token, t)) :
    ∃ token' t', s'.peek = some ch ∧ nextToken s' ch = .ok (token', t') ∧
      token.kind = token'.kind ∧ Recut post post' m' t t' := by
  rw [nextToken] at hrun
  cases hkind : tokenKind s ch s.advance with
  | error error =>
    rw [hkind] at hrun
    cases hrun
  | ok result =>
    obtain ⟨kind, stop⟩ := result
    rw [hkind] at hrun
    cases hrun
    obtain ⟨x, hx⟩ := tokenKind_passes hkind
    obtain ⟨hpeek', m₁, _, hm⟩ := h.back ht hpeek hx.leads
    obtain ⟨t', hrun', hrecut⟩ := tokenKind_recut hstop (rest_of_peek hpeek) (rest_of_peek hpeek')
      hm ht hkind
    refine ⟨⟨kind, ⟨s'.position, t'.position⟩⟩, t', hpeek', ?_, rfl, hrecut⟩
    rw [nextToken, hrun']
    rfl

/-- One token of a text that starts at two positions. -/
structure Moved (p p' : Position) (a b : Token) : Prop where
  kind : a.kind = b.kind
  span : ∃ x y, a.span = ⟨walk x p, walk y p⟩ ∧ b.span = ⟨walk x p', walk y p'⟩

theorem Lexes.recut {tokens : List Token} {p p' : Position} (hstop : Stops post')
    (hlexes : Lexes s tokens t) {x : List Char} (h : Recut post post' m s s')
    (ht : t.rest = post) (hs : s.position = walk x p) (hs' : s'.position = walk x p') :
    ∃ tokens' t', Lexes s' tokens' t' ∧ Recut post post' [] t t' ∧
      List.Forall₂ (Moved p p') tokens tokens' := by
  induction hlexes generalizing m s' x with
  | nil s => exact ⟨[], s', .nil s', h.unread ht, .nil⟩
  | @cons s s₁ s₂ t ch token tokens htrivia hpeek htoken hrest ih =>
    obtain ⟨y, hy⟩ := hrest.passes
    obtain ⟨z, hz, hspan⟩ := nextToken_passes hpeek htoken
    have hs₂ : s₂.rest = y ++ post := by rw [hy.rest, ht]
    have hs₁ := hz.head hs₂
    obtain ⟨s₁', htrivia', hm₁⟩ := skipTriviaWithin_recut _ _ hstop (List.cons_ne_nil _ _)
      (Nat.lt_succ_self _) (Nat.lt_succ_self s'.rest.length) h hs₁ htrivia
    obtain ⟨token', s₂', hpeek', htoken', hkind, hm₂⟩ := nextToken_recut hstop hm₁ hpeek hs₂ htoken
    obtain ⟨w, hw⟩ := skipTrivia_passes htrivia
    obtain ⟨w', hw'⟩ := skipTrivia_passes htrivia'
    obtain ⟨z', hz', hspan'⟩ := nextToken_passes hpeek' htoken'
    have hsame := (h.text hm₁ hw.rest hw'.rest).2
    have hsame' := (hm₁.text hm₂ hz.rest hz'.rest).2
    subst hsame
    rw [← hsame'] at hz'
    have hstart : s₁.position = walk (x ++ w) p := by rw [hw.position, hs, walk_append]
    have hstart' : s₁'.position = walk (x ++ w) p' := by rw [hw'.position, hs', walk_append]
    have hend : s₂.position = walk (x ++ w ++ ch :: z) p := by
      rw [hz.position, hstart, walk_append (x ++ w)]
    have hend' : s₂'.position = walk (x ++ w ++ ch :: z) p' := by
      rw [hz'.position, hstart', walk_append (x ++ w)]
    obtain ⟨tokens', t', hlexes', hend, hmoved⟩ := ih hm₂ ht hend hend'
    refine ⟨token' :: tokens', t', .cons htrivia' hpeek' htoken' hlexes', hend, .cons ?_ hmoved⟩
    refine ⟨hkind, x ++ w, x ++ w ++ ch :: z, ?_, ?_⟩
    · rw [hspan, hstart, ‹s₂.position = _›]
    · rw [hspan', hstart', ‹s₂'.position = _›]

theorem relocate_of_moved {p p' : Position} {φ : Position → Position} {tokens tokens' : List Token}
    (hφ : ∀ x, φ (walk x p) = walk x p') (h : List.Forall₂ (Moved p p') tokens tokens') :
    tokens.map (Token.relocate φ) = tokens' := by
  induction h with
  | nil => rfl
  | @cons a b tokens tokens' hmoved _ ih =>
    obtain ⟨kind, span⟩ := a
    obtain ⟨kind', span'⟩ := b
    obtain ⟨hkind, x, y, hspan, hspan'⟩ := hmoved
    simp only at hkind hspan hspan'
    rw [List.map_cons, ih, Token.relocate, Span.relocate, hspan, hspan']
    simp only [hφ, hkind]

end Readers

end Tsvm.Lexing
