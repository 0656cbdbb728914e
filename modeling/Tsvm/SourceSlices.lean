import Mathlib.Data.List.TakeWhile
import Tsvm.Modules
import Tsvm.TokenSlices

set_option autoImplicit false

/-!
# Source slices

The text from the first to the last of some tokens of a source lexes on its own
to these tokens, with positions that count from its own start.
-/
namespace Tsvm.Lexing
open Modules Parsing

def origin : Position := ⟨0, 1, 1⟩

/-- A position of a text that starts at `p`. -/
def place (p q : Position) : Position :=
  ⟨p.byte + q.byte, p.line + (q.line - 1), if q.line = 1 then p.column + (q.column - 1) else q.column⟩

def unplace (p q : Position) : Position :=
  ⟨q.byte - p.byte, q.line - p.line + 1, if q.line = p.line then q.column - p.column + 1 else q.column⟩

/-- Lines and columns count from one. -/
structure Counted (q : Position) : Prop where
  line : 1 ≤ q.line
  column : 1 ≤ q.column

theorem counted_origin : Counted origin := ⟨Nat.le_refl 1, Nat.le_refl 1⟩

theorem Counted.step {q : Position} (h : Counted q) (ch : Char) : Counted (Lexer.step ch q) := by
  have hline := h.line
  rw [Lexer.step]
  by_cases hch : ch = '\n'
  · rw [if_pos hch]
    exact ⟨Nat.le_add_left 1 _, Nat.le_refl 1⟩
  · rw [if_neg hch]
    exact ⟨hline, Nat.le_add_left 1 _⟩

theorem place_step {q : Position} (h : Counted q) (p : Position) (ch : Char) :
    Lexer.step ch (place p q) = place p (Lexer.step ch q) := by
  have hline := h.line
  have hcolumn := h.column
  rw [Lexer.step, Lexer.step]
  by_cases hch : ch = '\n'
  · rw [if_pos hch, if_pos hch]
    simp only [place, Position.mk.injEq]
    refine ⟨by omega, by omega, ?_⟩
    rw [if_neg (by omega)]
  · rw [if_neg hch, if_neg hch]
    simp only [place, Position.mk.injEq]
    refine ⟨by omega, trivial, ?_⟩
    by_cases hfirst : q.line = 1
    · rw [if_pos hfirst, if_pos hfirst]
      omega
    · rw [if_neg hfirst, if_neg hfirst]

theorem walk_place {q : Position} (h : Counted q) (p : Position) (x : List Char) :
    walk x (place p q) = place p (walk x q) := by
  induction x generalizing q with
  | nil => rfl
  | cons ch x ih =>
    change walk x (Lexer.step ch (place p q)) = place p (walk x (Lexer.step ch q))
    rw [place_step h, ih (h.step ch)]

theorem place_origin (p : Position) : place p origin = p := rfl

theorem place_walk (p : Position) (x : List Char) : place p (walk x origin) = walk x p := by
  rw [← walk_place counted_origin, place_origin]

theorem Counted.walk {q : Position} (h : Counted q) (x : List Char) : Counted (walk x q) := by
  induction x generalizing q with
  | nil => exact h
  | cons ch x ih => exact ih (h.step ch)

theorem unplace_place {q : Position} (h : Counted q) (p : Position) :
    unplace p (place p q) = q := by
  have hline := h.line
  have hcolumn := h.column
  obtain ⟨byte, line, column⟩ := q
  simp only at hline hcolumn
  simp only [unplace, place, Position.mk.injEq]
  refine ⟨by omega, by omega, ?_⟩
  by_cases hfirst : line = 1
  · rw [if_pos hfirst, if_pos (by omega)]
    omega
  · rw [if_neg hfirst, if_neg (by omega)]

theorem unplace_walk (p : Position) (x : List Char) : unplace p (walk x p) = walk x origin := by
  rw [← place_walk, unplace_place (counted_origin.walk x)]

def byteSize (text : List Char) : ℕ := (text.map Char.utf8Size).sum

theorem byteSize_cons (ch : Char) (text : List Char) :
    byteSize (ch :: text) = ch.utf8Size + byteSize text := by
  rw [byteSize, List.map_cons, List.sum_cons]
  rfl

theorem byte_walk (x : List Char) (p : Position) : (walk x p).byte = p.byte + byteSize x := by
  induction x generalizing p with
  | nil => rfl
  | cons ch x ih =>
    change (walk x (Lexer.step ch p)).byte = _
    have hbyte : (Lexer.step ch p).byte = p.byte + ch.utf8Size := by
      rw [Lexer.step]
      by_cases hch : ch = '\n'
      · rw [if_pos hch]
      · rw [if_neg hch]
    rw [ih, hbyte, byteSize_cons]
    omega

theorem byteSize_pos (ch : Char) (text : List Char) : ∃ n, byteSize (ch :: text) = n + 1 := by
  have hpos := ch.utf8Size_pos
  refine Nat.exists_eq_add_of_le' ?_
  rw [byteSize_cons]
  omega

theorem dropBytes_append (x r : List Char) : dropBytes (byteSize x) (x ++ r) = some r := by
  induction x with
  | nil =>
    change dropBytes 0 r = some r
    rw [dropBytes]
  | cons ch x ih =>
    obtain ⟨n, hn⟩ := byteSize_pos ch x
    rw [hn, List.cons_append, dropBytes]
    rw [byteSize_cons] at hn
    rw [if_pos (by omega), show n + 1 - ch.utf8Size = byteSize x by omega]
    exact ih

theorem takeBytes_append (x r : List Char) : takeBytes (byteSize x) (x ++ r) = some x := by
  induction x with
  | nil =>
    change takeBytes 0 r = some []
    rw [takeBytes]
  | cons ch x ih =>
    obtain ⟨n, hn⟩ := byteSize_pos ch x
    rw [hn, List.cons_append, takeBytes]
    rw [byteSize_cons] at hn
    rw [if_pos (by omega), show n + 1 - ch.utf8Size = byteSize x by omega, ih]
    rfl

theorem getBytes_append {source : String} {pre x post : List Char}
    (h : source.toList = pre ++ (x ++ post)) :
    getBytes source (walk pre origin).byte (walk x (walk pre origin)).byte = some x := by
  have hpre : (walk pre origin).byte = byteSize pre := by
    rw [byte_walk]
    exact Nat.zero_add _
  rw [byte_walk x, hpre, getBytes, if_pos (Nat.le_add_right _ _), Nat.add_sub_cancel_left, h,
    dropBytes_append]
  exact takeBytes_append x post

/-- The text does not end with white space. -/
def EndsVisible (x : List Char) : Prop := ∀ ch, x.getLast? = some ch → isWhitespace ch = false

def Shows (s t : Lexer) : Prop := ∃ x, s.rest = x ++ t.rest ∧ EndsVisible x

section Shows

variable {s t u : Lexer}

theorem Shows.refl (s : Lexer) : Shows s s := ⟨[], rfl, fun _ h => nomatch h⟩

theorem Shows.trans (h : Shows s t) (h' : Shows t u) : Shows s u := by
  obtain ⟨x, hx, hvisible⟩ := h
  obtain ⟨y, hy, hvisible'⟩ := h'
  refine ⟨x ++ y, by rw [hx, hy, List.append_assoc], fun ch hlast => ?_⟩
  cases hend : y.getLast? with
  | none =>
    rw [List.getLast?_append, hend, Option.none_or] at hlast
    exact hvisible ch hlast
  | some last =>
    rw [List.getLast?_append, hend, Option.some_or] at hlast
    exact hvisible' ch (hend.trans hlast)

theorem Shows.advance {ch : Char} (hpeek : s.peek = some ch) (hch : isWhitespace ch = false) :
    Shows s s.advance := by
  refine ⟨[ch], rest_of_peek hpeek, fun last hlast => ?_⟩
  rw [← Option.some_inj.mp hlast]
  exact hch

theorem Shows.consumeWhile {predicate : Char → Bool}
    (hvisible : ∀ ch, predicate ch = true → isWhitespace ch = false) (s : Lexer) :
    Shows s (s.consumeWhile predicate) := by
  refine ⟨s.rest.takeWhile predicate, ?_, fun ch hlast => ?_⟩
  · rw [Lexer.consumeWhile, consumeWhileFrom_rest, List.takeWhile_append_dropWhile]
  · have hmem := List.mem_of_getLast? hlast
    exact hvisible ch (List.mem_takeWhile_imp hmem)

theorem shows_fraction (s : Lexer) : Shows s (fraction s) := by
  rw [fraction]
  by_cases hpoint : s.peek = some '.' ∧ digitAt s.peekNext = true
  · rw [if_pos hpoint]
    exact (Shows.advance hpoint.1 rfl).trans (.consumeWhile (fun _ => digit_not_space) _)
  · rw [if_neg hpoint]
    exact .refl s

theorem shows_optionalOf {a b : Char} (ha : isWhitespace a = false) (hb : isWhitespace b = false)
    (s : Lexer) : Shows s (optionalOf a b s) := by
  rw [optionalOf]
  by_cases hpeek : s.peek = some a ∨ s.peek = some b
  · rw [if_pos hpeek]
    cases hpeek with
    | inl hpeek => exact .advance hpeek ha
    | inr hpeek => exact .advance hpeek hb
  · rw [if_neg hpeek]
    exact .refl s

theorem shows_exponent (s : Lexer) : Shows s (exponent s) := by
  rw [exponent_eq]
  by_cases hexponent : (s.peek = some 'e' ∨ s.peek = some 'E') ∧
      digitAt (exponentDigits s).peek = true
  · rw [if_pos hexponent]
    have hmark : Shows s s.advance := by
      cases hexponent.1 with
      | inl hpeek => exact .advance hpeek rfl
      | inr hpeek => exact .advance hpeek rfl
    exact hmark.trans ((shows_optionalOf rfl rfl _).trans
      (.consumeWhile (fun _ => digit_not_space) _))
  · rw [if_neg hexponent]
    exact .refl s

theorem shows_matchOr {matched unmatched : TokenKind} {expected : Char}
    (hexpected : isWhitespace expected = false) (s : Lexer) :
    Shows s (matchOr s matched unmatched expected).2 := by
  rw [matchOr, Lexer.matchChar]
  by_cases hpeek : s.peek = some expected
  · rw [if_pos hpeek]
    exact .advance hpeek hexpected
  · rw [if_neg hpeek]
    exact .refl s

theorem shows_equalsChain (none one two : TokenKind) (s : Lexer) :
    Shows s (equalsChain s none one two).2 := by
  rw [equalsChain]
  by_cases hone : s.peek = some '='
  · rw [if_pos hone]
    by_cases htwo : s.advance.peek = some '='
    · rw [if_pos htwo]
      exact (Shows.advance hone rfl).trans (.advance htwo rfl)
    · rw [if_neg htwo]
      exact .advance hone rfl
  · rw [if_neg hone]
    exact .refl s

theorem shows_stringLiteralFrom (start : Position) {quote : Char}
    (rest : List Char) (position : Position) (value : List Char) {kind : TokenKind}
    (h : stringLiteralFrom start quote rest position value = .ok (kind, t)) :
    ∃ x, rest = x ++ quote :: t.rest := by
  fun_induction stringLiteralFrom start quote rest position value with
  | case1 | case3 | case4 => cases h
  | case2 =>
    cases h
    exact ⟨[], rfl⟩
  | case5 position value escaped rest _ _ ih =>
    obtain ⟨x, hx⟩ := ih h
    exact ⟨'\\' :: escaped :: x, congrArg (fun r => '\\' :: escaped :: r) hx⟩
  | case6 ch rest position value _ _ _ ih =>
    obtain ⟨x, hx⟩ := ih h
    exact ⟨ch :: x, congrArg (ch :: ·) hx⟩

theorem tokenRule_visible {ch : Char} (h : tokenRule ch ≠ .unexpected) :
    isWhitespace ch = false := by
  unfold tokenRule at h
  by_cases hstart : isIdentifierStart ch = true
  · refine identifier_not_space ?_
    rw [isIdentifierPart, hstart]
    rfl
  · rw [if_neg hstart] at h
    by_cases hdigit : isAsciiDigit ch = true
    · exact digit_not_space hdigit
    · rw [if_neg hdigit] at h
      split at h
      case h_25 => exact absurd rfl h
      all_goals rfl

theorem shows_tokenKind {start : Lexer} {ch : Char} {kind : TokenKind}
    (h : tokenKind start ch s = .ok (kind, t)) : isWhitespace ch = false ∧ Shows s t := by
  rw [tokenKind_eq] at h
  have hch : isWhitespace ch = false := tokenRule_visible fun hrule => by
    rw [hrule] at h
    cases h
  refine ⟨hch, ?_⟩
  cases hrule : tokenRule ch with
  | identifier =>
    rw [hrule] at h
    cases h
    exact .consumeWhile (fun _ => identifier_not_space) s
  | number =>
    rw [hrule] at h
    cases h
    exact (Shows.consumeWhile (fun _ => digit_not_space) s).trans
      ((shows_fraction _).trans (shows_exponent _))
  | string =>
    rw [hrule] at h
    obtain ⟨x, hx⟩ := shows_stringLiteralFrom _ _ _ _ h
    refine ⟨x ++ [ch], by rw [hx, List.append_assoc]; rfl, fun last hlast => ?_⟩
    rw [List.getLast?_concat] at hlast
    rw [← Option.some_inj.mp hlast]
    exact hch
  | either matched unmatched expected =>
    rw [hrule] at h
    have ht : _ = t := congrArg Prod.snd (Except.ok.inj h)
    rw [← ht]
    exact shows_matchOr (tokenRule_either hrule) s
  | equals =>
    rw [hrule, TokenRule.run] at h
    by_cases harrow : s.peek = some '>'
    · rw [if_pos harrow] at h
      cases h
      exact .advance harrow rfl
    · rw [if_neg harrow] at h
      have ht : _ = t := congrArg Prod.snd (Except.ok.inj h)
      rw [← ht]
      exact shows_equalsChain _ _ _ s
  | bang =>
    rw [hrule] at h
    have ht : _ = t := congrArg Prod.snd (Except.ok.inj h)
    rw [← ht]
    exact shows_equalsChain _ _ _ s
  | doubled kind =>
    rw [hrule, TokenRule.run, doubled] at h
    by_cases hpeek : s.peek = some ch
    · rw [if_pos hpeek] at h
      cases h
      exact .advance hpeek hch
    · rw [if_neg hpeek] at h
      cases h
  | single kind =>
    rw [hrule] at h
    cases h
    exact .refl s
  | unexpected =>
    rw [hrule] at h
    cases h

theorem nextToken_shows {ch : Char} {token : Token} (hpeek : s.peek = some ch)
    (h : nextToken s ch = .ok (token, t)) : isWhitespace ch = false ∧ Shows s t := by
  rw [nextToken] at h
  cases hkind : tokenKind s ch s.advance with
  | error error =>
    rw [hkind] at h
    cases h
  | ok result =>
    obtain ⟨kind, stop⟩ := result
    rw [hkind] at h
    cases h
    obtain ⟨hch, hshows⟩ := shows_tokenKind hkind
    exact ⟨hch, (Shows.advance hpeek hch).trans hshows⟩

end Shows

section Slices

variable {s t : Lexer} {token : Token} {tokens : List Token}

theorem Lexes.lastEnd (h : Lexes s (token :: tokens) t) :
    lastEnd tokens token.span.end = t.position := by
  induction tokens generalizing s token with
  | nil =>
    cases h with
    | cons _ hpeek htoken hrest =>
      cases hrest
      obtain ⟨x, _, hspan⟩ := nextToken_passes hpeek htoken
      rw [hspan]
      rfl
  | cons next tokens ih =>
    cases h with
    | cons _ _ _ hrest => exact ih hrest

theorem Lexes.first (h : Lexes s (token :: tokens) t) : ∃ x s₁ ch r, s.Passes x s₁ ∧
    Lexes s₁ (token :: tokens) t ∧ token.span.start = s₁.position ∧ s₁.rest = ch :: r ∧
    isWhitespace ch = false := by
  cases h with
  | cons htrivia hpeek htoken hrest =>
    obtain ⟨x, hx⟩ := skipTrivia_passes htrivia
    obtain ⟨y, _, hspan⟩ := nextToken_passes hpeek htoken
    refine ⟨x, _, _, _, hx, .cons (skipTrivia_stop htrivia) hpeek htoken hrest, ?_,
      rest_of_peek hpeek, (nextToken_shows hpeek htoken).1⟩
    rw [hspan]

theorem Lexes.last (h : Lexes s (token :: tokens) t) :
    ∃ x y, s.rest = x ++ (y ++ t.rest) ∧ y ≠ [] ∧ EndsVisible y := by
  induction tokens generalizing s token with
  | nil =>
    cases h with
    | cons htrivia hpeek htoken hrest =>
      cases hrest
      obtain ⟨x, hx⟩ := skipTrivia_passes htrivia
      obtain ⟨y, hy, _⟩ := nextToken_passes hpeek htoken
      obtain ⟨z, hz, hvisible⟩ := (nextToken_shows hpeek htoken).2
      have hsame := List.append_cancel_right (hz.symm.trans hy.rest)
      exact ⟨x, z, by rw [hx.rest, hz], by rw [hsame]; exact List.cons_ne_nil _ _, hvisible⟩
  | cons next tokens ih =>
    cases h with
    | @cons _ _ _ _ ch _ _ htrivia hpeek htoken hrest =>
      obtain ⟨x, hx⟩ := skipTrivia_passes htrivia
      obtain ⟨y, hy, _⟩ := nextToken_passes hpeek htoken
      obtain ⟨x', y', hrest, hne, hvisible⟩ := ih hrest
      refine ⟨x ++ (ch :: y) ++ x', y', ?_, hne, hvisible⟩
      rw [hx.rest, hy.rest, hrest]
      simp only [List.append_assoc]

/-- The text is the tokens, from its start to its end. -/
def Spells (text : List Char) (tokens : List Token) : Prop :=
  ∃ t, Lexes ⟨text, origin⟩ tokens t ∧ t.rest = []

theorem skipTrivia_nil {s : Lexer} (h : s.rest = []) : skipTrivia s = .ok s := by
  have hpeek : s.peek = none := by
    rw [Lexer.peek, h]
    rfl
  rw [skipTrivia, skipTriviaWithin, hpeek]

theorem lex_of_spells {text : List Char} (h : Spells text tokens) :
    lex (String.ofList text) = .ok tokens := by
  obtain ⟨t, hlexes, hend⟩ := h
  refine (lex_iff _ _).mpr ⟨t, t, ?_, skipTrivia_nil hend, hend⟩
  rw [Lexer.new, String.toList_ofList]
  exact hlexes

/-- In front of white space a text spells its tokens anywhere. -/
theorem Spells.join {text : List Char} (h : Spells text tokens) {r : List Char} (hr : Stops r)
    (p : Position) : ∃ t, Lexes ⟨text ++ r, p⟩ (tokens.map (Token.relocate (place p))) t ∧
      t.rest = r := by
  obtain ⟨t, hlexes, hend⟩ := h
  have hcut : Recut [] r text ⟨text, origin⟩ ⟨text ++ r, p⟩ := ⟨(List.append_nil _).symm, rfl⟩
  obtain ⟨tokens', t', hlexes', hend', hmoved⟩ := hlexes.recut (x := []) hr hcut hend rfl rfl
  refine ⟨t', ?_, hend'.right⟩
  rw [relocate_of_moved (place_walk p) hmoved]
  exact hlexes'

theorem trim_eq_self {text : List Char} (hfirst : ∀ ch r, text = ch :: r → isWhitespace ch = false)
    (hlast : EndsVisible text) : trim text = text := by
  have hdrop : ∀ x : List Char, (∀ ch r, x = ch :: r → isWhitespace ch = false) →
      x.dropWhile isWhitespace = x := by
    intro x hx
    cases x with
    | nil => rfl
    | cons ch r => rw [List.dropWhile_cons, hx ch r rfl, if_neg Bool.false_ne_true]
  rw [trim, hdrop text hfirst, hdrop, List.reverse_reverse]
  intro ch r hreverse
  refine hlast ch ?_
  rw [← List.head?_reverse, hreverse]
  rfl

theorem moved_symm {p p' : Position} {tokens tokens' : List Token}
    (h : List.Forall₂ (Moved p p') tokens tokens') : List.Forall₂ (Moved p' p) tokens' tokens := by
  induction h with
  | nil => exact .nil
  | cons hmoved _ ih =>
    obtain ⟨x, y, hspan, hspan'⟩ := hmoved.span
    exact .cons ⟨hmoved.kind.symm, x, y, hspan', hspan⟩ ih

/-- From the first to the last of some tokens of a source its text is these tokens. -/
theorem slice_spells {source : String} {before after : List Token}
    (h : lex source = .ok (before ++ (token :: tokens ++ after))) :
    ∃ text, getBytes source token.span.start.byte (Parsing.lastEnd tokens token.span.end).byte = some text ∧
      trim text = text ∧
      Spells text ((token :: tokens).map (Token.relocate (unplace token.span.start))) ∧
      ((token :: tokens).map (Token.relocate (unplace token.span.start))).map
        (Token.relocate (place token.span.start)) = token :: tokens := by
  obtain ⟨t, _, hlexes, _, _⟩ := (lex_iff _ _).mp h
  obtain ⟨s₁, hbefore, hlexes⟩ := hlexes.split
  obtain ⟨s₂, hlexes, _⟩ := hlexes.split
  obtain ⟨x, hx⟩ := hbefore.passes
  obtain ⟨y, s₃, ch, r, hy, hlexes, hstart, hfirst, hvisible⟩ := hlexes.first
  obtain ⟨text, htext⟩ := hlexes.passes
  have hposition : token.span.start = walk (x ++ y) origin := by
    rw [hstart, (hx.trans hy).position]
    rfl
  have hend : Parsing.lastEnd tokens token.span.end = walk text (walk (x ++ y) origin) := by
    rw [hlexes.lastEnd, htext.position, ← hstart, hposition]
  have hcut : Recut s₂.rest [] text s₃ ⟨text, origin⟩ := ⟨htext.rest, (List.append_nil _).symm⟩
  obtain ⟨tokens', t', hlexes', hend', hmoved⟩ := hlexes.recut (x := []) stops_nil hcut rfl rfl rfl
  have hhere := relocate_of_moved (unplace_walk s₃.position) hmoved
  have hthere := relocate_of_moved (place_walk s₃.position) (moved_symm hmoved)
  rw [← hstart] at hhere hthere
  refine ⟨text, ?_, ?_, ?_, ?_⟩
  · rw [hposition, hend]
    refine @getBytes_append source (x ++ y) text s₂.rest ?_
    rw [← htext.rest]
    exact (hx.trans hy).rest
  · obtain ⟨z, w, hz, hne, hlast⟩ := hlexes.last
    have hsame : text ++ s₂.rest = (z ++ w) ++ s₂.rest := by
      rw [← htext.rest, hz, List.append_assoc]
    have htext' := List.append_cancel_right hsame
    refine trim_eq_self (fun c r' hc => ?_) fun c hc => hlast c ?_
    · have hsame := htext.rest
      rw [hfirst, hc] at hsame
      injection hsame with hsame _
      rw [← hsame]
      exact hvisible
    · rw [htext', List.getLast?_append_of_ne_nil _ hne] at hc
      exact hc
  · rw [hhere]
    exact ⟨t', hlexes', hend'.right⟩
  · rw [hhere, hthere]

end Slices

section Cuts

variable {token : Token} {tokens : List Token}

/-- `part` is the token `whole` of a text that starts `offset` bytes later. -/
structure Shifted (offset : ℕ) (whole part : Token) : Prop where
  kind : part.kind = whole.kind
  start : part.span.start.byte = whole.span.start.byte - offset
  stop : part.span.end.byte = whole.span.end.byte - offset
  start_le : offset ≤ whole.span.start.byte
  stop_le : offset ≤ whole.span.end.byte

theorem shifted_of_place {p : Position} {parts : List Token}
    (h : parts.map (Token.relocate (place p)) = tokens) :
    List.Forall₂ (Shifted p.byte) tokens parts := by
  subst h
  induction parts with
  | nil => exact .nil
  | cons part parts ih =>
    have hstart : (place p part.span.start).byte = p.byte + part.span.start.byte := rfl
    have hstop : (place p part.span.end).byte = p.byte + part.span.end.byte := rfl
    refine .cons ⟨rfl, ?_, ?_, ?_, ?_⟩ ih
    · change _ = (place p part.span.start).byte - p.byte
      omega
    · change _ = (place p part.span.end).byte - p.byte
      omega
    · change _ ≤ (place p part.span.start).byte
      omega
    · change _ ≤ (place p part.span.end).byte
      omega

theorem lastEnd_of_getLast? {last : Token} (h : (token :: tokens).getLast? = some last) :
    Parsing.lastEnd tokens token.span.end = last.span.end := by
  induction tokens generalizing token with
  | nil =>
    cases h
    rfl
  | cons next tokens ih =>
    rw [List.getLast?_cons_cons] at h
    exact ih h

def fromTo (tokens : List Token) (i j : ℕ) : List Token := (tokens.drop i).take (j + 1 - i)

theorem fromTo_split {first last : Token} {i j : ℕ} (hij : i ≤ j) (hfirst : tokens[i]? = some first)
    (hlast : tokens[j]? = some last) :
    ∃ rest, fromTo tokens i j = first :: rest ∧ (first :: rest).getLast? = some last ∧
      tokens = tokens.take i ++ (first :: rest ++ tokens.drop (j + 1)) := by
  have hi : i < tokens.length := (List.getElem?_eq_some_iff.mp hfirst).1
  have hj : j < tokens.length := (List.getElem?_eq_some_iff.mp hlast).1
  have hdrop : tokens.drop i = first :: tokens.drop (i + 1) := by
    rw [List.drop_eq_getElem_cons hi, (List.getElem?_eq_some_iff.mp hfirst).2]
  have hsucc : j + 1 - i = j - i + 1 := by omega
  have hcut : fromTo tokens i j = first :: (tokens.drop (i + 1)).take (j - i) := by
    rw [fromTo, hdrop, hsucc, List.take_succ_cons]
  refine ⟨_, hcut, ?_, ?_⟩
  · rw [← hcut, List.getLast?_eq_getElem?, fromTo, List.length_take, List.length_drop]
    have hindex : min (j + 1 - i) (tokens.length - i) - 1 = j - i := by omega
    rw [hindex, List.getElem?_take_of_lt (by omega), List.getElem?_drop, Nat.add_sub_of_le hij]
    exact hlast
  · have hbehind : tokens.drop (j + 1) = (tokens.drop i).drop (j + 1 - i) := by
      rw [List.drop_drop, Nat.add_sub_of_le (Nat.le_succ_of_le hij)]
    rw [← hcut, hbehind, fromTo, List.take_append_drop, List.take_append_drop]

/-- What lexes to some tokens also does so between any two of them: the slice has the same
    tokens, and their offsets count from its start. -/
theorem lex_slice {source : String} (h : lex source = .ok tokens) {first last : Token} {i j : ℕ}
    (hij : i ≤ j) (hfirst : tokens[i]? = some first) (hlast : tokens[j]? = some last) :
    ∃ text parts, getBytes source first.span.start.byte last.span.end.byte = some text ∧
      lex (String.ofList text) = .ok parts ∧
      List.Forall₂ (Shifted first.span.start.byte) (fromTo tokens i j) parts := by
  obtain ⟨rest, hcut, hend, hsplit⟩ := fromTo_split hij hfirst hlast
  rw [hsplit] at h
  obtain ⟨text, hbytes, _, hspells, hplaced⟩ := slice_spells h
  rw [lastEnd_of_getLast? hend] at hbytes
  rw [hcut]
  exact ⟨text, _, hbytes, lex_of_spells hspells, shifted_of_place hplaced⟩

/-- Where `1e` ends the slice, the lexer looks for an exponent in vain as before. -/
theorem lex_slice_exponent :
    ∃ text parts, getBytes "'é' 1e+x" 5 7 = some text ∧ lex (String.ofList text) = .ok parts ∧
      List.Forall₂ (Shifted 5)
        (fromTo [⟨.stringLiteral "é", ⟨⟨0, 1, 1⟩, ⟨4, 1, 4⟩⟩⟩,
          ⟨.numberLiteral "1", ⟨⟨5, 1, 5⟩, ⟨6, 1, 6⟩⟩⟩, ⟨.identifier "e", ⟨⟨6, 1, 6⟩, ⟨7, 1, 7⟩⟩⟩,
          ⟨.plus, ⟨⟨7, 1, 7⟩, ⟨8, 1, 8⟩⟩⟩, ⟨.identifier "x", ⟨⟨8, 1, 8⟩, ⟨9, 1, 9⟩⟩⟩] 1 2) parts := by
  have hlex : lex "'é' 1e+x" = .ok [⟨.stringLiteral "é", ⟨⟨0, 1, 1⟩, ⟨4, 1, 4⟩⟩⟩,
      ⟨.numberLiteral "1", ⟨⟨5, 1, 5⟩, ⟨6, 1, 6⟩⟩⟩, ⟨.identifier "e", ⟨⟨6, 1, 6⟩, ⟨7, 1, 7⟩⟩⟩,
      ⟨.plus, ⟨⟨7, 1, 7⟩, ⟨8, 1, 8⟩⟩⟩, ⟨.identifier "x", ⟨⟨8, 1, 8⟩, ⟨9, 1, 9⟩⟩⟩] := by
    decide +kernel
  exact lex_slice hlex (Nat.le_succ 1) rfl rfl

end Cuts

end Tsvm.Lexing
