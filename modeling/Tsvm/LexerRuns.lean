import Mathlib.Data.List.Basic
import Tsvm.Lexing

set_option autoImplicit false

/-!
# Runs of the lexer

The lexer reads its text from the left and counts positions along it. `Lexes`
composes the tokens of a text, with the trivia in front of each of them.
-/
namespace Tsvm.Lexing

/-- The position behind a text. -/
def walk (text : List Char) (position : Position) : Position :=
  text.foldl (fun position ch => Lexer.step ch position) position

theorem walk_append (x y : List Char) (position : Position) :
    walk (x ++ y) position = walk y (walk x position) := List.foldl_append

namespace Lexer

/-- `t` comes from `s` by reading the text `x`. -/
structure Passes (s : Lexer) (x : List Char) (t : Lexer) : Prop where
  rest : s.rest = x ++ t.rest
  position : t.position = walk x s.position

namespace Passes

variable {s t u : Lexer} {x y : List Char}

theorem refl (s : Lexer) : s.Passes [] s := ⟨rfl, rfl⟩

theorem trans (h : s.Passes x t) (h' : t.Passes y u) : s.Passes (x ++ y) u where
  rest := by rw [h.rest, h'.rest, List.append_assoc]
  position := by rw [h'.position, h.position, walk_append]

theorem advance {ch : Char} {r : List Char} (h : s.rest = ch :: r) : s.Passes [ch] s.advance := by
  obtain ⟨rest, position⟩ := s
  simp only at h
  subst h
  exact ⟨rfl, rfl⟩

theorem length (h : s.Passes x t) : s.rest.length = x.length + t.rest.length := by
  rw [h.rest, List.length_append]

theorem cons {ch : Char} {r : List Char} {position : Position}
    (h : Passes ⟨r, step ch position⟩ x t) : Passes ⟨ch :: r, position⟩ (ch :: x) t :=
  ⟨congrArg (ch :: ·) h.rest, h.position⟩

end Passes

theorem passes_advance {s : Lexer} {ch : Char} (h : s.peek = some ch) :
    s.Passes [ch] s.advance := by
  obtain ⟨rest, position⟩ := s
  cases rest with
  | nil => exact nomatch h
  | cons first rest =>
    have heq : first = ch := Option.some_inj.mp h
    subst heq
    exact .advance rfl

theorem peek_advance {s : Lexer} {ch : Char} (h : s.peekNext = some ch) :
    s.advance.peek = some ch := by
  obtain ⟨rest, position⟩ := s
  cases rest with
  | nil => exact nomatch h
  | cons first rest => exact h

theorem consumeWhileFrom_passes (predicate : Char → Bool) (rest : List Char) (position : Position) :
    ∃ x, Passes ⟨rest, position⟩ x (consumeWhileFrom predicate rest position) := by
  induction rest generalizing position with
  | nil => exact ⟨[], .refl _⟩
  | cons ch rest ih =>
    rw [consumeWhileFrom]
    by_cases hpredicate : predicate ch = true
    · rw [if_pos hpredicate]
      obtain ⟨x, hx⟩ := ih (step ch position)
      exact ⟨ch :: x, hx.cons⟩
    · rw [if_neg hpredicate]
      exact ⟨[], .refl _⟩

theorem consumeWhile_passes (s : Lexer) (predicate : Char → Bool) :
    ∃ x, s.Passes x (s.consumeWhile predicate) :=
  consumeWhileFrom_passes predicate s.rest s.position

end Lexer

open Lexer

theorem skipBlockCommentFrom_passes (start : Position) (rest : List Char) (position : Position)
    {t : Lexer} (h : skipBlockCommentFrom start rest position = .ok t) :
    ∃ x, Passes ⟨rest, position⟩ x t := by
  fun_induction skipBlockCommentFrom start rest position with
  | case1 => exact nomatch h
  | case2 position rest =>
    cases h
    exact ⟨['*', '/'], rfl, rfl⟩
  | case3 ch rest position _ ih =>
    obtain ⟨x, hx⟩ := ih h
    exact ⟨ch :: x, hx.cons⟩

theorem skipTriviaWithin_passes (turns : ℕ) (s : Lexer) {t : Lexer}
    (h : skipTriviaWithin turns s = .ok t) : ∃ x, s.Passes x t := by
  induction turns generalizing s with
  | zero =>
    cases h
    exact ⟨[], .refl _⟩
  | succ turns ih =>
    rw [skipTriviaWithin] at h
    cases hpeek : s.peek with
    | none =>
      rw [hpeek] at h
      cases h
      exact ⟨[], .refl _⟩
    | some ch =>
      rw [hpeek] at h
      have hch := passes_advance hpeek
      simp only at h
      by_cases hspace : isWhitespace ch = true
      · rw [if_pos hspace] at h
        obtain ⟨x, hx⟩ := ih _ h
        exact ⟨[ch] ++ x, hch.trans hx⟩
      · rw [if_neg hspace] at h
        by_cases hline : ch = '/' ∧ s.peekNext = some '/'
        · rw [if_pos hline] at h
          obtain ⟨x, hx⟩ := consumeWhile_passes s.advance.advance fun ch => ch ≠ '\n'
          obtain ⟨y, hy⟩ := ih _ h
          exact ⟨[ch] ++ (['/'] ++ (x ++ y)), hch.trans ((passes_advance (peek_advance hline.2)).trans
            (hx.trans hy))⟩
        · rw [if_neg hline] at h
          by_cases hblock : ch = '/' ∧ s.peekNext = some '*'
          · rw [if_pos hblock] at h
            cases hcomment : skipBlockComment s with
            | error error =>
              rw [hcomment] at h
              exact nomatch h
            | ok u =>
              rw [hcomment] at h
              obtain ⟨x, hx⟩ := skipBlockCommentFrom_passes _ _ _ hcomment
              obtain ⟨y, hy⟩ := ih _ h
              exact ⟨[ch] ++ (['*'] ++ (x ++ y)), hch.trans ((passes_advance
                (peek_advance hblock.2)).trans (hx.trans hy))⟩
          · rw [if_neg hblock] at h
            cases h
            exact ⟨[], .refl _⟩

/-- Trivia are skipped once. -/
theorem skipTriviaWithin_stop (turns : ℕ) (s : Lexer) {t : Lexer} (hturns : s.rest.length < turns)
    (h : skipTriviaWithin turns s = .ok t) (n : ℕ) : skipTriviaWithin n t = .ok t := by
  induction turns generalizing s with
  | zero => exact absurd hturns (Nat.not_lt_zero _)
  | succ turns ih =>
    rw [skipTriviaWithin] at h
    cases hpeek : s.peek with
    | none =>
      rw [hpeek] at h
      cases h
      cases n with
      | zero => rfl
      | succ n => rw [skipTriviaWithin, hpeek]
    | some ch =>
      rw [hpeek] at h
      have hch := (passes_advance hpeek).length
      rw [List.length_singleton] at hch
      simp only at h
      by_cases hspace : isWhitespace ch = true
      · rw [if_pos hspace] at h
        exact ih _ (by omega) h
      · rw [if_neg hspace] at h
        by_cases hline : ch = '/' ∧ s.peekNext = some '/'
        · rw [if_pos hline] at h
          obtain ⟨x, hx⟩ := consumeWhile_passes s.advance.advance fun ch => ch ≠ '\n'
          have hnext := (passes_advance (peek_advance hline.2)).length
          have hlength := hx.length
          exact ih _ (by omega) h
        · rw [if_neg hline] at h
          by_cases hblock : ch = '/' ∧ s.peekNext = some '*'
          · rw [if_pos hblock] at h
            cases hcomment : skipBlockComment s with
            | error error =>
              rw [hcomment] at h
              exact nomatch h
            | ok u =>
              rw [hcomment] at h
              obtain ⟨x, hx⟩ := skipBlockCommentFrom_passes _ _ _ hcomment
              have hnext := (passes_advance (peek_advance hblock.2)).length
              have hlength := hx.length
              exact ih _ (by simp only at hlength; omega) h
          · rw [if_neg hblock] at h
            cases h
            cases n with
            | zero => rfl
            | succ n =>
              rw [skipTriviaWithin, hpeek]
              simp only
              rw [if_neg hspace, if_neg hline, if_neg hblock]

theorem skipTrivia_passes {s t : Lexer} (h : skipTrivia s = .ok t) : ∃ x, s.Passes x t :=
  skipTriviaWithin_passes _ s h

theorem skipTrivia_stop {s t : Lexer} (h : skipTrivia s = .ok t) : skipTrivia t = .ok t :=
  skipTriviaWithin_stop _ s (Nat.lt_succ_self _) h _

theorem fraction_passes (s : Lexer) : ∃ x, s.Passes x (fraction s) := by
  rw [fraction]
  by_cases hpoint : s.peek = some '.' ∧ digitAt s.peekNext = true
  · rw [if_pos hpoint]
    obtain ⟨x, hx⟩ := consumeWhile_passes s.advance isAsciiDigit
    exact ⟨_, (passes_advance hpoint.1).trans hx⟩
  · rw [if_neg hpoint]
    exact ⟨[], .refl s⟩

theorem passes_of_peek_or {s : Lexer} {a b : Char} (h : s.peek = some a ∨ s.peek = some b) :
    ∃ x, s.Passes x s.advance := by
  cases h with
  | inl h => exact ⟨_, passes_advance h⟩
  | inr h => exact ⟨_, passes_advance h⟩

theorem exponent_passes (s : Lexer) : ∃ x, s.Passes x (exponent s) := by
  rw [exponent]
  by_cases hmark : s.peek = some 'e' ∨ s.peek = some 'E'
  · rw [if_pos hmark]
    obtain ⟨x, hx⟩ := passes_of_peek_or hmark
    have hsign : ∃ y, s.advance.Passes y (if s.advance.peek = some '+' ∨ s.advance.peek = some '-'
        then s.advance.advance else s.advance) := by
      by_cases hsign : s.advance.peek = some '+' ∨ s.advance.peek = some '-'
      · rw [if_pos hsign]
        exact passes_of_peek_or hsign
      · rw [if_neg hsign]
        exact ⟨[], .refl _⟩
    obtain ⟨y, hy⟩ := hsign
    simp only
    generalize (if s.advance.peek = some '+' ∨ s.advance.peek = some '-'
      then s.advance.advance else s.advance) = digits at hy ⊢
    by_cases hdigit : digitAt digits.peek = true
    · rw [if_pos hdigit]
      obtain ⟨z, hz⟩ := consumeWhile_passes digits isAsciiDigit
      exact ⟨_, hx.trans (hy.trans hz)⟩
    · rw [if_neg hdigit]
      exact ⟨[], .refl s⟩
  · rw [if_neg hmark]
    exact ⟨[], .refl s⟩

theorem numberLiteral_passes (start s : Lexer) : ∃ x, s.Passes x (numberLiteral start s).2 := by
  obtain ⟨x, hx⟩ := consumeWhile_passes s isAsciiDigit
  obtain ⟨y, hy⟩ := fraction_passes (s.consumeWhile isAsciiDigit)
  obtain ⟨z, hz⟩ := exponent_passes (fraction (s.consumeWhile isAsciiDigit))
  exact ⟨_, hx.trans (hy.trans hz)⟩

theorem stringLiteralFrom_passes (start : Position) (quote : Char) (rest : List Char)
    (position : Position) (value : List Char) {kind : TokenKind} {t : Lexer}
    (h : stringLiteralFrom start quote rest position value = .ok (kind, t)) :
    ∃ x, Passes ⟨rest, position⟩ x t := by
  fun_induction stringLiteralFrom start quote rest position value with
  | case1 | case3 | case4 => exact nomatch h
  | case2 =>
    cases h
    exact ⟨[quote], rfl, rfl⟩
  | case5 position value ch rest _ _ ih =>
    obtain ⟨x, hx⟩ := ih h
    exact ⟨'\\' :: ch :: x, hx.cons.cons⟩
  | case6 ch rest position value _ _ _ ih =>
    obtain ⟨x, hx⟩ := ih h
    exact ⟨ch :: x, hx.cons⟩

theorem matchOr_passes (s : Lexer) (matched unmatched : TokenKind) (expected : Char) :
    ∃ x, s.Passes x (matchOr s matched unmatched expected).2 := by
  rw [matchOr, matchChar]
  by_cases hpeek : s.peek = some expected
  · rw [if_pos hpeek]
    exact ⟨_, passes_advance hpeek⟩
  · rw [if_neg hpeek]
    exact ⟨[], .refl s⟩

theorem equalsChain_passes (s : Lexer) (none one two : TokenKind) :
    ∃ x, s.Passes x (equalsChain s none one two).2 := by
  rw [equalsChain]
  by_cases hone : s.peek = some '='
  · rw [if_pos hone]
    by_cases htwo : s.advance.peek = some '='
    · rw [if_pos htwo]
      exact ⟨_, (passes_advance hone).trans (passes_advance htwo)⟩
    · rw [if_neg htwo]
      exact ⟨_, passes_advance hone⟩
  · rw [if_neg hone]
    exact ⟨[], .refl s⟩

theorem doubled_passes {start s t : Lexer} {ch : Char} {kind result : TokenKind}
    (h : doubled start ch kind s = .ok (result, t)) : ∃ x, s.Passes x t := by
  rw [doubled] at h
  by_cases hpeek : s.peek = some ch
  · rw [if_pos hpeek] at h
    cases h
    exact ⟨_, passes_advance hpeek⟩
  · rw [if_neg hpeek] at h
    exact nomatch h

/-- How a token goes on behind its first character. -/
inductive TokenRule where
  | identifier
  | number
  | string
  | either (matched unmatched : TokenKind) (expected : Char)
  | equals
  | bang
  | doubled (kind : TokenKind)
  | single (kind : TokenKind)
  | unexpected

def tokenRule (ch : Char) : TokenRule :=
  if isIdentifierStart ch then .identifier
  else if isAsciiDigit ch then .number
  else match ch with
  | '"' | '\'' => .string
  | '+' => .either .plusEquals .plus '='
  | '-' => .either .minusEquals .minus '='
  | '*' => .either .starEquals .star '='
  | '/' => .either .slashEquals .slash '='
  | '%' => .either .percentEquals .percent '='
  | '=' => .equals
  | '!' => .bang
  | '<' => .either .lessEquals .less '='
  | '>' => .either .greaterEquals .greater '='
  | '&' => .doubled .andAnd
  | '|' => .doubled .pipePipe
  | '?' => .either .questionQuestion .question '?'
  | ':' => .single .colon
  | ';' => .single .semicolon
  | ',' => .single .comma
  | '.' => .single .dot
  | '(' => .single .leftParen
  | ')' => .single .rightParen
  | '{' => .single .leftBrace
  | '}' => .single .rightBrace
  | '[' => .single .leftBracket
  | ']' => .single .rightBracket
  | _ => .unexpected

def TokenRule.run (start : Lexer) (ch : Char) (s : Lexer) :
    TokenRule → Except LexError (TokenKind × Lexer)
  | .identifier => .ok (identifierOrKeyword start s)
  | .number => .ok (numberLiteral start s)
  | .string => stringLiteral start.position ch s
  | .either matched unmatched expected => .ok (matchOr s matched unmatched expected)
  | .equals =>
    if s.peek = some '>' then .ok (.arrow, s.advance)
    else .ok (equalsChain s .equals .equalsEquals .strictEquals)
  | .bang => .ok (equalsChain s .bang .bangEquals .strictBangEquals)
  | .doubled kind => Lexing.doubled start ch kind s
  | .single kind => .ok (kind, s)
  | .unexpected => .error ⟨.unexpectedCharacter ch, ⟨start.position, s.position⟩⟩

theorem tokenKind_eq (start : Lexer) (ch : Char) (s : Lexer) :
    tokenKind start ch s = (tokenRule ch).run start ch s := by
  unfold tokenKind tokenRule
  by_cases hstart : isIdentifierStart ch = true
  · rw [if_pos hstart, if_pos hstart]
    rfl
  · rw [if_neg hstart, if_neg hstart]
    by_cases hdigit : isAsciiDigit ch = true
    · rw [if_pos hdigit, if_pos hdigit]
      rfl
    · rw [if_neg hdigit, if_neg hdigit]
      split
      case h_25 => simp only [TokenRule.run]
      all_goals rfl

theorem tokenKind_passes {start s t : Lexer} {ch : Char} {kind : TokenKind}
    (h : tokenKind start ch s = .ok (kind, t)) : ∃ x, s.Passes x t := by
  rw [tokenKind_eq] at h
  cases hrule : tokenRule ch with
  | identifier =>
    rw [hrule] at h
    cases h
    exact consumeWhile_passes s isIdentifierPart
  | number =>
    rw [hrule] at h
    cases h
    exact numberLiteral_passes start s
  | string =>
    rw [hrule] at h
    exact stringLiteralFrom_passes _ _ _ _ _ h
  | either matched unmatched expected =>
    rw [hrule] at h
    cases h
    exact matchOr_passes s matched unmatched expected
  | equals =>
    rw [hrule, TokenRule.run] at h
    by_cases harrow : s.peek = some '>'
    · rw [if_pos harrow] at h
      cases h
      exact ⟨_, passes_advance harrow⟩
    · rw [if_neg harrow] at h
      have ht : _ = t := congrArg Prod.snd (Except.ok.inj h)
      rw [← ht]
      exact equalsChain_passes s _ _ _
  | bang =>
    rw [hrule] at h
    have ht : _ = t := congrArg Prod.snd (Except.ok.inj h)
    rw [← ht]
    exact equalsChain_passes s _ _ _
  | doubled kind =>
    rw [hrule] at h
    exact doubled_passes h
  | single kind =>
    rw [hrule] at h
    cases h
    exact ⟨[], .refl s⟩
  | unexpected =>
    rw [hrule] at h
    exact nomatch h

theorem nextToken_passes {s t : Lexer} {ch : Char} {token : Token} (hpeek : s.peek = some ch)
    (h : nextToken s ch = .ok (token, t)) :
    ∃ x, s.Passes (ch :: x) t ∧ token.span = ⟨s.position, t.position⟩ := by
  rw [nextToken] at h
  cases hkind : tokenKind s ch s.advance with
  | error error =>
    rw [hkind] at h
    exact nomatch h
  | ok result =>
    obtain ⟨kind, stop⟩ := result
    rw [hkind] at h
    cases h
    obtain ⟨x, hx⟩ := tokenKind_passes hkind
    exact ⟨x, (passes_advance hpeek).trans hx, rfl⟩

/-- From `s` the lexer reads the tokens, up to `t` behind the last of them. -/
inductive Lexes : Lexer → List Token → Lexer → Prop where
  | nil (s : Lexer) : Lexes s [] s
  | cons {s s₁ s₂ t : Lexer} {ch : Char} {token : Token} {tokens : List Token} :
    skipTrivia s = .ok s₁ → s₁.peek = some ch → nextToken s₁ ch = .ok (token, s₂) →
    Lexes s₂ tokens t → Lexes s (token :: tokens) t

theorem Lexes.passes {s t : Lexer} {tokens : List Token} (h : Lexes s tokens t) :
    ∃ x, s.Passes x t := by
  induction h with
  | nil s => exact ⟨[], .refl s⟩
  | cons htrivia hpeek htoken _ ih =>
    obtain ⟨x, hx⟩ := skipTrivia_passes htrivia
    obtain ⟨y, hy, _⟩ := nextToken_passes hpeek htoken
    obtain ⟨z, hz⟩ := ih
    exact ⟨_, hx.trans (hy.trans hz)⟩

theorem Lexes.append {s t u : Lexer} {x y : List Token} (h : Lexes s x t) (h' : Lexes t y u) :
    Lexes s (x ++ y) u := by
  induction h with
  | nil s => exact h'
  | cons htrivia hpeek htoken _ ih => exact .cons htrivia hpeek htoken (ih h')

theorem Lexes.split {s u : Lexer} {x y : List Token} (h : Lexes s (x ++ y) u) :
    ∃ t, Lexes s x t ∧ Lexes t y u := by
  induction x generalizing s with
  | nil => exact ⟨s, .nil s, h⟩
  | cons token x ih =>
    cases h with
    | cons htrivia hpeek htoken hrest =>
      obtain ⟨t, hx, hy⟩ := ih hrest
      exact ⟨t, .cons htrivia hpeek htoken hx, hy⟩

theorem Lexer.rest_eq_nil {s : Lexer} (h : s.peek = none) : s.rest = [] := by
  rw [Lexer.peek, List.getElem?_eq_none_iff, Nat.le_zero, List.length_eq_zero_iff] at h
  exact h

/-- At the end of the text there are no more tokens. -/
theorem lexWithin_end {turns : ℕ} {s u : Lexer} (htrivia : skipTrivia s = .ok u)
    (hpeek : u.peek = none) : lexWithin (turns + 1) s = .ok [] := by
  simp only [lexWithin, htrivia, bind, Except.bind, hpeek]
  rfl

/-- A token is read, and then those behind it. -/
theorem lexWithin_token {turns : ℕ} {s u : Lexer} {ch : Char} (htrivia : skipTrivia s = .ok u)
    (hpeek : u.peek = some ch) :
    lexWithin (turns + 1) s = (nextToken u ch).bind fun result =>
      (lexWithin turns result.2).bind fun tokens => .ok (result.1 :: tokens) := by
  simp only [lexWithin, htrivia, bind, Except.bind, hpeek]
  rfl

theorem lexes_of_lexWithin (turns : ℕ) {s : Lexer} {tokens : List Token}
    (hturns : s.rest.length < turns) (h : lexWithin turns s = .ok tokens) :
    ∃ t u, Lexes s tokens t ∧ skipTrivia t = .ok u ∧ u.rest = [] := by
  induction turns generalizing s tokens with
  | zero => exact absurd hturns (Nat.not_lt_zero _)
  | succ turns ih =>
    cases htrivia : skipTrivia s with
    | error error =>
      rw [lexWithin, htrivia] at h
      cases h
    | ok s₁ =>
      obtain ⟨x, hx⟩ := skipTrivia_passes htrivia
      have hlength := hx.length
      cases hpeek : s₁.peek with
      | none =>
        rw [lexWithin_end htrivia hpeek] at h
        cases h
        exact ⟨s, s₁, .nil s, htrivia, Lexer.rest_eq_nil hpeek⟩
      | some ch =>
        rw [lexWithin_token htrivia hpeek] at h
        cases htoken : nextToken s₁ ch with
        | error error =>
          rw [htoken] at h
          cases h
        | ok result =>
          obtain ⟨token, s₂⟩ := result
          obtain ⟨y, hy, _⟩ := nextToken_passes hpeek htoken
          have hlength' := hy.length
          rw [List.length_cons] at hlength'
          rw [htoken, Except.bind] at h
          cases hrest : lexWithin turns s₂ with
          | error error =>
            rw [hrest] at h
            cases h
          | ok rest =>
            rw [hrest] at h
            cases h
            obtain ⟨t, u, hlexes, hend⟩ := ih (by omega) hrest
            exact ⟨t, u, .cons htrivia hpeek htoken hlexes, hend⟩

theorem lexWithin_of_lexes {s t u : Lexer} {tokens : List Token} (h : Lexes s tokens t)
    (htrivia : skipTrivia t = .ok u) (hend : u.rest = []) {turns : ℕ}
    (hturns : s.rest.length < turns) : lexWithin turns s = .ok tokens := by
  induction h generalizing turns with
  | nil s =>
    obtain ⟨turns, rfl⟩ := Nat.exists_eq_add_of_lt hturns
    have hpeek : u.peek = none := by
      rw [Lexer.peek, hend]
      rfl
    exact lexWithin_end htrivia hpeek
  | @cons s s₁ s₂ t ch token tokens hskip hpeek htoken _ ih =>
    obtain ⟨turns, rfl⟩ := Nat.exists_eq_add_of_le' (show 1 ≤ turns by omega)
    obtain ⟨x, hx⟩ := skipTrivia_passes hskip
    obtain ⟨y, hy, _⟩ := nextToken_passes hpeek htoken
    have hlength := hx.length
    have hlength' := hy.length
    rw [List.length_cons] at hlength'
    rw [lexWithin_token hskip hpeek, htoken, Except.bind, ih htrivia (by omega)]
    rfl

theorem lex_iff (source : String) (tokens : List Token) : lex source = .ok tokens ↔
    ∃ t u, Lexes (.new source) tokens t ∧ skipTrivia t = .ok u ∧ u.rest = [] := by
  constructor
  · exact fun h => lexes_of_lexWithin _ (Nat.lt_succ_self _) h
  · rintro ⟨t, u, hlexes, htrivia, hend⟩
    exact lexWithin_of_lexes hlexes htrivia hend (Nat.lt_succ_self _)

end Tsvm.Lexing
