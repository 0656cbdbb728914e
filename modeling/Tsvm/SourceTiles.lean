import Tsvm.SourceSlices

set_option autoImplicit false

/-!
# The tokens of a source tile it

The loops of the lexer as relations, turn by turn, without a bound on the turns. Where they
reach tokens, these and the trivia between them make up the source, and the positions are
those that the characters before them give.
-/
namespace Tsvm.Lexing
open Lexer Parsing

/-- The bytes of a prefix, its newlines, and the characters behind the last of these. -/
def positionAt (before : List Char) : Position :=
  ⟨byteSize before, before.count '\n' + 1, (before.reverse.takeWhile fun ch => ch ≠ '\n').length + 1⟩

theorem byteSize_append (x y : List Char) : byteSize (x ++ y) = byteSize x + byteSize y := by
  rw [byteSize, List.map_append, List.sum_append]
  rfl

theorem positionAt_step (before : List Char) (ch : Char) :
    step ch (positionAt before) = positionAt (before ++ [ch]) := by
  have hbyte : byteSize [ch] = ch.utf8Size := by
    rw [byteSize_cons]
    rfl
  rw [step, positionAt, positionAt, byteSize_append, hbyte, List.reverse_append, List.count_append]
  by_cases hch : ch = '\n'
  · subst hch
    simp
  · simp [hch]

theorem walk_positionAt (before x : List Char) :
    walk x (positionAt before) = positionAt (before ++ x) := by
  induction x generalizing before with
  | nil => rw [List.append_nil]; rfl
  | cons ch x ih =>
    change walk x (step ch (positionAt before)) = _
    rw [positionAt_step, ih, List.append_assoc]
    rfl

/-- The lexer is at a place of the source, with the position of that place. -/
def AtPlace (source : String) (before : List Char) (s : Lexer) : Prop :=
  source.toList = before ++ s.rest ∧ s.position = positionAt before

theorem AtPlace.new (source : String) : AtPlace source [] (.new source) := ⟨rfl, rfl⟩

theorem AtPlace.passes {source : String} {before x : List Char} {s t : Lexer}
    (h : AtPlace source before s) (hx : s.Passes x t) : AtPlace source (before ++ x) t := by
  constructor
  · rw [h.1, hx.rest, List.append_assoc]
  · rw [hx.position, h.2, walk_positionAt]

/-- White space and complete comments, before the text `behind`. A line comment ends where its
    line does, a block comment with the first `*/` in it. -/
inductive Trivia (behind : List Char) : List Char → Prop
  | nil : Trivia behind []
  | space {ch : Char} {text : List Char} (hspace : isWhitespace ch = true)
      (h : Trivia behind text) : Trivia behind (ch :: text)
  | line {body text : List Char} (hbody : '\n' ∉ body)
      (hend : ∀ ch ∈ (text ++ behind).head?, ch = '\n') (h : Trivia behind text) :
      Trivia behind ('/' :: '/' :: body ++ text)
  | block {body text : List Char} (hbody : ¬['*', '/'] <:+: body) (h : Trivia behind text) :
      Trivia behind ('/' :: '*' :: body ++ '*' :: '/' :: text)

inductive Skips : Lexer → Except LexError Lexer → Prop
  | space {s : Lexer} {ch : Char} {outcome : Except LexError Lexer} (hpeek : s.peek = some ch)
      (hspace : isWhitespace ch = true) (h : Skips s.advance outcome) : Skips s outcome
  | line {s : Lexer} {outcome : Except LexError Lexer} (hpeek : s.peek = some '/')
      (hnext : s.peekNext = some '/')
      (h : Skips (s.advance.advance.consumeWhile fun ch => ch ≠ '\n') outcome) : Skips s outcome
  | block {s t : Lexer} {outcome : Except LexError Lexer} (hpeek : s.peek = some '/')
      (hnext : s.peekNext = some '*') (hcomment : skipBlockComment s = .ok t)
      (h : Skips t outcome) : Skips s outcome
  | unterminated {s : Lexer} {error : LexError} (hpeek : s.peek = some '/')
      (hnext : s.peekNext = some '*') (hcomment : skipBlockComment s = .error error) :
      Skips s (.error error)
  | done {s : Lexer} (h : ∀ ch, s.peek = some ch → isWhitespace ch = false ∧
      ¬(ch = '/' ∧ s.peekNext = some '/') ∧ ¬(ch = '/' ∧ s.peekNext = some '*')) :
      Skips s (.ok s)

inductive LexesAll : Lexer → Except LexError (List Token) → Prop
  | atEnd {s : Lexer} (h : s.isAtEnd = true) : LexesAll s (.ok [])
  | trivia_error {s : Lexer} {error : LexError} (hs : s.isAtEnd = false)
      (h : Skips s (.error error)) : LexesAll s (.error error)
  | trivia {s t : Lexer} (hs : s.isAtEnd = false) (h : Skips s (.ok t))
      (ht : t.isAtEnd = true) : LexesAll s (.ok [])
  | token_error {s t : Lexer} {ch : Char} {error : LexError} (hs : s.isAtEnd = false)
      (h : Skips s (.ok t)) (hpeek : t.peek = some ch) (htoken : nextToken t ch = .error error) :
      LexesAll s (.error error)
  | token {s t u : Lexer} {ch : Char} {token : Token} {outcome : Except LexError (List Token)}
      (hs : s.isAtEnd = false) (h : Skips s (.ok t)) (hpeek : t.peek = some ch)
      (htoken : nextToken t ch = .ok (token, u)) (hrest : LexesAll u outcome) :
      LexesAll s (outcome.map (token :: ·))

theorem skipBlockComment_length {s t : Lexer} (h : skipBlockComment s = .ok t) :
    t.rest.length ≤ s.advance.advance.rest.length := by
  obtain ⟨x, hx⟩ := skipBlockCommentFrom_passes _ _ _ h
  have hlength := hx.length
  simp only at hlength
  omega

theorem skipTriviaWithin_skips (turns : ℕ) (s : Lexer) (hturns : s.rest.length < turns) :
    Skips s (skipTriviaWithin turns s) := by
  induction turns generalizing s with
  | zero => exact absurd hturns (Nat.not_lt_zero _)
  | succ turns ih =>
    rw [skipTriviaWithin]
    cases hpeek : s.peek with
    | none =>
      refine Skips.done fun ch hch => ?_
      rw [hpeek] at hch
      cases hch
    | some ch =>
      have hch := (passes_advance hpeek).length
      rw [List.length_singleton] at hch
      simp only
      by_cases hspace : isWhitespace ch = true
      · rw [if_pos hspace]
        exact Skips.space hpeek hspace (ih _ (by omega))
      · rw [if_neg hspace]
        by_cases hline : ch = '/' ∧ s.peekNext = some '/'
        · rw [if_pos hline]
          obtain ⟨x, hx⟩ := consumeWhile_passes s.advance.advance fun ch => ch ≠ '\n'
          have hnext := (passes_advance (peek_advance hline.2)).length
          have hlength := hx.length
          exact Skips.line (hline.1 ▸ hpeek) hline.2 (ih _ (by omega))
        · rw [if_neg hline]
          by_cases hblock : ch = '/' ∧ s.peekNext = some '*'
          · rw [if_pos hblock]
            have hnext := (passes_advance (peek_advance hblock.2)).length
            cases hcomment : skipBlockComment s with
            | error error => exact Skips.unterminated (hblock.1 ▸ hpeek) hblock.2 hcomment
            | ok t =>
              have hlength := skipBlockComment_length hcomment
              exact Skips.block (hblock.1 ▸ hpeek) hblock.2 hcomment (ih t (by omega))
          · rw [if_neg hblock]
            refine Skips.done fun other hother => ?_
            rw [hpeek] at hother
            cases hother
            exact ⟨Bool.eq_false_iff.mpr hspace, hline, hblock⟩

theorem skipTrivia_skips (s : Lexer) : Skips s (skipTrivia s) :=
  skipTriviaWithin_skips _ s (Nat.lt_succ_self _)

theorem isAtEnd_iff (s : Lexer) : s.isAtEnd = true ↔ s.peek = none := by
  rw [Lexer.isAtEnd, List.isEmpty_iff, Lexer.peek, List.getElem?_eq_none_iff, Nat.le_zero,
    List.length_eq_zero_iff]

theorem lexWithin_lexesAll (turns : ℕ) (s : Lexer) (hturns : s.rest.length < turns) :
    LexesAll s (lexWithin turns s) := by
  induction turns generalizing s with
  | zero => exact absurd hturns (Nat.not_lt_zero _)
  | succ turns ih =>
    have hskips := skipTrivia_skips s
    by_cases hs : s.isAtEnd = true
    · have hrest := Lexer.rest_eq_nil ((isAtEnd_iff s).mp hs)
      rw [lexWithin_end (skipTrivia_nil hrest) ((isAtEnd_iff s).mp hs)]
      exact LexesAll.atEnd hs
    · have hs' := Bool.eq_false_iff.mpr hs
      cases htrivia : skipTrivia s with
      | error error =>
        rw [htrivia] at hskips
        rw [lexWithin, htrivia]
        exact LexesAll.trivia_error hs' hskips
      | ok t =>
        rw [htrivia] at hskips
        obtain ⟨x, hx⟩ := skipTrivia_passes htrivia
        have hlength := hx.length
        cases hpeek : t.peek with
        | none =>
          rw [lexWithin_end htrivia hpeek]
          exact LexesAll.trivia hs' hskips ((isAtEnd_iff t).mpr hpeek)
        | some ch =>
          rw [lexWithin_token htrivia hpeek]
          cases htoken : nextToken t ch with
          | error error => exact LexesAll.token_error hs' hskips hpeek htoken
          | ok result =>
            obtain ⟨token, u⟩ := result
            obtain ⟨y, hy, _⟩ := nextToken_passes hpeek htoken
            have hlength' := hy.length
            rw [List.length_cons] at hlength'
            have hrest := LexesAll.token hs' hskips hpeek htoken (ih u (by omega))
            rw [Except.bind]
            cases hu : lexWithin turns u with
            | error error => rwa [hu] at hrest
            | ok tokens => rwa [hu] at hrest

theorem consumeWhileFrom_split (predicate : Char → Bool) (rest : List Char) (position : Position) :
    Passes ⟨rest, position⟩ (rest.takeWhile predicate)
      (consumeWhileFrom predicate rest position) := by
  induction rest generalizing position with
  | nil => exact .refl _
  | cons ch rest ih =>
    rw [consumeWhileFrom, List.takeWhile_cons]
    by_cases hpredicate : predicate ch = true
    · rw [if_pos hpredicate, if_pos hpredicate]
      exact (ih (step ch position)).cons
    · rw [if_neg hpredicate, if_neg hpredicate]
      exact .refl _

/-- A line comment goes up to the end of its line. -/
theorem consumeWhile_line (s : Lexer) : ∃ body,
    s.Passes body (s.consumeWhile fun ch => ch ≠ '\n') ∧ '\n' ∉ body ∧
    ∀ ch ∈ (s.consumeWhile fun ch => ch ≠ '\n').rest.head?, ch = '\n' := by
  refine ⟨_, consumeWhileFrom_split _ s.rest s.position, fun hmem => ?_, fun ch hch => ?_⟩
  · have hne := List.mem_takeWhile_imp hmem
    simp at hne
  · rw [Lexer.consumeWhile, consumeWhileFrom_rest] at hch
    have hstop := List.head?_dropWhile_not (fun ch => decide (ch ≠ '\n')) s.rest
    rw [Option.mem_def.mp hch] at hstop
    simpa using hstop

theorem skipBlockCommentFrom_body (start : Position) (rest : List Char) (position : Position)
    {t : Lexer} (h : skipBlockCommentFrom start rest position = .ok t) : ∃ body,
    Passes ⟨rest, position⟩ (body ++ ['*', '/']) t ∧ ¬['*', '/'] <:+: body := by
  fun_induction skipBlockCommentFrom start rest position with
  | case1 => cases h
  | case2 position rest =>
    cases h
    exact ⟨[], ⟨rfl, rfl⟩, by simp⟩
  | case3 ch rest position hopen ih =>
    obtain ⟨body, hbody, hnone⟩ := ih h
    refine ⟨ch :: body, hbody.cons, fun hinfix => ?_⟩
    rcases List.infix_cons_iff.mp hinfix with hstart | hinner
    · obtain ⟨behind, hbehind⟩ := hstart
      obtain ⟨hch, htail⟩ := List.cons.inj hbehind
      refine hopen (behind ++ (['*', '/'] ++ t.rest)) hch.symm ?_
      have hrest := hbody.rest
      simp only at hrest
      rw [hrest, ← htail]
      simp
    · exact hnone hinner

theorem two_passes {s : Lexer} {a b : Char} (hpeek : s.peek = some a) (hnext : s.peekNext = some b) :
    s.Passes [a, b] s.advance.advance :=
  (passes_advance hpeek).trans (passes_advance (peek_advance hnext))

/-- Nothing but trivia is skipped, and nothing that is trivia is left. -/
theorem Skips.trivia {s t : Lexer} {outcome : Except LexError Lexer} (h : Skips s outcome)
    (houtcome : outcome = .ok t) : ∃ x, s.Passes x t ∧ Trivia t.rest x := by
  induction h with
  | space hpeek hspace _ ih =>
    obtain ⟨x, hx, htrivia⟩ := ih houtcome
    exact ⟨_, (passes_advance hpeek).trans hx, Trivia.space hspace htrivia⟩
  | @line s outcome hpeek hnext _ ih =>
    obtain ⟨x, hx, htrivia⟩ := ih houtcome
    obtain ⟨body, hbody, hline, hend⟩ := consumeWhile_line s.advance.advance
    rw [hx.rest] at hend
    have hpasses := (two_passes hpeek hnext).trans (hbody.trans hx)
    have htext := Trivia.line hline hend htrivia
    simp only [List.cons_append, List.nil_append] at hpasses htext
    exact ⟨_, hpasses, htext⟩
  | block hpeek hnext hcomment _ ih =>
    obtain ⟨x, hx, htrivia⟩ := ih houtcome
    obtain ⟨body, hbody, hnone⟩ := skipBlockCommentFrom_body _ _ _ hcomment
    have hpasses := (two_passes hpeek hnext).trans (Passes.trans hbody hx)
    have hblock := Trivia.block hnone htrivia
    simp only [List.append_assoc, List.cons_append, List.nil_append] at hpasses hblock
    exact ⟨_, hpasses, hblock⟩
  | unterminated => cases houtcome
  | done =>
    cases houtcome
    exact ⟨[], .refl _, Trivia.nil⟩

theorem skipTrivia_trivia {s t : Lexer} (h : skipTrivia s = .ok t) :
    ∃ x, s.Passes x t ∧ Trivia t.rest x :=
  (skipTrivia_skips s).trivia h

/-- Between two places of the source, given by their bytes, is trivia. -/
def Gap (source : String) (start stop : ℕ) : Prop :=
  ∃ before gap behind, source.toList = before ++ gap ++ behind ∧ byteSize before = start ∧
    byteSize (before ++ gap) = stop ∧ Trivia behind gap

def firstByte (source : String) : List Token → ℕ
  | [] => byteSize source.toList
  | token :: _ => token.span.start.byte

structure Tiles (source : String) (tokens : List Token) : Prop where
  nonempty : ∀ token ∈ tokens, token.span.start.byte < token.span.end.byte
  ordered : tokens.Pairwise fun a b => a.span.end.byte ≤ b.span.start.byte
  placed : ∀ token ∈ tokens, ∃ before text behind, source.toList = before ++ text ++ behind ∧
    token.span = ⟨positionAt before, positionAt (before ++ text)⟩
  gaps : ∀ before after, before ++ after = tokens →
    Gap source (lastEnd before origin).byte (firstByte source after)

section Tiles

variable {source : String} {s t : Lexer} {token : Token} {tokens : List Token} {before : List Char}

theorem Lexer.Passes.byte_le {x : List Char} (h : s.Passes x t) : s.position.byte ≤ t.position.byte := by
  rw [h.position, byte_walk]
  exact Nat.le_add_right _ _

theorem nextToken_byte {ch : Char} (hpeek : s.peek = some ch)
    (h : nextToken s ch = .ok (token, t)) : token.span.start.byte < token.span.end.byte := by
  obtain ⟨x, hx, hspan⟩ := nextToken_passes hpeek h
  obtain ⟨n, hn⟩ := byteSize_pos ch x
  rw [hspan, hx.position]
  simp only
  rw [byte_walk, hn]
  omega

theorem Lexes.nonempty (h : Lexes s tokens t) :
    ∀ token ∈ tokens, token.span.start.byte < token.span.end.byte := by
  induction h with
  | nil => simp
  | cons _ hpeek htoken _ ih =>
    intro token htoken'
    rcases List.mem_cons.mp htoken' with rfl | hlater
    · exact nextToken_byte hpeek htoken
    · exact ih token hlater

theorem Lexes.starts (h : Lexes s tokens t) :
    ∀ token ∈ tokens, s.position.byte ≤ token.span.start.byte := by
  induction h with
  | nil => simp
  | cons htrivia hpeek htoken _ ih =>
    obtain ⟨x, hx⟩ := skipTrivia_passes htrivia
    obtain ⟨y, hy, hspan⟩ := nextToken_passes hpeek htoken
    intro token htoken'
    rcases List.mem_cons.mp htoken' with rfl | hlater
    · rw [hspan]
      exact hx.byte_le
    · exact le_trans hx.byte_le (le_trans hy.byte_le (ih token hlater))

theorem Lexes.ordered (h : Lexes s tokens t) :
    tokens.Pairwise fun a b => a.span.end.byte ≤ b.span.start.byte := by
  induction h with
  | nil => exact List.Pairwise.nil
  | cons _ hpeek htoken hrest ih =>
    refine List.Pairwise.cons (fun later hlater => ?_) ih
    obtain ⟨x, _, hspan⟩ := nextToken_passes hpeek htoken
    rw [hspan]
    exact hrest.starts later hlater

theorem Lexes.placed (h : Lexes s tokens t) (hplace : AtPlace source before s) :
    ∀ token ∈ tokens, ∃ before text behind, source.toList = before ++ text ++ behind ∧
      token.span = ⟨positionAt before, positionAt (before ++ text)⟩ := by
  induction h generalizing before with
  | nil => simp
  | cons htrivia hpeek htoken _ ih =>
    obtain ⟨x, hx⟩ := skipTrivia_passes htrivia
    obtain ⟨y, hy, hspan⟩ := nextToken_passes hpeek htoken
    have hstart := hplace.passes hx
    have hstop := hstart.passes hy
    intro token htoken'
    rcases List.mem_cons.mp htoken' with rfl | hlater
    · refine ⟨_, _, _, hstop.1, ?_⟩
      rw [hspan, hstart.2, hstop.2]
    · exact ih hstop token hlater

theorem AtPlace.lexes (h : AtPlace source before s) (hlexes : Lexes s tokens t) :
    ∃ before, AtPlace source before t := by
  obtain ⟨x, hx⟩ := hlexes.passes
  exact ⟨_, h.passes hx⟩

theorem Lexes.end_eq (h : Lexes (.new source) tokens t) :
    Parsing.lastEnd tokens origin = t.position := by
  cases tokens with
  | nil =>
    cases h
    rfl
  | cons token tokens => exact h.lastEnd

theorem byte_positionAt (before : List Char) : (positionAt before).byte = byteSize before := rfl

theorem AtPlace.gap {x : List Char} (h : AtPlace source before s) (hx : s.Passes x t)
    (htrivia : Trivia t.rest x) : Gap source s.position.byte t.position.byte := by
  have hstop := h.passes hx
  refine ⟨before, x, t.rest, hstop.1, ?_, ?_, htrivia⟩
  · rw [h.2, byte_positionAt]
  · rw [hstop.2, byte_positionAt]

theorem AtPlace.end_byte (h : AtPlace source before s) (hrest : s.rest = []) :
    s.position.byte = byteSize source.toList := by
  rw [h.2, byte_positionAt, h.1, hrest, List.append_nil]

theorem gap_before {u : Lexer} (h : Lexes s tokens t) (hplace : AtPlace source before s)
    (htrivia : skipTrivia t = .ok u) (hend : u.rest = []) :
    Gap source s.position.byte (firstByte source tokens) := by
  cases h with
  | nil =>
    obtain ⟨x, hx, hgap⟩ := skipTrivia_trivia htrivia
    rw [firstByte, ← (hplace.passes hx).end_byte hend]
    exact hplace.gap hx hgap
  | cons hskip hpeek htoken _ =>
    obtain ⟨x, hx, hgap⟩ := skipTrivia_trivia hskip
    obtain ⟨y, _, hspan⟩ := nextToken_passes hpeek htoken
    rw [firstByte, hspan]
    exact hplace.gap hx hgap

end Tiles

theorem tiles_of_lex {source : String} {tokens : List Token} (h : lex source = .ok tokens) :
    Tiles source tokens := by
  obtain ⟨t, u, hlexes, htrivia, hend⟩ := (lex_iff source tokens).mp h
  refine ⟨hlexes.nonempty, hlexes.ordered, hlexes.placed (AtPlace.new source), ?_⟩
  rintro first rest rfl
  obtain ⟨m, hfirst, hrest⟩ := hlexes.split
  obtain ⟨before, hplace⟩ := (AtPlace.new source).lexes hfirst
  rw [hfirst.end_eq]
  exact gap_before hrest hplace htrivia hend

/-- The loops end, and the tokens tile the source. -/
theorem lex_tiles (source : String) : LexesAll (.new source) (lex source) ∧
    ∀ tokens, lex source = .ok tokens → Tiles source tokens :=
  ⟨lexWithin_lexesAll _ _ (Nat.lt_succ_self _), fun _ h => tiles_of_lex h⟩

theorem lex_tiles_exponent : Tiles "'é' /*\n*/ 1ex // c"
    [⟨.stringLiteral "é", ⟨⟨0, 1, 1⟩, ⟨4, 1, 4⟩⟩⟩, ⟨.numberLiteral "1", ⟨⟨11, 2, 4⟩, ⟨12, 2, 5⟩⟩⟩,
      ⟨.identifier "ex", ⟨⟨12, 2, 5⟩, ⟨14, 2, 7⟩⟩⟩] :=
  (lex_tiles "'é' /*\n*/ 1ex // c").2 _ (by decide +kernel)

end Tsvm.Lexing
