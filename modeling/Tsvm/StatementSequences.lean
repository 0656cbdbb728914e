import Tsvm.StatementSlices
import Tsvm.TreeSizes

set_option autoImplicit false

/-!
# Statements behind one another

Texts that are statements on their own are these statements in a row exactly when none of
them goes on in the next one: what is read further is a larger tree.
-/
namespace Tsvm.Grammar
open Ast Lexing Parsing StatementSlices

/-- Trees are compared without their positions. -/
def erase : Position → Position := fun _ => origin

def Same (statement statement' : Statement) : Prop := statement.relocate erase = statement'.relocate erase

def leadsStatement : TokenKind → Bool
  | .import | .export | .interface | .type | .class | .function | .return | .throw | .if | .while
  | .for | .semicolon => true
  | _ => false

def startsStatement (kind : TokenKind) : Bool :=
  startsExpression kind || isVariableKeyword (some kind) || leadsStatement kind

theorem statement_starts {w : List Token} {next : Next} {statement : Statement}
    (h : Statements .statement w next statement) :
    ∃ token w', w = token :: w' ∧ startsStatement token.kind = true := by
  cases h with
  | «variable» hvariable =>
    cases hvariable with
    | mk hkind =>
      refine ⟨_, _, rfl, ?_⟩
      rw [startsStatement, hkind, Bool.or_true, Bool.true_or]
  | expression hvalue =>
    obtain ⟨token, w', rfl, hstart⟩ := expression_starts hvalue
    refine ⟨token, _, rfl, ?_⟩
    rw [startsStatement, hstart, Bool.true_or, Bool.true_or]
  | _ => exact ⟨_, _, rfl, rfl⟩

theorem statement_kindOf {w : List Token} {next : Next} {statement : Statement}
    (h : Statements .statement w next statement) (r : List Token) :
    ∃ kind, kindOf (w ++ r) = some kind ∧ kindOf w = some kind ∧ startsStatement kind = true := by
  obtain ⟨token, w', rfl, hstart⟩ := statement_starts h
  exact ⟨token.kind, rfl, rfl, hstart⟩

/-- A text and the statement that it is. -/
abbrev Piece := List Token × Statement

def Piece.Alone (piece : Piece) : Prop := Statements .statement piece.1 none piece.2

/-- The first one is closed by a semicolon, or does not go on in the second one. -/
def Piece.Apart (piece piece' : Piece) : Prop :=
  ¬Open piece.1 ∨ (ending piece.2).Stops (kindOf piece'.1)

def textOf (pieces : List Piece) : List Token := pieces.flatMap Prod.fst

theorem textOf_cons (piece : Piece) (pieces : List Piece) :
    textOf (piece :: pieces) = piece.1 ++ textOf pieces := List.flatMap_cons

theorem kindOf_textOf_ne_else {pieces : List Piece} (h : ∀ piece ∈ pieces, piece.Alone) :
    kindOf (textOf pieces) ≠ some .else := by
  cases pieces with
  | nil => exact fun h => nomatch h
  | cons piece pieces =>
    obtain ⟨kind, hkind, _, hstart⟩ := statement_kindOf (h piece List.mem_cons_self) (textOf pieces)
    rw [textOf_cons, hkind]
    intro heq
    rw [Option.some_inj.mp heq] at hstart
    cases hstart

theorem Piece.Alone.before {piece : Piece} {pieces : List Piece} (h : piece.Alone)
    (hpieces : ∀ piece ∈ pieces, piece.Alone)
    (hapart : ∀ piece' ∈ pieces.head?, piece.Apart piece') :
    Statements .statement piece.1 (kindOf (textOf pieces)) piece.2 := by
  refine statement_retail h (fun h => nomatch h) _ (kindOf_textOf_ne_else hpieces) ?_
  cases pieces with
  | nil => exact .inl (Ending.stops_none _)
  | cons piece' pieces =>
    obtain ⟨kind, hkind, hfirst, _⟩ := statement_kindOf (hpieces piece' List.mem_cons_self) (textOf pieces)
    have happlied := hapart piece' rfl
    rw [Piece.Apart, hfirst] at happlied
    rw [textOf_cons, hkind]
    exact happlied.symm

theorem follow_none (w : List Token) : follow w none = kindOf w := Option.or_none

theorem statements_of_apart {pieces : List Piece} (h : ∀ piece ∈ pieces, piece.Alone)
    (hapart : pieces.IsChain Piece.Apart) :
    Statements (.statements none) (textOf pieces) none (pieces.map Prod.snd) := by
  induction pieces with
  | nil => exact .nil
  | cons piece pieces ih =>
    have hpieces : ∀ piece ∈ pieces, piece.Alone := fun piece hmem => h piece (List.mem_cons_of_mem _ hmem)
    rw [List.isChain_cons] at hapart
    have hfirst := (h piece List.mem_cons_self).before hpieces hapart.1
    rw [← follow_none] at hfirst
    exact .cons hfirst (ih hpieces hapart.2)

/-- Every balanced start of the text has a token that counts. -/
def Heavy (x : List Token) : Prop := ∀ z y, x = z ++ y → z ≠ [] → Balanced z → 0 < weight z

/-- The text goes on an ending, and not with a semicolon. -/
def GoesOn : Ending → List Token → Prop
  | .expression, x => Heavy x ∧ ¬EndsExpression (kindOf x) ∧ kindOf x ≠ some .semicolon
  | .type, x => kindOf x = some .leftBracket
  | _, _ => False

theorem extension_cases {w x r w' semi : List Token} (hsplit : w' ++ semi = w ++ x) (hopen : Open w)
    (hsemi : Semicolon semi (kindOf r)) (hx : kindOf (x ++ r) ≠ some .semicolon) :
    (w' = w ∧ semi = [] ∧ x = []) ∨ ∃ z, z ≠ [] ∧ w' = w ++ z ∧ x = z ++ semi := by
  have hpresent : ∀ a : Span, x ≠ [⟨.semicolon, a⟩] := by
    intro a hx'
    rw [hx'] at hx
    exact hx rfl
  rcases List.append_eq_append_iff.mp hsplit with ⟨y, hw, hsemi'⟩ | ⟨z, hw, hx'⟩
  · cases hsemi with
    | absent =>
      obtain ⟨hy, hx'⟩ := List.append_eq_nil_iff.mp hsemi'.symm
      rw [hy, List.append_nil] at hw
      exact .inl ⟨hw.symm, rfl, hx'⟩
    | present a =>
      cases y with
      | nil => exact absurd hsemi'.symm (hpresent a)
      | cons token y =>
        obtain ⟨htoken, hrest⟩ := List.cons.inj hsemi'
        obtain ⟨hy, _⟩ := List.append_eq_nil_iff.mp hrest.symm
        rw [← htoken, hy] at hw
        rw [hw] at hopen
        exact absurd hopen (not_open_semicolon w' a)
  · by_cases hz : z = []
    · subst hz
      rw [List.nil_append] at hx'
      rw [List.append_nil] at hw
      cases hsemi with
      | absent => exact .inl ⟨hw, rfl, hx'⟩
      | present a => exact absurd hx' (hpresent a)
    · exact .inr ⟨z, hz, hw, hx'⟩

theorem expression_not_extended {w x r w' semi : List Token} {next : Next} {value value' : Expression}
    (h : Expressions .expression w next value)
    (h' : Expressions .expression w' (follow semi (kindOf r)) value')
    (hsemi : Semicolon semi (kindOf r)) (hsplit : w' ++ semi = w ++ x)
    (hsame : value.relocate erase = value'.relocate erase) (hgoes : GoesOn .expression (x ++ r)) :
    False := by
  obtain ⟨hheavy, hends, hsemicolon⟩ := hgoes
  rcases extension_cases hsplit (open_expressions h) hsemi hsemicolon with ⟨_, rfl, rfl⟩ | ⟨z, hz, rfl, rfl⟩
  · exact hends (expression_endsBefore h')
  · have hsize : size value = size value' := by
      rw [← size_relocate erase, hsame, size_relocate]
    have hbalanced := (balanced_expressions h').of_append (balanced_expressions h)
    have hpos := hheavy z (semi ++ r) (List.append_assoc z semi r) hz hbalanced
    have hweight := expression_weight h'
    rw [weight_append, expression_weight h, hsize] at hweight
    omega

theorem type_not_extended {w x r w' semi : List Token} {next : Next} {ty ty' : TypeNode}
    (h : Types .type w next ty) (h' : Types .type w' (follow semi (kindOf r)) ty')
    (hsemi : Semicolon semi (kindOf r)) (hsplit : w' ++ semi = w ++ x)
    (hsame : ty.relocate erase = ty'.relocate erase) (hgoes : GoesOn .type (x ++ r)) : False := by
  have hsemicolon : kindOf (x ++ r) ≠ some .semicolon := by
    rw [show kindOf (x ++ r) = _ from hgoes]
    exact fun h => nomatch h
  rcases extension_cases hsplit (open_types h fun h => nomatch h) hsemi hsemicolon with
    ⟨_, rfl, rfl⟩ | ⟨z, hz, rfl, rfl⟩
  · exact types_endBefore h' (fun h => nomatch h) hgoes
  · have harrays : arrays ty = arrays ty' := by
      rw [← arrays_relocate erase, hsame, arrays_relocate]
    obtain ⟨⟨kind, a⟩, z, rfl⟩ := List.exists_cons_of_ne_nil hz
    have hkind : kind = .leftBracket := Option.some_inj.mp hgoes
    subst hkind
    have hbrackets := type_brackets h'
    rw [brackets_append, brackets_bracket, type_brackets h, harrays] at hbrackets
    omega

section Same

variable {statement : Statement} {span : Span}

theorem Same.of_export {inner : Statement} (h : Same (.export inner span) statement) :
    ∃ inner' span', statement = .export inner' span' ∧ Same inner inner' := by
  cases statement with
  | «export» inner' span' =>
    injection h with hinner
    exact ⟨inner', span', rfl, hinner⟩
  | _ => cases h

theorem Same.of_typeAlias {name : String} {ty : TypeNode} (h : Same (.typeAlias ⟨name, ty⟩ span) statement) :
    ∃ ty' span', statement = .typeAlias ⟨name, ty'⟩ span' ∧ ty.relocate erase = ty'.relocate erase := by
  cases statement with
  | typeAlias declaration span' =>
    obtain ⟨name', ty'⟩ := declaration
    injection h with hdeclaration
    injection hdeclaration with hname hty
    subst hname
    exact ⟨ty', span', rfl, hty⟩
  | _ => cases h

theorem Same.of_variable {declaration : VariableDeclaration} (h : Same (.variable declaration span) statement) :
    ∃ declaration' span', statement = .variable declaration' span' ∧
      declaration.relocate erase = declaration'.relocate erase := by
  cases statement with
  | «variable» declaration' span' =>
    injection h with hdeclaration
    exact ⟨declaration', span', rfl, hdeclaration⟩
  | _ => cases h

theorem Same.of_return {value : Expression} (h : Same (.return (some value) span) statement) :
    ∃ value' span', statement = .return (some value') span' ∧
      value.relocate erase = value'.relocate erase := by
  cases statement with
  | «return» value' span' =>
    injection h with hvalue
    cases value' with
    | none => cases hvalue
    | some value' => exact ⟨value', span', rfl, Option.some_inj.mp hvalue⟩
  | _ => cases h

theorem Same.of_throw {value : Expression} (h : Same (.throw value span) statement) :
    ∃ value' span', statement = .throw value' span' ∧ value.relocate erase = value'.relocate erase := by
  cases statement with
  | throw value' span' =>
    injection h with hvalue
    exact ⟨value', span', rfl, hvalue⟩
  | _ => cases h

theorem Same.of_if {test : Expression} {consequent : Statement} {alternate : Option Statement}
    (h : Same (.if test consequent alternate span) statement) :
    ∃ test' consequent' alternate' span', statement = .if test' consequent' alternate' span' ∧
      Same consequent consequent' ∧ relocateOption erase alternate = relocateOption erase alternate' := by
  cases statement with
  | «if» test' consequent' alternate' span' =>
    injection h with htest hconsequent halternate
    exact ⟨test', consequent', alternate', span', rfl, hconsequent, halternate⟩
  | _ => cases h

theorem Same.of_while {test : Expression} {body : Statement} (h : Same (.while test body span) statement) :
    ∃ test' body' span', statement = .while test' body' span' ∧ Same body body' := by
  cases statement with
  | «while» test' body' span' =>
    injection h with htest hbody
    exact ⟨test', body', span', rfl, hbody⟩
  | _ => cases h

theorem Same.of_for {initializer : Option Statement} {test update : Option Expression} {body : Statement}
    (h : Same (.for initializer test update body span) statement) :
    ∃ initializer' test' update' body' span',
      statement = .for initializer' test' update' body' span' ∧ Same body body' := by
  cases statement with
  | «for» initializer' test' update' body' span' =>
    injection h with hinitializer htest hupdate hbody
    exact ⟨initializer', test', update', body', span', rfl, hbody⟩
  | _ => cases h

theorem Same.of_expression {value : Expression} (h : Same (.expression value span) statement) :
    ∃ value' span', statement = .expression value' span' ∧
      value.relocate erase = value'.relocate erase := by
  cases statement with
  | expression value' span' =>
    injection h with hvalue
    exact ⟨value', span', rfl, hvalue⟩
  | _ => cases h

theorem Same.of_empty (h : Same (.empty span) statement) : ∃ span', statement = .empty span' := by
  cases statement with
  | empty span' => exact ⟨span', rfl⟩
  | _ => cases h

theorem Same.export {inner inner' : Statement} (h : Same inner inner') (span span' : Span) :
    Same (.export inner span) (.export inner' span') :=
  congrArg (fun inner => Statement.export inner ⟨origin, origin⟩) h

theorem Same.ifThen {consequent consequent' : Statement} (test : Expression)
    (h : Same consequent consequent') (span span' : Span) :
    Same (.if test consequent none span) (.if test consequent' none span') :=
  congrArg (fun inner => Statement.if (test.relocate erase) inner none ⟨origin, origin⟩) h

theorem Same.ifElse {alternate alternate' : Statement} (test : Expression) (consequent : Statement)
    (h : Same alternate alternate') (span span' : Span) :
    Same (.if test consequent (some alternate) span) (.if test consequent (some alternate') span') :=
  congrArg (fun inner => Statement.if (test.relocate erase) (consequent.relocate erase) (some inner)
    ⟨origin, origin⟩) h

theorem Same.while {body body' : Statement} (test : Expression) (h : Same body body') (span span' : Span) :
    Same (.while test body span) (.while test body' span') :=
  congrArg (fun inner => Statement.while (test.relocate erase) inner ⟨origin, origin⟩) h

theorem Same.for {body body' : Statement} (initializer : Option Statement) (test update : Option Expression)
    (h : Same body body') (span span' : Span) :
    Same (.for initializer test update body span) (.for initializer test update body' span') :=
  congrArg (fun inner => Statement.for (relocateOption erase initializer)
    (test.map (Expression.relocate erase)) (update.map (Expression.relocate erase)) inner
    ⟨origin, origin⟩) h

end Same

theorem Open.of_suffix {x w : List Token} (h : Open (x ++ w)) : Open w := by
  intro token hlast
  refine h token ?_
  rw [List.getLast?_append, hlast, Option.some_or]

theorem semicolon_nil_of_open {x semi : List Token} {next : Next} (hsemi : Semicolon semi next)
    (h : Open (x ++ semi)) : semi = [] := by
  cases hsemi with
  | absent => rfl
  | present a => exact absurd h (not_open_semicolon x a)

/-- Only the tokens of the statement itself are read as it, where a text follows that goes on it. -/
def NotExtended : (c : StatementForm) → List Token → c.Value → Prop
  | .statements _, _, _ => True
  | .statement, w, statement => ∀ {x r u : List Token} {statement' : Statement}, u = w ++ x →
    Statements .statement u (kindOf r) statement' → Same statement statement' → Open w →
    GoesOn (ending statement) (x ++ r) → False

theorem typeAlias_not_extended {a b c span : Span} {name : String} {w semi : List Token} {next : Next}
    {ty : TypeNode} (hty : Types .type w (follow semi next) ty) (hsemi : Semicolon semi next) :
    NotExtended .statement (⟨.type, a⟩ :: ⟨.identifier name, b⟩ :: ⟨.equals, c⟩ :: (w ++ semi))
      (.typeAlias ⟨name, ty⟩ span) := by
  intro x r u statement' hu h' hsame hopen hgoes
  have hnil := semicolon_nil_of_open (x := [⟨.type, a⟩, ⟨.identifier name, b⟩, ⟨.equals, c⟩] ++ w) hsemi
    (by simpa using hopen)
  subst hnil
  obtain ⟨ty', span', rfl, htypes⟩ := hsame.of_typeAlias
  cases h' with
  | @typeAlias a' b' c' _ w' semi' _ _ hty' hsemi' =>
    obtain ⟨_, _, _, hsplit⟩ : a' = a ∧ b' = b ∧ c' = c ∧ w' ++ semi' = w ++ x := by simpa using hu
    exact type_not_extended hty hty' hsemi' hsplit htypes hgoes

theorem variable_not_extended {token : Token} {span : Span} {w semi : List Token} {next : Next}
    {declaration : VariableDeclaration} (hvariable : VariableTokens (token :: w) (follow semi next) declaration)
    (hsemi : Semicolon semi next) :
    NotExtended .statement (token :: (w ++ semi)) (.variable declaration span) := by
  intro x r u statement' hu h' hsame hopen hgoes
  obtain rfl := semicolon_nil_of_open (x := token :: w) hsemi hopen
  obtain ⟨declaration', span', rfl, hdeclaration⟩ := hsame.of_variable
  cases h' with
  | @«variable» token' w' semi' _ _ hvariable' hsemi' =>
    cases hvariable with
    | @mk kind a name b wt wi _ ty initializer hkind hty hinitializer =>
      cases hvariable' with
      | @mk kind' a' name' b' wt' wi' _ ty' initializer' hkind' hty' hinitializer' =>
        injection hdeclaration with _ _ htypes hinitializers
        have hsplit : wt' ++ (wi' ++ semi') = wt ++ (wi ++ x) := by simpa using congrArg (List.drop 2) hu
        cases hinitializer with
        | @present c we _ value hvalue =>
          cases hinitializer' with
          | absent => cases hinitializers
          | @present c' we' _ value' hvalue' =>
            obtain ⟨rfl, _⟩ := run_unique OptionalType optionalType_run (⟨.equals, c⟩ :: (we ++ x))
              (⟨.equals, c'⟩ :: (we' ++ semi')) hty hty' hsplit.symm
            have hvalues : we' ++ semi' = we ++ x := by
              simpa using congrArg (List.drop 1) (List.append_cancel_left hsplit)
            exact expression_not_extended hvalue hvalue' hsemi' hvalues (Option.some_inj.mp hinitializers) hgoes
        | absent =>
          cases hinitializer' with
          | present => cases hinitializers
          | absent =>
            cases hty with
            | absent => exact hgoes
            | @present c wty _ ty hty =>
              cases hty' with
              | absent => cases htypes
              | @present c' wty' _ ty' hty' =>
                have htys : wty' ++ semi' = wty ++ x := by simpa using congrArg (List.drop 1) hsplit
                exact type_not_extended hty hty' hsemi' htys (Option.some_inj.mp htypes) hgoes

theorem return_not_extended {a span : Span} {w semi : List Token} {next : Next} {value : Expression}
    (hvalue : Expressions .expression w (follow semi next) value) (hsemi : Semicolon semi next) :
    NotExtended .statement (⟨.return, a⟩ :: (w ++ semi)) (.return (some value) span) := by
  intro x r u statement' hu h' hsame hopen hgoes
  obtain rfl := semicolon_nil_of_open (x := ⟨.return, a⟩ :: w) hsemi hopen
  obtain ⟨value', span', rfl, hvalues⟩ := hsame.of_return
  cases h' with
  | @«return» a' w' semi' _ _ hvalue' hsemi' =>
    have hsplit : w' ++ semi' = w ++ x := by simpa using congrArg (List.drop 1) hu
    exact expression_not_extended hvalue hvalue' hsemi' hsplit hvalues hgoes

theorem throw_not_extended {a span : Span} {w semi : List Token} {next : Next} {value : Expression}
    (hvalue : Expressions .expression w (follow semi next) value) (hsemi : Semicolon semi next) :
    NotExtended .statement (⟨.throw, a⟩ :: (w ++ semi)) (.throw value span) := by
  intro x r u statement' hu h' hsame hopen hgoes
  obtain rfl := semicolon_nil_of_open (x := ⟨.throw, a⟩ :: w) hsemi hopen
  obtain ⟨value', span', rfl, hvalues⟩ := hsame.of_throw
  cases h' with
  | @throw a' w' semi' _ _ hvalue' hsemi' =>
    have hsplit : w' ++ semi' = w ++ x := by simpa using congrArg (List.drop 1) hu
    exact expression_not_extended hvalue hvalue' hsemi' hsplit hvalues hgoes

theorem value_not_extended {span : Span} {w semi : List Token} {next : Next} {value : Expression}
    (hvalue : Expressions .expression w (follow semi next) value) (hsemi : Semicolon semi next) :
    NotExtended .statement (w ++ semi) (.expression value span) := by
  intro x r u statement' hu h' hsame hopen hgoes
  obtain rfl := semicolon_nil_of_open hsemi hopen
  obtain ⟨value', span', rfl, hvalues⟩ := hsame.of_expression
  cases h' with
  | expression hvalue' _ hsemi' =>
    rw [List.append_nil] at hu
    exact expression_not_extended hvalue hvalue' hsemi' hu hvalues hgoes

theorem test_unique {w w' r r' : List Token} {c c' : Span} {test test' : Expression}
    (h : Expressions .expression w (some .rightParen) test)
    (h' : Expressions .expression w' (some .rightParen) test')
    (heq : w ++ ⟨.rightParen, c⟩ :: r = w' ++ ⟨.rightParen, c'⟩ :: r') : w = w' ∧ r = r' := by
  obtain ⟨rfl, _⟩ := run_unique (Expressions .expression) parseExpression_run (⟨.rightParen, c⟩ :: r)
    (⟨.rightParen, c'⟩ :: r') h h' heq
  exact ⟨rfl, (List.cons.inj (List.append_cancel_left heq)).2⟩

theorem forInitializer_unique {w w' r r' : List Token} {c c' : Span}
    {initializer initializer' : Option Statement} (h : ForInitializer w (some .semicolon) initializer)
    (h' : ForInitializer w' (some .semicolon) initializer')
    (heq : w ++ ⟨.semicolon, c⟩ :: r = w' ++ ⟨.semicolon, c'⟩ :: r') : r = r' := by
  obtain ⟨rfl, _⟩ := run_unique ForInitializer forInitializer_run (⟨.semicolon, c⟩ :: r)
    (⟨.semicolon, c'⟩ :: r') h h' heq
  exact (List.cons.inj (List.append_cancel_left heq)).2

theorem forPart_unique {close : TokenKind} (hclose : startsExpression close = false)
    {w w' r r' : List Token} {c c' : Span} {part part' : Option Expression} (h : ForPart close w part)
    (h' : ForPart close w' part') (heq : w ++ ⟨close, c⟩ :: r = w' ++ ⟨close, c'⟩ :: r') : r = r' := by
  obtain ⟨rfl, _⟩ := run_unique (fun w next part => next = some close ∧ ForPart close w part)
    (fun hread hpart => forPart_run hread hpart.1 hclose hpart.2) (⟨close, c⟩ :: r) (⟨close, c'⟩ :: r')
    ⟨rfl, h⟩ ⟨rfl, h'⟩ heq
  exact (List.cons.inj (List.append_cancel_left heq)).2

theorem statements_not_extended {c : StatementForm} {w : List Token} {next : Next} {v : c.Value}
    (h : Statements c w next v) : NotExtended c w v := by
  induction h with
  | @«export» a w next inner _ ih =>
    intro x r u statement' hu h' hsame hopen hgoes
    obtain ⟨inner', span', rfl, hinner⟩ := hsame.of_export
    cases h' with
    | @«export» a' w' _ _ h' =>
      have hsplit : w' = w ++ x := by simpa using congrArg (List.drop 1) hu
      exact ih hsplit h' hinner (Open.of_suffix (x := [⟨.export, a⟩]) hopen) hgoes
  | typeAlias hty hsemi => exact typeAlias_not_extended hty hsemi
  | «variable» hvariable hsemi => exact variable_not_extended hvariable hsemi
  | «return» hvalue hsemi => exact return_not_extended hvalue hsemi
  | throw hvalue hsemi => exact throw_not_extended hvalue hsemi
  | expression hvalue _ hsemi => exact value_not_extended hvalue hsemi
  | @ifThen a b c w w' next test consequent htest _ _ ih =>
    intro x r u statement' hu h' hsame hopen hgoes
    obtain ⟨test', consequent', alternate', span', rfl, hconsequent, halternate⟩ := hsame.of_if
    cases h' with
    | @ifThen a' b' c' w₁ w₂ _ _ _ htest' h' _ =>
      have hsplit : w ++ ⟨.rightParen, c⟩ :: (w' ++ x) = w₁ ++ ⟨.rightParen, c'⟩ :: w₂ := by
        simpa using congrArg (List.drop 2) hu.symm
      obtain ⟨_, hrest⟩ := test_unique htest htest' hsplit
      exact ih hrest.symm h' hconsequent
        (Open.of_suffix (x := ⟨.if, a⟩ :: ⟨.leftParen, b⟩ :: (w ++ [⟨.rightParen, c⟩])) (by simpa using hopen))
        hgoes
    | ifElse => cases halternate
  | @ifElse a b c d w w' w'' next test consequent alternate htest hconsequent _ _ ih =>
    intro x r u statement' hu h' hsame hopen hgoes
    obtain ⟨test', consequent', alternate', span', rfl, _, halternate⟩ := hsame.of_if
    cases h' with
    | ifThen => cases halternate
    | @ifElse a' b' c' d' w₁ w₂ w₃ _ _ _ alternate' htest' hconsequent' h' =>
      have hsplit : w ++ ⟨.rightParen, c⟩ :: (w' ++ ⟨.else, d⟩ :: (w'' ++ x)) =
          w₁ ++ ⟨.rightParen, c'⟩ :: (w₂ ++ ⟨.else, d'⟩ :: w₃) := by
        simpa using congrArg (List.drop 2) hu.symm
      obtain ⟨_, hrest⟩ := test_unique htest htest' hsplit
      obtain ⟨rfl, _⟩ := statement_deterministic (⟨.else, d⟩ :: (w'' ++ x))
        (⟨.else, d'⟩ :: w₃) hconsequent hconsequent' hrest
      have hlast : w₃ = w'' ++ x := (List.cons.inj (List.append_cancel_left hrest)).2.symm
      exact ih hlast h' (Option.some_inj.mp halternate)
        (Open.of_suffix (x := ⟨.if, a⟩ :: ⟨.leftParen, b⟩ :: (w ++ ⟨.rightParen, c⟩ :: (w' ++ [⟨.else, d⟩])))
          (by simpa using hopen)) hgoes
  | @«while» a b c w w' next test body htest _ ih =>
    intro x r u statement' hu h' hsame hopen hgoes
    obtain ⟨test', body', span', rfl, hbody⟩ := hsame.of_while
    cases h' with
    | @«while» a' b' c' w₁ w₂ _ _ _ htest' h' =>
      have hsplit : w ++ ⟨.rightParen, c⟩ :: (w' ++ x) = w₁ ++ ⟨.rightParen, c'⟩ :: w₂ := by
        simpa using congrArg (List.drop 2) hu.symm
      obtain ⟨_, hrest⟩ := test_unique htest htest' hsplit
      exact ih hrest.symm h' hbody
        (Open.of_suffix (x := ⟨.while, a⟩ :: ⟨.leftParen, b⟩ :: (w ++ [⟨.rightParen, c⟩]))
          (by simpa using hopen)) hgoes
  | @«for» a b c d e w₁ w₂ w₃ w₄ next initializer test update body hinitializer htest hupdate _ ih =>
    intro x r u statement' hu h' hsame hopen hgoes
    obtain ⟨initializer', test', update', body', span', rfl, hbody⟩ := hsame.of_for
    cases h' with
    | @«for» a' b' c' d' e' v₁ v₂ v₃ v₄ _ _ _ _ _ hinitializer' htest' hupdate' h' =>
      have hsplit : w₁ ++ ⟨.semicolon, c⟩ :: (w₂ ++ ⟨.semicolon, d⟩ :: (w₃ ++ ⟨.rightParen, e⟩ :: (w₄ ++ x))) =
          v₁ ++ ⟨.semicolon, c'⟩ :: (v₂ ++ ⟨.semicolon, d'⟩ :: (v₃ ++ ⟨.rightParen, e'⟩ :: v₄)) := by
        simpa using congrArg (List.drop 2) hu.symm
      have htests := forInitializer_unique hinitializer hinitializer' hsplit
      have hupdates := forPart_unique rfl htest htest' htests
      have hlast := forPart_unique rfl hupdate hupdate' hupdates
      exact ih hlast.symm h' hbody
        (Open.of_suffix (x := ⟨.for, a⟩ :: ⟨.leftParen, b⟩ :: (w₁ ++ ⟨.semicolon, c⟩ :: (w₂ ++
          ⟨.semicolon, d⟩ :: (w₃ ++ [⟨.rightParen, e⟩])))) (by simpa using hopen)) hgoes
  | nil | cons => trivial
  | _ => exact fun _ _ _ _ hgoes => hgoes

theorem endsExpression_semicolon : EndsExpression (some .semicolon) :=
  ⟨fun h => (nomatch h), fun h => (nomatch h), rfl, rfl⟩

theorem variableTokens_semicolon {w : List Token} {next : Next} {declaration : VariableDeclaration}
    (h : VariableTokens w next declaration) : VariableTokens w (some .semicolon) declaration := by
  cases h with
  | @mk kind a name b w w' next ty initializer hkind hty hinitializer =>
    cases hinitializer with
    | present hvalue =>
      exact .mk hkind hty (.present (expressions_retail hvalue _ endsExpression_semicolon))
    | absent =>
      refine .mk hkind ?_ (.absent fun h => nomatch h)
      cases hty with
      | absent => exact .absent fun h => nomatch h
      | present hty => exact .present (types_retail hty _ fun h => nomatch h)

/-- A semicolon behind the statement is a part of it. -/
def TakesSemicolon : (c : StatementForm) → List Token → c.Value → Prop
  | .statements _, _, _ => True
  | .statement, w, statement => Open w → ending statement ≠ .closed → ∀ (a : Span) (next : Next),
    next ≠ some .else → ∃ statement', Same statement statement' ∧
      Statements .statement (w ++ [⟨.semicolon, a⟩]) next statement'

theorem statements_takeSemicolon {c : StatementForm} {w : List Token} {next : Next} {v : c.Value}
    (h : Statements c w next v) : TakesSemicolon c w v := by
  induction h with
  | @imports a b w c d e names value semi next hnames hsemi =>
    intro hopen _ z next' _
    have hnil := semicolon_nil_of_open (x := [⟨.import, a⟩, ⟨.leftBrace, b⟩] ++ (w ++ [⟨.rightBrace, c⟩,
      ⟨.from, d⟩, ⟨.stringLiteral value, e⟩])) hsemi (by simpa using hopen)
    subst hnil
    exact ⟨.import ⟨names, value⟩ ⟨a.start, z.end⟩, rfl,
      by simpa using Statements.imports hnames (.present z next')⟩
  | @importDefault a b d e name value semi next hsemi =>
    intro hopen _ z next' _
    have hnil := semicolon_nil_of_open (x := [⟨.import, a⟩, ⟨.identifier name, b⟩, ⟨.from, d⟩,
      ⟨.stringLiteral value, e⟩]) hsemi hopen
    subst hnil
    exact ⟨.import ⟨[name], value⟩ ⟨a.start, z.end⟩, rfl, .importDefault (.present z next')⟩
  | @«export» a w next inner _ ih =>
    intro hopen hending z next' helse
    obtain ⟨inner', hsame, hinner⟩ := ih (Open.of_suffix (x := [⟨.export, a⟩]) hopen) hending z next' helse
    exact ⟨.export inner' ⟨a.start, inner'.span.end⟩, hsame.export _ _, .export hinner⟩
  | @typeAlias a b c name w semi next ty hty hsemi =>
    intro hopen _ z next' _
    have hnil := semicolon_nil_of_open (x := [⟨.type, a⟩, ⟨.identifier name, b⟩, ⟨.equals, c⟩] ++ w) hsemi
      (by simpa using hopen)
    subst hnil
    have htype := types_retail hty (some .semicolon) fun h => nomatch h
    exact ⟨.typeAlias ⟨name, ty⟩ ⟨a.start, z.end⟩, rfl,
      by simpa using Statements.typeAlias (a := a) (b := b) htype (.present z next')⟩
  | @«variable» token w semi next declaration hvariable hsemi =>
    intro hopen _ z next' _
    obtain rfl := semicolon_nil_of_open (x := token :: w) hsemi hopen
    exact ⟨.variable declaration ⟨token.span.start, z.end⟩, rfl,
      by simpa using Statements.variable (variableTokens_semicolon hvariable) (.present z next')⟩
  | @«return» a w semi next value hvalue hsemi =>
    intro hopen _ z next' _
    obtain rfl := semicolon_nil_of_open (x := ⟨.return, a⟩ :: w) hsemi hopen
    have hvalue' := expressions_retail hvalue _ endsExpression_semicolon
    exact ⟨.return (some value) ⟨a.start, z.end⟩, rfl,
      by simpa using Statements.return (a := a) hvalue' (.present z next')⟩
  | @throw a w semi next value hvalue hsemi =>
    intro hopen _ z next' _
    obtain rfl := semicolon_nil_of_open (x := ⟨.throw, a⟩ :: w) hsemi hopen
    have hvalue' := expressions_retail hvalue _ endsExpression_semicolon
    exact ⟨.throw value ⟨a.start, z.end⟩, rfl,
      by simpa using Statements.throw (a := a) hvalue' (.present z next')⟩
  | @expression w semi next value hvalue hbrace hsemi =>
    intro hopen _ z next' _
    obtain rfl := semicolon_nil_of_open hsemi hopen
    have hvalue' := expressions_retail hvalue _ endsExpression_semicolon
    rw [List.append_nil]
    exact ⟨.expression value value.span, rfl, .expression hvalue' hbrace (.present z next')⟩
  | @ifThen a b c w w' next test consequent htest _ _ ih =>
    intro hopen hending z next' helse
    have hopen' := Open.of_suffix (x := ⟨.if, a⟩ :: ⟨.leftParen, b⟩ :: (w ++ [⟨.rightParen, c⟩])) (w := w')
      (by simpa using hopen)
    obtain ⟨inner, hsame, hinner⟩ := ih hopen' hending z next' helse
    exact ⟨.if test inner none ⟨a.start, inner.span.end⟩, hsame.ifThen test _ _,
      by simpa using Statements.ifThen (a := a) (b := b) (c := c) htest hinner helse⟩
  | @ifElse a b c d w w' w'' next test consequent alternate htest hconsequent _ _ ih =>
    intro hopen hending z next' helse
    have hopen' := Open.of_suffix (x := ⟨.if, a⟩ :: ⟨.leftParen, b⟩ :: (w ++ ⟨.rightParen, c⟩ ::
      (w' ++ [⟨.else, d⟩]))) (w := w'') (by simpa using hopen)
    obtain ⟨inner, hsame, hinner⟩ := ih hopen' hending z next' helse
    exact ⟨.if test consequent (some inner) ⟨a.start, inner.span.end⟩, hsame.ifElse test consequent _ _,
      by simpa using Statements.ifElse (a := a) (b := b) (c := c) (d := d) htest hconsequent hinner⟩
  | @«while» a b c w w' next test body htest _ ih =>
    intro hopen hending z next' helse
    have hopen' := Open.of_suffix (x := ⟨.while, a⟩ :: ⟨.leftParen, b⟩ :: (w ++ [⟨.rightParen, c⟩])) (w := w')
      (by simpa using hopen)
    obtain ⟨inner, hsame, hinner⟩ := ih hopen' hending z next' helse
    exact ⟨.while test inner ⟨a.start, inner.span.end⟩, hsame.while test _ _,
      by simpa using Statements.while (a := a) (b := b) (c := c) htest hinner⟩
  | @«for» a b c d e w₁ w₂ w₃ w₄ next initializer test update body hinitializer htest hupdate _ ih =>
    intro hopen hending z next' helse
    have hopen' := Open.of_suffix (x := ⟨.for, a⟩ :: ⟨.leftParen, b⟩ :: (w₁ ++ ⟨.semicolon, c⟩ :: (w₂ ++
      ⟨.semicolon, d⟩ :: (w₃ ++ [⟨.rightParen, e⟩])))) (w := w₄) (by simpa using hopen)
    obtain ⟨inner, hsame, hinner⟩ := ih hopen' hending z next' helse
    have hfor := Statements.for (a := a) (b := b) (c := c) (d := d) (e := e) hinitializer htest hupdate hinner
    exact ⟨.for initializer test update inner ⟨a.start, inner.span.end⟩,
      hsame.for initializer test update _ _, by simpa using hfor⟩
  | nil | cons => trivial
  | _ => exact fun _ hending => absurd rfl hending

/-- The first token of an expression that is not a parenthesis. -/
def Leads (w : List Token) : Prop :=
  ∃ pre token rest, w = pre ++ token :: rest ∧ Lefts pre ∧ counts token.kind = true

theorem Leads.append {w : List Token} (h : Leads w) (r : List Token) : Leads (w ++ r) := by
  obtain ⟨pre, token, rest, rfl, hlefts, hcounts⟩ := h
  exact ⟨pre, token, rest ++ r, by simp, hlefts, hcounts⟩

def ExpressionLeads : (c : ExpressionForm) → List Token → Prop
  | .expression, w | .binary _, w | .unary, w | .callMember, w | .primary, w => Leads w
  | _, _ => True

theorem expressions_lead {c : ExpressionForm} {w : List Token} {next : Next} {v : c.Value}
    (h : Expressions c w next v) : ExpressionLeads c w := by
  induction h with
  | plain _ _ ih | operand _ ih => exact ih
  | assignment _ _ _ ih | chain _ _ ih | callMember _ _ ih => exact Leads.append ih _
  | unary hoperator => exact ⟨[], _, _, rfl, lefts_nil, counts_of_isSome hoperator rfl rfl rfl⟩
  | @simple token next value hsimple =>
    refine ⟨[], token, [], rfl, lefts_nil, ?_⟩
    obtain ⟨kind, a⟩ := token
    cases kind with
    | identifier name | numberLiteral value | stringLiteral value | booleanLiteral value | null
    | undefined => rfl
    | _ => cases hsimple
  | @group a b w next value _ ih =>
    obtain ⟨pre, token, rest, rfl, hlefts, hcounts⟩ := ih
    exact ⟨⟨.leftParen, a⟩ :: pre, token, rest ++ [⟨.rightParen, b⟩], by simp,
      List.forall_mem_cons.mpr ⟨rfl, hlefts⟩, hcounts⟩
  | object | array => exact ⟨[], _, _, rfl, lefts_nil, rfl⟩
  | _ => trivial

theorem Lefts.not_balanced {z : List Token} (h : Lefts z) (hz : z ≠ []) : ¬Balanced z := by
  intro hbalanced
  have hdepth := depth_lefts h [] 0
  rw [List.append_nil, hbalanced.depth 0, depth_nil, Option.some_inj] at hdepth
  exact hz (List.length_eq_zero_iff.mp (by omega))

theorem Leads.heavy {w : List Token} (h : Leads w) : Heavy w := by
  intro z y hsplit hz hbalanced
  obtain ⟨pre, token, rest, rfl, hlefts, hcounts⟩ := h
  rcases List.append_eq_append_iff.mp hsplit with ⟨x, rfl, hx⟩ | ⟨x, hpre, _⟩
  · cases x with
    | nil =>
      rw [List.append_nil] at hbalanced hz
      exact absurd hbalanced (hlefts.not_balanced hz)
    | cons first x =>
      obtain ⟨rfl, _⟩ := List.cons.inj hx
      rw [weight_append, weight_counted hcounts]
      omega
  · have hz' : Lefts z := fun token hmem => hlefts token (hpre ▸ List.mem_append_left x hmem)
    exact absurd hbalanced (hz'.not_balanced hz)

theorem endsExpression_variable {kind : TokenKind} (h : isVariableKeyword (some kind) = true) :
    EndsExpression (some kind) := by
  cases kind with
  | «let» | const | var => exact ⟨fun h => (nomatch h), fun h => (nomatch h), rfl, rfl⟩
  | _ => cases h

/-- A statement that goes on an expression is an expression. -/
theorem heavy_of_statement {w : List Token} {next : Next} {statement : Statement}
    (h : Statements .statement w next statement) (hends : ¬EndsExpression (kindOf w)) (r : List Token) :
    Heavy (w ++ r) := by
  cases h with
  | expression hvalue =>
    have hleads : Leads _ := expressions_lead hvalue
    exact ((hleads.append _).append r).heavy
  | «variable» hvariable =>
    cases hvariable with
    | mk hkind => exact absurd (endsExpression_variable hkind) hends
  | _ => exact absurd ⟨fun h => (nomatch h), fun h => (nomatch h), rfl, rfl⟩ hends

theorem statement_of_semicolon {w : List Token} {next : Next} {statement : Statement}
    (h : Statements .statement w next statement) (hfirst : kindOf w = some .semicolon) :
    ∃ a, w = [⟨.semicolon, a⟩] ∧ statement = .empty a := by
  cases h with
  | empty => exact ⟨_, rfl, rfl⟩
  | «variable» hvariable =>
    cases hvariable with
    | @mk kind =>
      have hkind : kind = .semicolon := Option.some_inj.mp hfirst
      subst hkind
      contradiction
  | expression hvalue =>
    obtain ⟨token, w', rfl, hstart⟩ := expression_starts hvalue
    rw [show token.kind = .semicolon from Option.some_inj.mp hfirst] at hstart
    cases hstart
  | _ => cases hfirst

theorem Piece.goesOn {piece piece' : Piece} (h : piece'.Alone) (hapart : ¬piece.Apart piece')
    (r : List Token) : Open piece.1 ∧ ending piece.2 ≠ .closed ∧
      (kindOf piece'.1 = some .semicolon ∨ GoesOn (ending piece.2) (piece'.1 ++ r)) := by
  obtain ⟨hopen, hstops⟩ := not_or.mp hapart
  rw [not_not] at hopen
  obtain ⟨kind, hkind, hfirst, hstart⟩ := statement_kindOf h r
  refine ⟨hopen, fun hclosed => hstops (hclosed ▸ trivial), ?_⟩
  by_cases hsemicolon : kindOf piece'.1 = some .semicolon
  · exact .inl hsemicolon
  · refine .inr ?_
    cases hending : ending piece.2 with
    | expression =>
      rw [hending] at hstops
      have hends : ¬EndsExpression (kindOf piece'.1) := fun hends => hstops ⟨hsemicolon, hends⟩
      refine ⟨heavy_of_statement h hends r, ?_, ?_⟩
      · rw [hkind, ← hfirst]
        exact hends
      · rw [hkind, ← hfirst]
        exact hsemicolon
    | type =>
      rw [hending] at hstops
      by_contra hbracket
      refine hstops ⟨hsemicolon, ?_, ?_⟩
      · rw [hfirst, ← hkind]
        exact hbracket
      · rw [hfirst]
        intro hequals
        rw [Option.some_inj.mp hequals] at hstart
        cases hstart
    | name =>
      rw [hending] at hstops
      refine hstops ⟨hsemicolon, ?_, ?_⟩
      · rw [hfirst]
        intro hcolon
        rw [Option.some_inj.mp hcolon] at hstart
        cases hstart
      · rw [hfirst]
        intro hequals
        rw [Option.some_inj.mp hequals] at hstart
        cases hstart
    | closed =>
      rw [hending] at hstops
      exact hstops trivial

theorem statements_uncons {w : List Token} {body : List Statement} {statement : Statement}
    (h : Statements (.statements none) w none (statement :: body)) :
    ∃ u r, w = u ++ r ∧ Statements .statement u (kindOf r) statement ∧
      Statements (.statements none) r none body := by
  cases h with
  | @cons _ u r _ _ _ hstatement hbody => exact ⟨u, r, rfl, follow_none r ▸ hstatement, hbody⟩

theorem not_shifted {pieces : List Piece} (h : ∀ piece ∈ pieces, piece.Alone) {a : Span}
    {statement : Statement} {body : List Statement}
    (hbody : Statements (.statements none) (textOf pieces) none (statement :: body))
    (hempty : Same (.empty a) statement) (hsame : List.Forall₂ Same (pieces.map Prod.snd) body) : False := by
  induction pieces generalizing a statement body with
  | nil =>
    obtain ⟨u, r, hsplit, hstatement, _⟩ := statements_uncons hbody
    exact (statement_first hstatement rfl).1 (List.append_eq_nil_iff.mp hsplit.symm).1
  | cons piece pieces ih =>
    obtain ⟨u, r, hsplit, hstatement, hrest⟩ := statements_uncons hbody
    obtain ⟨span, rfl⟩ := hempty.of_empty
    cases hstatement with
    | empty =>
      have halone := h piece List.mem_cons_self
      obtain ⟨kind, hkind, hfirst, _⟩ := statement_kindOf halone (textOf pieces)
      rw [← textOf_cons, hsplit] at hkind
      obtain ⟨b, htokens, hpiece⟩ := statement_of_semicolon halone (hfirst.trans hkind.symm)
      rw [textOf_cons, htokens] at hsplit
      have hr : textOf pieces = r := (List.cons.inj hsplit).2
      subst hr
      cases hsame with
      | cons hsame hsames =>
        rw [hpiece] at hsame
        exact ih (fun piece hmem => h piece (List.mem_cons_of_mem _ hmem)) hrest hsame hsames

/-- The first statement of a row, if it is the first piece, ends where the piece does. -/
theorem Piece.Alone.apart {piece piece' : Piece} {pieces : List Piece} (h : piece.Alone)
    (hpieces : ∀ piece ∈ piece' :: pieces, piece.Alone) {body : List Statement}
    (hbody : Statements (.statements none) (textOf (piece :: piece' :: pieces)) none body)
    (hsame : List.Forall₂ Same ((piece :: piece' :: pieces).map Prod.snd) body) : piece.Apart piece' := by
  by_contra hapart
  have halone := hpieces piece' List.mem_cons_self
  obtain ⟨hopen, hending, hgoes⟩ := Piece.goesOn halone hapart (textOf pieces)
  cases hsame with
  | @cons _ statement _ body hfirst hsames =>
    obtain ⟨u, r, hsplit, hstatement, hrest⟩ := statements_uncons hbody
    rw [textOf_cons, textOf_cons] at hsplit
    cases hgoes with
    | inl hsemicolon =>
      obtain ⟨a, htokens, hpiece⟩ := statement_of_semicolon halone hsemicolon
      have hothers : ∀ piece ∈ pieces, piece.Alone := fun piece hmem =>
        hpieces piece (List.mem_cons_of_mem _ hmem)
      obtain ⟨taken, _, htaken⟩ :=
        statements_takeSemicolon h hopen hending a _ (kindOf_textOf_ne_else hothers)
      rw [htokens, ← List.append_assoc] at hsplit
      obtain ⟨rfl, _⟩ := statement_deterministic (textOf pieces) r htaken hstatement hsplit
      have hr : textOf pieces = r := List.append_cancel_left hsplit
      subst hr
      cases hsames with
      | cons hempty hsames =>
        rw [hpiece] at hempty
        exact not_shifted hothers hrest hempty hsames
    | inr hgoes =>
      rcases List.append_eq_append_iff.mp hsplit with ⟨x, rfl, hx⟩ | ⟨y, hy, hr⟩
      · rw [hx] at hgoes
        exact statements_not_extended h rfl hstatement hfirst hopen hgoes
      · cases y with
        | nil =>
          rw [List.append_nil] at hy
          rw [List.nil_append] at hr
          rw [hr] at hstatement
          exact statements_not_extended (x := []) h (by rw [List.append_nil, hy]) hstatement hfirst hopen hgoes
        | cons token y =>
          rw [hr] at hstatement
          have hwhole : piece.1 ++ [] = u ++ token :: y := by rw [List.append_nil, hy]
          obtain ⟨hsame, _⟩ := statement_deterministic [] (token :: y) h hstatement hwhole
          rw [hsame] at hy
          exact List.cons_ne_nil token y (List.self_eq_append_right.mp hy)

/-- Pieces in a row are their statements exactly when they keep apart. -/
theorem textOf_iff_apart {pieces : List Piece} (h : ∀ piece ∈ pieces, piece.Alone) :
    (∃ body, Statements (.statements none) (textOf pieces) none body ∧
      List.Forall₂ Same (pieces.map Prod.snd) body) ↔ pieces.IsChain Piece.Apart := by
  constructor
  · rintro ⟨body, hbody, hsame⟩
    induction pieces generalizing body with
    | nil => exact .nil
    | cons piece pieces ih =>
      have hpieces : ∀ piece ∈ pieces, piece.Alone := fun piece hmem => h piece (List.mem_cons_of_mem _ hmem)
      have halone := h piece List.mem_cons_self
      have hapart : ∀ piece' ∈ pieces.head?, piece.Apart piece' := by
        intro piece' hmem
        cases pieces with
        | nil => cases hmem
        | cons first pieces =>
          obtain rfl := Option.some_inj.mp hmem
          exact halone.apart hpieces hbody hsame
      refine List.isChain_cons.mpr ⟨hapart, ?_⟩
      cases hsame with
      | @cons _ statement _ body hfirst hsames =>
        obtain ⟨u, r, hsplit, hstatement, hrest⟩ := statements_uncons hbody
        rw [textOf_cons] at hsplit
        obtain ⟨rfl, _⟩ := statement_deterministic (textOf pieces) r (halone.before hpieces hapart)
          hstatement hsplit
        rw [← List.append_cancel_left hsplit] at hrest
        exact ih hpieces body hrest hsames
  · intro hapart
    exact ⟨_, statements_of_apart h hapart, List.forall₂_same.mpr fun _ _ => rfl⟩

end Tsvm.Grammar
