import Tsvm.Modules
import Tsvm.StatementSpans

set_option autoImplicit false

/-!
# The source of a statement

The bundler copies the text of a statement from the start of its span to the end. Parsed alone
it is the statement again exactly when the span cuts no pair of parentheses and does not make
a block of an object literal.
-/
namespace Tsvm.StatementSlices
open Ast Lexing Modules Parsing Grammar

def unexported : Statement → Statement
  | .export inner _ => inner
  | statement => statement

def sliceOf (source : String) (span : Span) : Option String :=
  (getBytes source span.start.byte span.end.byte).map String.ofList

def sliceTokens (source : String) (span : Span) : List Token :=
  match (sliceOf source span).map lex with
  | some (.ok tokens) => tokens
  | _ => []

/-- The slice has no diagnostics and is one statement, the given one with positions that count
from its start. -/
def ParsesAlone (source : String) (statement : Statement) : Prop :=
  ∃ text statement', sliceOf source statement.span = some text ∧
    (parseSource text).diagnostics = [] ∧ (parseSource text).program.body = [statement'] ∧
    statement'.relocate (place statement.span.start) = statement

/-- The parentheses of the slice match, and an expression does not start with a brace. -/
def KeepsPairs (source : String) (statement : Statement) : Prop :=
  let tokens := sliceTokens source statement.span
  Balanced tokens ∧ StartsAlone tokens statement

instance (source : String) (statement : Statement) : Decidable (KeepsPairs source statement) :=
  inferInstanceAs (Decidable (_ ∧ _))

theorem follow_ne_rightBrace {stop next : Next} {w : List Token} {body : List Statement}
    (h : Statements (.statements stop) w next body) (hnext : next ≠ some .rightBrace) :
    follow w next ≠ some .rightBrace := by
  cases h with
  | nil => exact hnext
  | cons hstatement _ =>
    obtain ⟨hne, hfirst⟩ := statement_first hstatement rfl
    obtain ⟨token, w', rfl⟩ := List.exists_cons_of_ne_nil hne
    exact hfirst

def Holds (w : List Token) (statement : Statement) : Prop :=
  ∃ before w' after next, w = before ++ (w' ++ after) ∧ Statements .statement w' next statement ∧
    next ≠ some .rightBrace

def HoldsAll : (c : StatementForm) → List Token → Next → c.Value → Prop
  | .statement, _, _, _ => True
  | .statements _, w, next, body => next ≠ some .rightBrace → ∀ statement ∈ body, Holds w statement

theorem holdsAll {c : StatementForm} {w : List Token} {next : Next} {v : c.Value}
    (h : Statements c w next v) : HoldsAll c w next v := by
  induction h with
  | nil => exact fun _ _ hmem => absurd hmem List.not_mem_nil
  | @cons stop w w' next statement body hstatement hbody _ ih =>
    intro hnext other hmem
    cases hmem with
    | head => exact ⟨[], w, w', _, rfl, hstatement, follow_ne_rightBrace hbody hnext⟩
    | tail _ hmem =>
      obtain ⟨before, x, after, next', hsplit, hother, hne⟩ := ih hnext other hmem
      refine ⟨w ++ before, x, after, next', ?_, hother, hne⟩
      rw [hsplit, List.append_assoc]
  | _ => trivial

theorem Holds.unexported {w : List Token} {statement : Statement} (h : Holds w statement) :
    Holds w (unexported statement) := by
  cases statement with
  | «export» inner span =>
    obtain ⟨before, w', after, next, rfl, hstatement, hnext⟩ := h
    cases hstatement with
    | @«export» a w' _ _ hinner =>
      refine ⟨before ++ [⟨.export, a⟩], w', after, next, ?_, hinner, hnext⟩
      simp
  | _ => exact h

theorem depth_relocate (φ : Position → Position) (w : List Token) (n : ℕ) :
    depth (w.map (Token.relocate φ)) n = depth w n := by
  induction w generalizing n with
  | nil => rfl
  | cons token w ih =>
    obtain ⟨kind, a⟩ := token
    cases kind with
    | leftParen => exact ih (n + 1)
    | rightParen =>
      cases n with
      | zero => rfl
      | succ n => exact ih n
    | _ => exact ih n

theorem balanced_relocate (φ : Position → Position) (w : List Token) :
    Balanced (w.map (Token.relocate φ)) ↔ Balanced w := by
  change depth _ 0 = some 0 ↔ depth w 0 = some 0
  rw [depth_relocate]

theorem startsAlone_relocate (φ : Position → Position) (w : List Token) (statement : Statement) :
    StartsAlone (w.map (Token.relocate φ)) statement ↔ StartsAlone w statement := by
  rw [StartsAlone, kindOf_relocate, StartsAlone]

/-- The slice of a source between two positions of its tokens. -/
structure SliceTokens (source : String) (span : Span) (w : List Token) (text : List Char)
    (parts : List Token) : Prop where
  slice : getBytes source span.start.byte span.end.byte = some text
  trimmed : trim text = text
  spells : Spells text parts
  here : parts = w.map (Token.relocate (unplace span.start))
  there : parts.map (Token.relocate (place span.start)) = w

theorem sliceTokens_of_between {source : String} {before w after : List Token} {span : Span}
    (hlex : lex source = .ok (before ++ (w ++ after))) (h : Between w span) :
    ∃ text parts, SliceTokens source span w text parts := by
  obtain ⟨token, rest, rfl, rfl⟩ := h
  obtain ⟨text, hslice, htrim, hspells, hthere⟩ := slice_spells hlex
  exact ⟨text, _, hslice, htrim, hspells, rfl, hthere⟩

section SliceTokens

variable {source : String} {span : Span} {w parts : List Token} {text : List Char}

theorem SliceTokens.sliceOf (h : SliceTokens source span w text parts) :
    sliceOf source span = some (String.ofList text) := by
  rw [StatementSlices.sliceOf, h.slice]
  rfl

theorem SliceTokens.eq (h : SliceTokens source span w text parts) : sliceTokens source span = parts := by
  rw [sliceTokens, h.sliceOf, Option.map_some, lex_of_spells h.spells]

end SliceTokens

theorem parseSource_of_lex {source : String} {tokens : List Token} (h : lex source = .ok tokens) :
    parseSource source = parseProgram tokens := by rw [parseSource, h]

theorem tokens_of_quiet {source : String} (h : (parseSource source).diagnostics = []) :
    ∃ tokens, lex source = .ok tokens ∧
      Statements (.statements none) tokens none (parseSource source).program.body := by
  cases hlex : lex source with
  | error error =>
    rw [parseSource, hlex] at h
    cases h
  | ok tokens =>
    rw [parseSource_of_lex hlex] at h ⊢
    exact ⟨tokens, rfl, (parseProgram_iff tokens _).mp ⟨h, rfl⟩⟩

theorem statements_one {w : List Token} {statement : Statement} :
    Statements (.statements none) w none [statement] ↔ Statements .statement w none statement := by
  constructor
  · intro h
    cases h with
    | @cons _ w w' _ _ _ hstatement hrest =>
      cases hrest
      rw [List.append_nil]
      exact hstatement
  · intro h
    have hone := @Statements.cons none w [] none statement [] h .nil
    rw [List.append_nil] at hone
    exact hone

theorem startsAlone_of_statements {w : List Token} {next : Next} {statement : Statement}
    (h : Statements .statement w next statement) : StartsAlone w statement := by
  intro hexpression
  cases h with
  | expression hvalue hbrace hsemi =>
    obtain ⟨token, w', rfl, _⟩ := expression_starts hvalue
    exact hbrace
  | _ => cases hexpression

theorem reads_start (w r : List Token) :
    Parser.Reads ⟨w ++ r, 0, []⟩ w ⟨w ++ r, w.length, []⟩ := by
  refine ⟨?_, rfl, (Nat.zero_add _).symm, rfl⟩
  rw [Parser.rest, Parser.rest, List.drop_zero, List.drop_left]

/-- A parser reads one part at the start of a text, and in one way. -/
theorem run_unique {α : Type} {parse : Parse α} (R : List Token → Next → α → Prop)
    (hrun : ∀ {s t : Parser} {w : List Token} {v : α}, s.Reads w t → R w (kindOf t.rest) v →
      parse s = (v, t)) {w w' : List Token} {v v' : α} (r r' : List Token) (h : R w (kindOf r) v)
    (h' : R w' (kindOf r') v') (heq : w ++ r = w' ++ r') : w = w' ∧ v = v' := by
  have hrest : Parser.rest ⟨w ++ r, w.length, []⟩ = r := List.drop_left
  have hrest' : Parser.rest ⟨w' ++ r', w'.length, []⟩ = r' := List.drop_left
  have hread := hrun (reads_start w r) (hrest.symm ▸ h)
  have hread' := hrun (reads_start w' r') (hrest'.symm ▸ h')
  rw [heq, hread'] at hread
  have hcursor : w'.length = w.length := congrArg (fun result => result.2.cursor) hread
  exact ⟨(List.append_inj heq hcursor.symm).1, (congrArg Prod.fst hread).symm⟩

theorem statement_deterministic {w w' : List Token} {statement statement' : Statement}
    (r r' : List Token) (h : Statements .statement w (kindOf r) statement)
    (h' : Statements .statement w' (kindOf r') statement') (heq : w ++ r = w' ++ r') :
    w = w' ∧ statement = statement' :=
  run_unique (Statements .statement) parseStatement_run r r' h h' heq

theorem SliceTokens.parsesAlone_iff {source : String} {text : List Char} {statement : Statement}
    {w parts : List Token} (h : SliceTokens source statement.span w text parts) :
    ParsesAlone source statement ↔ Statements .statement w none statement := by
  have hlexed := lex_of_spells h.spells
  constructor
  · rintro ⟨text', statement', hslice, hclean, hbody, hsame⟩
    rw [h.sliceOf, Option.some_inj] at hslice
    subst hslice
    rw [parseSource_of_lex hlexed] at hclean hbody
    have hparts := (statements_one.mp ((parseProgram_iff parts _).mp ⟨hclean, hbody⟩))
    have hstatement := statements_relocate (φ := place statement.span.start) hparts
    rw [h.there] at hstatement
    rw [← hsame]
    exact hstatement
  · intro hstatement
    have hparts := statements_relocate (φ := unplace statement.span.start) hstatement
    rw [← h.here] at hparts
    obtain ⟨hclean, hbody⟩ := (parseProgram_iff parts _).mpr (statements_one.mpr hparts)
    rw [← parseSource_of_lex hlexed] at hclean hbody
    refine ⟨String.ofList text, _, h.sliceOf, hclean, hbody, ?_⟩
    have hback := statements_relocate (φ := place statement.span.start) hparts
    rw [h.there] at hback
    exact (statement_deterministic [] [] hback hstatement rfl).2

section Statement

variable {source : String} {statement : Statement}

/-- The tokens of a copied statement, and those of its slice. -/
theorem statement_slice (h : (parseSource source).diagnostics = [])
    (hmem : statement ∈ (parseSource source).program.body) :
    ∃ w pre mid post text parts, StatementCut w (unexported statement) pre mid post ∧
      SliceTokens source (unexported statement).span mid text parts := by
  obtain ⟨tokens, hlex, hprogram⟩ := tokens_of_quiet h
  have hnone : (none : Next) ≠ some .rightBrace := fun h => nomatch h
  obtain ⟨before, w, after, next, rfl, hstatement, hnext⟩ :=
    (holdsAll hprogram hnone statement hmem).unexported
  obtain ⟨pre, mid, post, hcut⟩ := statements_cut hstatement hnext
  have hsplit : before ++ (w ++ after) = (before ++ pre) ++ (mid ++ (post ++ after)) := by
    rw [hcut.split]
    simp only [List.append_assoc]
  rw [hsplit] at hlex
  obtain ⟨text, parts, hslice⟩ := sliceTokens_of_between hlex hcut.between
  exact ⟨w, pre, mid, post, text, parts, hcut, hslice⟩

theorem keepsPairs_of_parsesAlone (h : (parseSource source).diagnostics = [])
    (hmem : statement ∈ (parseSource source).program.body)
    (halone : ParsesAlone source (unexported statement)) : KeepsPairs source (unexported statement) := by
  obtain ⟨_, _, _, _, _, _, _, hslice⟩ := statement_slice h hmem
  have hmid := hslice.parsesAlone_iff.mp halone
  rw [KeepsPairs, hslice.eq, hslice.here, balanced_relocate, startsAlone_relocate]
  exact ⟨balanced_statements hmid, startsAlone_of_statements hmid⟩

theorem parsesAlone_of_keepsPairs (h : (parseSource source).diagnostics = [])
    (hmem : statement ∈ (parseSource source).program.body)
    (hkeeps : KeepsPairs source (unexported statement)) : ParsesAlone source (unexported statement) := by
  obtain ⟨_, _, _, _, _, _, hcut, hslice⟩ := statement_slice h hmem
  rw [KeepsPairs, hslice.eq, hslice.here, balanced_relocate, startsAlone_relocate] at hkeeps
  exact hslice.parsesAlone_iff.mpr (hcut.alone hkeeps.1 hkeeps.2)

/-- The slice of a statement is the statement exactly when the span cuts no pair of parentheses
and does not make a block of an object literal. -/
theorem statement_parsesAlone_iff (h : (parseSource source).diagnostics = [])
    (hmem : statement ∈ (parseSource source).program.body) :
    ParsesAlone source (unexported statement) ↔ KeepsPairs source (unexported statement) :=
  ⟨keepsPairs_of_parsesAlone h hmem, parsesAlone_of_keepsPairs h hmem⟩

end Statement

theorem exported_group_parsesAlone : ∃ statement ∈ (parseSource "export (a + b);").program.body,
    ParsesAlone "export (a + b);" (unexported statement) := by
  have hne : (parseSource "export (a + b);").program.body ≠ [] := by decide +kernel
  have hkeeps : ∀ statement ∈ (parseSource "export (a + b);").program.body,
      KeepsPairs "export (a + b);" (unexported statement) := by decide +kernel
  obtain ⟨statement, hmem⟩ := List.exists_mem_of_ne_nil _ hne
  exact ⟨statement, hmem,
    (statement_parsesAlone_iff (by decide +kernel) hmem).mpr (hkeeps statement hmem)⟩

/-- The span of `-(a)` ends in front of the last parenthesis. -/
theorem negated_group_cut : ¬∀ (source : String) (statement : Statement),
    (parseSource source).diagnostics = [] → statement ∈ (parseSource source).program.body →
      ParsesAlone source (unexported statement) := by
  intro h
  have hne : (parseSource "-(a)").program.body ≠ [] := by decide +kernel
  have hreports : ∀ statement ∈ (parseSource "-(a)").program.body,
      (sliceOf "-(a)" (unexported statement).span).map (fun text => (parseSource text).diagnostics) ≠
        some [] := by decide +kernel
  obtain ⟨statement, hmem⟩ := List.exists_mem_of_ne_nil _ hne
  obtain ⟨text, _, hslice, hclean, _⟩ := h "-(a)" statement (by decide +kernel) hmem
  refine hreports statement hmem ?_
  rw [hslice, Option.map_some, hclean]

end Tsvm.StatementSlices
