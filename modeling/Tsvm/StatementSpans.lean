import Tsvm.GrammarEnds
import Tsvm.Parentheses
import Tsvm.SourceSlices

set_option autoImplicit false

/-!
# The spans of statements

A span leaves out parentheses at the two ends of a statement and its semicolon. The
tokens that are left are the same statement when no pair of parentheses is cut.
-/
namespace Tsvm.Grammar
open Ast Lexing Parsing

def Lefts (w : List Token) : Prop := ∀ token ∈ w, token.kind = .leftParen

def Rights (w : List Token) : Prop := ∀ token ∈ w, token.kind = .rightParen

theorem lefts_nil : Lefts [] := fun _ hmem => absurd hmem List.not_mem_nil

theorem rights_nil : Rights [] := fun _ hmem => absurd hmem List.not_mem_nil

theorem depth_add {w : List Token} {n k : ℕ} (h : depth w n = some k) (m : ℕ) :
    depth w (n + m) = some (k + m) := by
  induction m with
  | zero => exact h
  | succ m ih => exact depth_succ ih

theorem depth_lefts {x : List Token} (h : Lefts x) (w : List Token) (n : ℕ) :
    depth (x ++ w) n = depth w (n + x.length) := by
  induction x generalizing n with
  | nil => rfl
  | cons token x ih =>
    obtain ⟨kind, a⟩ := token
    have hkind : kind = .leftParen := h _ List.mem_cons_self
    subst hkind
    rw [List.cons_append, depth_leftParen, ih (fun token hmem => h token (List.mem_cons_of_mem _ hmem)),
      List.length_cons, Nat.add_assoc, Nat.add_comm 1]

theorem Rights.depth {w : List Token} (h : Rights w) (hw : w ≠ []) : depth w 0 = none := by
  cases w with
  | nil => exact absurd rfl hw
  | cons token w =>
    obtain ⟨kind, a⟩ := token
    have hkind : kind = .rightParen := h _ List.mem_cons_self
    subst hkind
    rfl

theorem Lefts.nil_of_balanced {x y r : List Token} (hx : Lefts x) (h : Balanced (x ++ y))
    (hr : Balanced (y ++ r)) : x = [] := by
  have hdepth : Grammar.depth y (0 + x.length) = some 0 := by
    rw [← depth_lefts hx]
    exact h
  rw [Balanced, depth_append] at hr
  cases hy : Grammar.depth y 0 with
  | none =>
    rw [hy] at hr
    cases hr
  | some k =>
    rw [depth_add hy, Option.some_inj] at hdepth
    exact List.length_eq_zero_iff.mp (by omega)

theorem Rights.nil_of_balanced {x y : List Token} (hy : Rights y) (h : Balanced (x ++ y))
    (hx : Balanced x) : y = [] := by
  by_contra hne
  rw [Balanced, depth_append, hx, Option.bind_some, hy.depth hne] at h
  cases h

theorem Balanced.of_append {x y : List Token} (h : Balanced (x ++ y)) (hx : Balanced x) :
    Balanced y := by
  rw [Balanced, depth_append, hx] at h
  exact h

/-- Two balanced texts, cut at their outer ends, are balanced together only when nothing is cut. -/
theorem whole_of_balanced {pre x y post : List Token} (hpre : Lefts pre) (hpost : Rights post)
    (hleft : Balanced (pre ++ x)) (hright : Balanced (y ++ post)) (h : Balanced (x ++ y)) :
    pre = [] ∧ post = [] := by
  have hnil := hpre.nil_of_balanced hleft h
  subst hnil
  exact ⟨rfl, hpost.nil_of_balanced hright (h.of_append hleft)⟩

def Between (w : List Token) (span : Span) : Prop :=
  ∃ token rest, w = token :: rest ∧ span = ⟨token.span.start, lastEnd rest token.span.end⟩

theorem Between.lastEnd {w : List Token} {span : Span} (h : Between w span) (p : Position) :
    Parsing.lastEnd w p = span.end := by
  obtain ⟨token, rest, rfl, rfl⟩ := h
  rfl

theorem Between.append {w : List Token} {span : Span} (h : Between w span) (w' : List Token) :
    Between (w ++ w') ⟨span.start, Parsing.lastEnd w' span.end⟩ := by
  obtain ⟨token, rest, rfl, rfl⟩ := h
  exact ⟨token, rest ++ w', rfl, by rw [lastEnd_append]⟩

/-- What the span of a value is when the text in front of it is cut to `mid`. -/
structure Cut (w : List Token) (value : Expression) (pre mid post : List Token) : Prop where
  split : w = pre ++ (mid ++ post)
  lefts : Lefts pre
  rights : Rights post
  between : Between mid value.span
  whole : Balanced mid → mid = w ∨ Expressions .expression mid (some .rightParen) value

/-- Operators and suffixes go on a value; the others are cut at both ends. -/
def ExpressionCuts : (c : ExpressionForm) → List Token → c.Value → Prop
  | .arguments _, _, _ | .properties, _, _ => True
  | .operators _ left, w, value => ∃ mid post, w = mid ++ post ∧ Rights post ∧
    value.span = ⟨left.span.start, lastEnd mid left.span.end⟩ ∧ (mid = [] → post = [] ∧ value = left)
  | .suffixes value, w, result =>
    result.span = ⟨value.span.start, lastEnd w value.span.end⟩ ∧ (w = [] → result = value)
  | .expression, w, value => ∃ pre mid post, Cut w value pre mid post
  | .binary _, w, value => ∃ pre mid post, Cut w value pre mid post
  | .unary, w, value => ∃ pre mid post, Cut w value pre mid post
  | .callMember, w, value => ∃ pre mid post, Cut w value pre mid post
  | .primary, w, value => ∃ pre mid post, Cut w value pre mid post

theorem Cut.exact {w : List Token} {value : Expression} (h : Between w value.span) :
    Cut w value [] w [] := ⟨(List.append_nil w).symm, lefts_nil, rights_nil, h, fun _ => .inl rfl⟩

theorem cut_simple {token : Token} {value : Expression} (h : simpleExpression token = some value) :
    Cut [token] value [] [token] [] := by
  refine .exact ⟨token, [], rfl, ?_⟩
  obtain ⟨kind, a⟩ := token
  cases kind with
  | identifier name | numberLiteral value | stringLiteral value | booleanLiteral value | null
  | undefined =>
    cases h
    rfl
  | _ => cases h

theorem Cut.extend {w w' pre mid post mid' post' : List Token} {value result : Expression}
    (h : Cut w value pre mid post) (hw : Balanced w) (hw' : Balanced w') (hsplit : w' = mid' ++ post')
    (hrights : Rights post')
    (hspan : result.span = ⟨value.span.start, lastEnd mid' value.span.end⟩) (hmid : mid' ≠ []) :
    Cut (w ++ w') result pre (mid ++ (post ++ mid')) post' := by
  have hsame : w ++ w' = pre ++ (mid ++ (post ++ mid') ++ post') := by
    rw [h.split, hsplit]
    simp only [List.append_assoc]
  have hlast : lastEnd (post ++ mid') value.span.end = lastEnd mid' value.span.end := by
    obtain ⟨token, rest, rfl⟩ := List.exists_cons_of_ne_nil hmid
    rw [lastEnd_append]
    rfl
  have hbetween := h.between.append (post ++ mid')
  rw [hlast, ← hspan] at hbetween
  refine ⟨hsame, h.lefts, hrights, hbetween, fun hbalanced => .inl ?_⟩
  have hleft : Balanced (pre ++ (mid ++ post)) := h.split ▸ hw
  have hright : Balanced (mid' ++ post') := hsplit ▸ hw'
  rw [← List.append_assoc] at hbalanced
  obtain ⟨hpre, hpost⟩ := whole_of_balanced h.lefts hrights hleft hright hbalanced
  rw [hsame, hpre, hpost, List.append_nil, List.nil_append]

theorem expressions_cut {c : ExpressionForm} {w : List Token} {next : Next} {v : c.Value}
    (h : Expressions c w next v) : ExpressionCuts c w v := by
  induction h with
  | plain _ _ ih => exact ih
  | @assignment w kind a w' next operator left right hoperator hleft hright ih ih' =>
    obtain ⟨pre, mid, post, hcut⟩ := ih
    obtain ⟨pre', mid', post', hcut'⟩ := ih'
    have hw' : Balanced (⟨kind, a⟩ :: w') :=
      (balanced_expressions hright).cons (isParen_assignment hoperator)
    have hsplit : ⟨kind, a⟩ :: w' = (⟨kind, a⟩ :: (pre' ++ mid')) ++ post' := by
      rw [hcut'.split, List.cons_append, List.append_assoc]
    refine ⟨pre, _, post', hcut.extend (balanced_expressions hleft) hw' hsplit hcut'.rights ?_
      (List.cons_ne_nil _ _)⟩
    · rw [← List.cons_append, lastEnd_append, hcut'.between.lastEnd]
      rfl
  | @chain minPrecedence w w' next left value hleft hoperators ih ih' =>
    obtain ⟨pre, mid, post, hcut⟩ := ih
    obtain ⟨mid', post', hsplit, hrights, hspan, hnil⟩ := ih'
    by_cases hmid : mid' = []
    · obtain ⟨hpost, hvalue⟩ := hnil hmid
      rw [hmid, hpost] at hsplit
      rw [hsplit, hvalue]
      exact ⟨pre, mid, post, (List.append_nil w).symm ▸ hcut⟩
    · exact ⟨pre, _, post', hcut.extend (balanced_expressions hleft) (balanced_expressions hoperators)
        hsplit hrights hspan hmid⟩
  | chained => exact ⟨[], [], rfl, rights_nil, rfl, fun _ => ⟨rfl, rfl⟩⟩
  | @operator minPrecedence left kind a w w' next operator precedence right value _ _ _ _ ih ih' =>
    obtain ⟨pre, mid, post, hcut⟩ := ih
    obtain ⟨mid', post', hsplit, hrights, hspan, hnil⟩ := ih'
    by_cases hmid : mid' = []
    · obtain ⟨hpost, hvalue⟩ := hnil hmid
      rw [hmid, hpost] at hsplit
      refine ⟨⟨kind, a⟩ :: (pre ++ mid), post, ?_, hcut.rights, ?_, fun h => absurd h (List.cons_ne_nil _ _)⟩
      · rw [hsplit, hcut.split]
        simp
      · rw [hvalue, ← List.cons_append, lastEnd_append, hcut.between.lastEnd]
        rfl
    · refine ⟨⟨kind, a⟩ :: (w ++ mid'), post', ?_, hrights, ?_, fun h => absurd h (List.cons_ne_nil _ _)⟩
      · rw [hsplit]
        simp
      · obtain ⟨token, rest, rfl⟩ := List.exists_cons_of_ne_nil hmid
        rw [hspan, ← List.cons_append, lastEnd_append]
        rfl
  | @unary kind a w next operator value hoperator hvalue ih =>
    obtain ⟨pre, mid, post, hcut⟩ := ih
    refine ⟨[], ⟨kind, a⟩ :: (pre ++ mid), post, ?_, lefts_nil, hcut.rights, ?_, fun hbalanced => .inl ?_⟩
    · rw [hcut.split]
      simp
    · refine ⟨⟨kind, a⟩, pre ++ mid, rfl, ?_⟩
      rw [lastEnd_append, hcut.between.lastEnd]
      rfl
    · have hw : Balanced (⟨kind, a⟩ :: w) :=
        (balanced_expressions hvalue).cons (isParen_unary hoperator)
      rw [hcut.split, ← List.append_assoc, ← List.cons_append] at hw
      rw [hcut.split, hcut.rights.nil_of_balanced hw hbalanced, List.append_nil]
  | operand _ ih => exact ih
  | @callMember w w' next value result hprimary hsuffixes ih ih' =>
    obtain ⟨pre, mid, post, hcut⟩ := ih
    obtain ⟨hspan, hnil⟩ := ih'
    by_cases hw' : w' = []
    · rw [hnil hw', hw']
      exact ⟨pre, mid, post, (List.append_nil w).symm ▸ hcut⟩
    · exact ⟨pre, _, [], hcut.extend (balanced_expressions hprimary) (balanced_expressions hsuffixes)
        (List.append_nil w').symm rights_nil hspan hw'⟩
  | suffixed => exact ⟨rfl, fun _ => rfl⟩
  | member _ ih => exact ⟨ih.1, fun hnil => absurd hnil (List.cons_ne_nil _ _)⟩
  | @call value a b w w' next arguments result _ _ _ ih =>
    refine ⟨?_, fun hnil => absurd hnil (List.cons_ne_nil _ _)⟩
    rw [ih.1, ← List.cons_append, lastEnd_append]
    rfl
  | simple hsimple => exact ⟨[], _, [], cut_simple hsimple⟩
  | @group a b w next value hvalue ih =>
    obtain ⟨pre, mid, post, hcut⟩ := ih
    refine ⟨⟨.leftParen, a⟩ :: pre, mid, post ++ [⟨.rightParen, b⟩], ?_, ?_, ?_, hcut.between,
      fun hbalanced => .inr ?_⟩
    · rw [hcut.split]
      simp
    · exact List.forall_mem_cons.mpr ⟨rfl, hcut.lefts⟩
    · exact List.forall_mem_append.mpr ⟨hcut.rights, List.forall_mem_singleton.mpr rfl⟩
    · cases hcut.whole hbalanced with
      | inl hsame =>
        rw [hsame]
        exact hvalue
      | inr hinner => exact hinner
  | @object a b w | @array a b w =>
    refine ⟨[], _, [], .exact ⟨⟨_, a⟩, _, rfl, ?_⟩⟩
    rw [lastEnd_append]
    rfl
  | noArgument | lastArgument | moreArguments | noProperty | lastProperty | moreProperties =>
    trivial

def isExpression : Statement → Bool
  | .expression _ _ => true
  | _ => false

/-- What the span of a statement leaves out at the end. -/
def Trails (w : List Token) : Prop := ∀ token ∈ w, token.kind = .rightParen ∨ isSemicolon token.kind = true

theorem trails_nil : Trails [] := fun _ hmem => absurd hmem List.not_mem_nil

/-- A statement that is read as an expression does not start like a block. -/
def StartsAlone (w : List Token) (statement : Statement) : Prop :=
  isExpression statement = true → kindOf w ≠ some .leftBrace

instance (w : List Token) (statement : Statement) : Decidable (StartsAlone w statement) :=
  inferInstanceAs (Decidable (_ → _))

/-- Only an expression is cut in front. A text without the end, or without both ends, is the same
statement when no pair of parentheses is cut. -/
structure StatementCut (w : List Token) (statement : Statement) (pre mid post : List Token) : Prop where
  split : w = pre ++ (mid ++ post)
  lefts : Lefts pre
  trails : Trails post
  between : Between mid statement.span
  whole : Balanced (pre ++ mid) → Statements .statement (pre ++ mid) none statement
  alone : Balanced mid → StartsAlone mid statement → Statements .statement mid none statement

theorem StatementCut.exact {w : List Token} {statement : Statement}
    (h : Statements .statement w none statement) (hspan : Between w statement.span) :
    StatementCut w statement [] w [] :=
  ⟨(List.append_nil w).symm, lefts_nil, trails_nil, hspan, fun _ => h, fun _ _ => h⟩

theorem StatementCut.behind {w x pre mid post : List Token} {inner : Statement} {token : Token}
    (h : StatementCut w inner pre mid post) (statement : Statement) (hx : Balanced (token :: x))
    (hspan : statement.span = ⟨token.span.start, inner.span.end⟩)
    (hwhole : Statements .statement (pre ++ mid) none inner →
      Statements .statement (token :: (x ++ (pre ++ mid))) none statement) :
    StatementCut (token :: (x ++ w)) statement [] (token :: (x ++ (pre ++ mid))) post := by
  have hstatement : Balanced (token :: (x ++ (pre ++ mid))) →
      Statements .statement (token :: (x ++ (pre ++ mid))) none statement := by
    intro hbalanced
    rw [← List.cons_append] at hbalanced
    exact hwhole (h.whole (hbalanced.of_append hx))
  refine ⟨?_, lefts_nil, h.trails, ⟨token, x ++ (pre ++ mid), rfl, ?_⟩, hstatement,
    fun hbalanced _ => hstatement hbalanced⟩
  · rw [h.split]
    simp
  · rw [lastEnd_append, lastEnd_append, h.between.lastEnd, hspan]

theorem trails_semicolon {w semi : List Token} {next : Next} (hw : Rights w)
    (hsemi : Semicolon semi next) : Trails (w ++ semi) := by
  refine List.forall_mem_append.mpr ⟨fun token hmem => .inl (hw token hmem), ?_⟩
  cases hsemi with
  | absent => exact trails_nil
  | present a => exact List.forall_mem_singleton.mpr (.inr rfl)

theorem expression_alone {w : List Token} {next : Next} {value : Expression}
    (h : Expressions .expression w next value) (hbrace : kindOf w ≠ some .leftBrace) :
    Statements .statement w none (.expression value value.span) := by
  have hstatement := @Statements.expression w [] none value
    (expressions_retail h none endsExpression_none) hbrace (.absent fun h => nomatch h)
  rw [List.append_nil] at hstatement
  exact hstatement

theorem cut_expression {w semi : List Token} {next : Next} {value : Expression}
    (hvalue : Expressions .expression w (follow semi next) value) (hbrace : kindOf w ≠ some .leftBrace)
    (hsemi : Semicolon semi next) :
    ∃ pre mid post, StatementCut (w ++ semi) (.expression value value.span) pre mid post := by
  obtain ⟨pre, mid, post, hcut⟩ := expressions_cut hvalue
  refine ⟨pre, mid, post ++ semi, ?_, hcut.lefts, trails_semicolon hcut.rights hsemi, hcut.between,
    fun hbalanced => ?_, fun hbalanced hstart => ?_⟩
  · rw [hcut.split]
    simp only [List.append_assoc]
  · have hw := balanced_expressions hvalue
    rw [hcut.split, ← List.append_assoc] at hw
    have hnil := hcut.rights.nil_of_balanced hw hbalanced
    have hsame : w = pre ++ mid := by
      rw [hcut.split, hnil, List.append_nil]
    rw [← hsame]
    exact expression_alone hvalue hbrace
  · cases hcut.whole hbalanced with
    | inl hsame =>
      rw [hsame]
      exact expression_alone hvalue hbrace
    | inr hinner => exact expression_alone hinner (hstart rfl)

def StatementCuts : (c : StatementForm) → List Token → Next → c.Value → Prop
  | .statements _, _, _, _ => True
  | .statement, w, next, statement => next ≠ some .rightBrace →
    ∃ pre mid post, StatementCut w statement pre mid post

theorem cut_exact {w : List Token} {next : Next} {statement : Statement}
    (h : Statements .statement w next statement) (hnext : next ≠ some .rightBrace)
    (hspan : Between w statement.span) : ∃ pre mid post, StatementCut w statement pre mid post :=
  ⟨[], w, [], .exact (statement_retail h hnext none (fun h => nomatch h) (.inl (Ending.stops_none _))) hspan⟩

theorem balanced_head {w : List Token} (token : Token) (b c : Span)
    (htoken : isParen token.kind = false) (hw : Balanced w) :
    Balanced (token :: (⟨.leftParen, b⟩ :: (w ++ [⟨.rightParen, c⟩]))) :=
  (hw.parens b c balanced_nil).cons htoken

theorem statements_cut {c : StatementForm} {w : List Token} {next : Next} {v : c.Value}
    (h : Statements c w next v) : StatementCuts c w next v := by
  induction h with
  | @imports a b w c d e names value semi next hnames hsemi =>
    intro hnext
    refine cut_exact (.imports hnames hsemi) hnext ⟨⟨.import, a⟩, _, rfl, ?_⟩
    simp [Statement.span, lastEnd]
  | @importDefault a b d e name value semi next hsemi =>
    exact fun hnext => cut_exact (.importDefault hsemi) hnext ⟨⟨.import, a⟩, _, rfl, rfl⟩
  | @«export» a w next inner _ ih =>
    intro hnext
    obtain ⟨pre, mid, post, hcut⟩ := ih hnext
    have hhead : Balanced [⟨.export, a⟩] := balanced_nil.cons rfl
    exact ⟨[], _, post, hcut.behind (.export inner ⟨a.start, inner.span.end⟩) hhead rfl
      fun hinner => .export hinner⟩
  | @interface a b c d name w next members hmembers =>
    intro hnext
    refine cut_exact (.interface hmembers) hnext ⟨⟨.interface, a⟩, _, rfl, ?_⟩
    simp [Statement.span, lastEnd]
  | @typeAlias a b c name w semi next ty hty hsemi =>
    intro hnext
    refine cut_exact (.typeAlias hty hsemi) hnext ⟨⟨.type, a⟩, _, rfl, ?_⟩
    simp [Statement.span, lastEnd]
  | @«class» a b c d name w next members hmembers =>
    intro hnext
    refine cut_exact (.class hmembers) hnext ⟨⟨.class, a⟩, _, rfl, ?_⟩
    simp [Statement.span, lastEnd]
  | @function a b c d e f name w w' w'' next params returnType body hparams hreturn hbody =>
    intro hnext
    refine cut_exact (.function hparams hreturn hbody) hnext ⟨⟨.function, a⟩, _, rfl, ?_⟩
    simp [Statement.span, lastEnd]
  | @«variable» token w semi next declaration hvariable hsemi =>
    intro hnext
    refine cut_exact (.variable hvariable hsemi) hnext ⟨token, _, rfl, ?_⟩
    rw [lastEnd_append]
    rfl
  | @returnNothing a semi next hsemi hstop =>
    exact fun hnext => cut_exact (.returnNothing hsemi hstop) hnext ⟨⟨.return, a⟩, _, rfl, rfl⟩
  | @«return» a w semi next value hvalue hsemi =>
    intro hnext
    refine cut_exact (.return hvalue hsemi) hnext ⟨⟨.return, a⟩, _, rfl, ?_⟩
    rw [lastEnd_append]
    rfl
  | @throw a w semi next value hvalue hsemi =>
    intro hnext
    refine cut_exact (.throw hvalue hsemi) hnext ⟨⟨.throw, a⟩, _, rfl, ?_⟩
    rw [lastEnd_append]
    rfl
  | @ifThen a b c w w' next test consequent htest _ _ ih =>
    intro hnext
    obtain ⟨pre, mid, post, hcut⟩ := ih hnext
    have hif := hcut.behind (.if test consequent none ⟨a.start, consequent.span.end⟩)
      (balanced_head ⟨.if, a⟩ b c rfl (balanced_expressions htest)) rfl fun hinner => by
        simpa using Statements.ifThen (a := a) (b := b) (c := c) htest hinner fun h => nomatch h
    exact ⟨[], _, post, by simpa using hif⟩
  | @ifElse a b c d w w' w'' next test consequent alternate htest hconsequent _ _ ih =>
    intro hnext
    obtain ⟨pre, mid, post, hcut⟩ := ih hnext
    have helse : Balanced (w' ++ [⟨.else, d⟩]) := (balanced_statements hconsequent).concat rfl
    have hhead := (balanced_head ⟨.if, a⟩ b c rfl (balanced_expressions htest)).append helse
    have hif := hcut.behind (.if test consequent (some alternate) ⟨a.start, alternate.span.end⟩)
      hhead rfl fun hinner => by
        simpa using Statements.ifElse (a := a) (b := b) (c := c) (d := d) htest hconsequent hinner
    exact ⟨[], _, post, by simpa using hif⟩
  | @«while» a b c w w' next test body htest _ ih =>
    intro hnext
    obtain ⟨pre, mid, post, hcut⟩ := ih hnext
    have hwhile := hcut.behind (.while test body ⟨a.start, body.span.end⟩)
      (balanced_head ⟨.while, a⟩ b c rfl (balanced_expressions htest)) rfl fun hinner => by
        simpa using Statements.while (a := a) (b := b) (c := c) htest hinner
    exact ⟨[], _, post, by simpa using hwhile⟩
  | @«for» a b c d e w₁ w₂ w₃ w₄ next initializer test update body hinitializer htest hupdate _ ih =>
    intro hnext
    obtain ⟨pre, mid, post, hcut⟩ := ih hnext
    have hupdate' : Balanced (⟨.semicolon, d⟩ :: w₃) := (balanced_forPart hupdate).cons rfl
    have htest' : Balanced (⟨.semicolon, c⟩ :: (w₂ ++ ⟨.semicolon, d⟩ :: w₃)) :=
      ((balanced_forPart htest).append hupdate').cons rfl
    have hhead := (balanced_forInitializer hinitializer).append htest'
    have hfor := hcut.behind (.for initializer test update body ⟨a.start, body.span.end⟩)
      (balanced_head ⟨.for, a⟩ b e rfl hhead) rfl fun hinner => by
        simpa using Statements.for (a := a) (b := b) (c := c) (d := d) (e := e) hinitializer htest hupdate
          hinner
    exact ⟨[], _, post, by simpa using hfor⟩
  | @block a b w next body hbody =>
    intro hnext
    refine cut_exact (.block hbody) hnext ⟨⟨.leftBrace, a⟩, _, rfl, ?_⟩
    rw [lastEnd_append]
    rfl
  | @empty a next => exact fun hnext => cut_exact .empty hnext ⟨⟨.semicolon, a⟩, [], rfl, rfl⟩
  | expression hvalue hbrace hsemi => exact fun _ => cut_expression hvalue hbrace hsemi
  | nil | cons => trivial

end Tsvm.Grammar
