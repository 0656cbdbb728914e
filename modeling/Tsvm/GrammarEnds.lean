import Tsvm.StatementGrammar

set_option autoImplicit false

/-!
# The ends of the grammar

What a part of a program is followed by only matters where the part may go on.
In front of anything else it is read the same way.
-/
namespace Tsvm.Grammar
open Ast Lexing Parsing

/-- Nothing that goes on an expression. -/
structure EndsExpression (next : Next) : Prop where
  dot : next ≠ some .dot
  leftParen : next ≠ some .leftParen
  assignment : next.bind assignmentOperator = none
  binary : next.bind binaryOperator = none

theorem endsExpression_none : EndsExpression none :=
  ⟨fun h => (nomatch h), fun h => (nomatch h), rfl, rfl⟩

/-- A type is read the same way in front of anything but a bracket. -/
def TypeRetails : (c : TypeForm) → List Token → c.Value → Prop
  | .members, _, _ => True
  | .type, w, v => ∀ next, next ≠ some .leftBracket → Types .type w next v
  | .suffixes start inner, w, v => ∀ next, next ≠ some .leftBracket →
    Types (.suffixes start inner) w next v

theorem types_retail {c : TypeForm} {w : List Token} {next : Next} {v : c.Value}
    (h : Types c w next v) : TypeRetails c w v := by
  induction h with
  | simple hsimple _ ih => exact fun next hnext => .simple hsimple (ih next hnext)
  | object hmembers _ _ ih => exact fun next hnext => .object hmembers (ih next hnext)
  | done => exact fun next hnext => .done hnext
  | array _ ih => exact fun next hnext => .array (ih next hnext)
  | nil | member => trivial

/-- A value is read the same way in front of anything that does not go on it. -/
def ExpressionRetails : (c : ExpressionForm) → List Token → c.Value → Prop
  | .arguments _, _, _ | .properties, _, _ => True
  | .expression, w, v => ∀ next, EndsExpression next → Expressions .expression w next v
  | .binary minPrecedence, w, v => ∀ next, EndsExpression next →
    Expressions (.binary minPrecedence) w next v
  | .operators minPrecedence left, w, v => ∀ next, EndsExpression next →
    Expressions (.operators minPrecedence left) w next v
  | .unary, w, v => ∀ next, EndsExpression next → Expressions .unary w next v
  | .callMember, w, v => ∀ next, EndsExpression next → Expressions .callMember w next v
  | .suffixes value, w, v => ∀ next, EndsExpression next → Expressions (.suffixes value) w next v
  | .primary, w, v => ∀ next, EndsExpression next → Expressions .primary w next v

theorem expressions_retail {c : ExpressionForm} {w : List Token} {next : Next} {v : c.Value}
    (h : Expressions c w next v) : ExpressionRetails c w v := by
  induction h with
  | plain _ _ ih => exact fun next hnext => .plain (ih next hnext) hnext.assignment
  | assignment hoperator hleft _ _ ih =>
    exact fun next hnext => .assignment hoperator hleft (ih next hnext)
  | @chain minPrecedence w w' next left value hleft _ ih ih' =>
    intro next hnext
    refine .chain ?_ (ih' next hnext)
    cases w' with
    | nil => exact ih next hnext
    | cons token w' => exact hleft
  | chained =>
    refine fun next hnext => .chained fun operator precedence heq => ?_
    rw [hnext.binary] at heq
    exact nomatch heq
  | @operator minPrecedence left kind a w w' next operator precedence right value hoperator hmin
      hright _ ih ih' =>
    intro next hnext
    refine .operator hoperator hmin ?_ (ih' next hnext)
    cases w' with
    | nil => exact ih next hnext
    | cons token w' => exact hright
  | unary hoperator _ ih => exact fun next hnext => .unary hoperator (ih next hnext)
  | operand _ ih => exact fun next hnext => .operand (ih next hnext)
  | @callMember w w' next value result hvalue _ ih ih' =>
    intro next hnext
    refine .callMember ?_ (ih' next hnext)
    cases w' with
    | nil => exact ih next hnext
    | cons token w' => exact hvalue
  | suffixed => exact fun next hnext => .suffixed hnext.dot hnext.leftParen
  | member _ ih => exact fun next hnext => .member (ih next hnext)
  | call harguments _ _ ih => exact fun next hnext => .call harguments (ih next hnext)
  | simple hsimple => exact fun next _ => .simple hsimple
  | group hinner => exact fun next _ => .group hinner
  | object hproperties => exact fun next _ => .object hproperties
  | array helements => exact fun next _ => .array helements
  | noArgument | lastArgument | moreArguments | noProperty | lastProperty | moreProperties =>
    trivial

def isSemicolon : TokenKind → Bool
  | .semicolon => true
  | _ => false

/-- The text does not end with a semicolon. -/
def Open (w : List Token) : Prop := ∀ token, w.getLast? = some token → isSemicolon token.kind = false

theorem open_nil : Open [] := fun _ h => nomatch h

theorem Open.append {x w : List Token} (hx : Open x) (hw : Open w) : Open (x ++ w) := by
  intro token hlast
  rw [List.getLast?_append] at hlast
  cases hend : w.getLast? with
  | none =>
    rw [hend, Option.none_or] at hlast
    exact hx token hlast
  | some last =>
    rw [hend, Option.some_or] at hlast
    exact hw token (hend.trans hlast)

theorem Open.cons {token : Token} {w : List Token} (h : isSemicolon token.kind = false)
    (hw : Open w) : Open (token :: w) := by
  refine Open.append (x := [token]) (fun last hlast => ?_) hw
  rw [← Option.some_inj.mp hlast]
  exact h

theorem Open.suffix {token : Token} {w : List Token} (x : List Token)
    (h : isSemicolon token.kind = false) (hw : Open w) : Open (x ++ token :: w) := by
  intro last hlast
  rw [List.getLast?_append_of_ne_nil _ (List.cons_ne_nil _ _)] at hlast
  exact hw.cons h last hlast

theorem not_open_semicolon (w : List Token) (a : Span) : ¬Open (w ++ [⟨.semicolon, a⟩]) :=
  fun h => Bool.false_ne_true (h ⟨.semicolon, a⟩ List.getLast?_concat).symm

theorem open_types {c : TypeForm} {w : List Token} {next : Next} {v : c.Value}
    (h : Types c w next v) (hc : c ≠ .members) : Open w := by
  induction h with
  | @simple token w next ty v hsimple _ ih =>
    refine (ih fun h => nomatch h).cons ?_
    obtain ⟨kind, a⟩ := token
    cases kind with
    | semicolon => exact nomatch hsimple
    | _ => rfl
  | @object a b w w' next members v _ _ _ ih =>
    exact ((ih fun h => nomatch h).suffix w rfl).cons rfl
  | done => exact open_nil
  | array _ ih => exact ((ih fun h => nomatch h).cons rfl).cons rfl
  | nil | member => exact absurd rfl hc

theorem isSemicolon_of_isSome {α : Type} {f : TokenKind → Option α} {kind : TokenKind} {v : α}
    (h : f kind = some v) (hf : f .semicolon = none) : isSemicolon kind = false := by
  cases kind with
  | semicolon =>
    rw [hf] at h
    exact nomatch h
  | _ => rfl

theorem open_expressions {c : ExpressionForm} {w : List Token} {next : Next} {v : c.Value}
    (h : Expressions c w next v) : Open w := by
  induction h with
  | plain _ _ ih => exact ih
  | assignment hoperator _ _ ih ih' =>
    exact ih.append (ih'.cons (isSemicolon_of_isSome hoperator rfl))
  | chain _ _ ih ih' => exact ih.append ih'
  | chained => exact open_nil
  | operator hoperator _ _ _ ih ih' =>
    exact (ih.append ih').cons (isSemicolon_of_isSome hoperator rfl)
  | unary hoperator _ ih => exact ih.cons (isSemicolon_of_isSome hoperator rfl)
  | operand _ ih => exact ih
  | callMember _ _ ih ih' => exact ih.append ih'
  | suffixed => exact open_nil
  | member _ ih => exact (ih.cons rfl).cons rfl
  | @call _ _ _ w _ _ _ _ _ _ _ ih' => exact (ih'.suffix w rfl).cons rfl
  | @simple token next value hsimple =>
    refine open_nil.cons ?_
    obtain ⟨kind, a⟩ := token
    cases kind with
    | semicolon => exact nomatch hsimple
    | _ => rfl
  | @group a b w | @object a b w | @array a b w => exact (open_nil.suffix w rfl).cons rfl
  | noArgument => exact open_nil
  | lastArgument _ _ ih => exact ih
  | moreArguments _ _ ih ih' => exact ih.append (ih'.cons rfl)
  | noProperty => exact open_nil
  | lastProperty hname _ _ ih => exact (ih.cons rfl).cons (isSemicolon_of_isSome hname rfl)
  | moreProperties hname _ _ ih ih' =>
    exact ((ih.append (ih'.cons rfl)).cons rfl).cons (isSemicolon_of_isSome hname rfl)

theorem open_optionalType {w : List Token} {next : Next} {ty : Option TypeNode}
    (h : OptionalType w next ty) : Open w := by
  cases h with
  | absent => exact open_nil
  | present hty => exact (open_types hty fun h => nomatch h).cons rfl

theorem open_optionalInitializer {w : List Token} {next : Next} {value : Option Expression}
    (h : OptionalInitializer w next value) : Open w := by
  cases h with
  | absent => exact open_nil
  | present hvalue => exact (open_expressions hvalue).cons rfl

theorem open_variableTokens {w : List Token} {next : Next} {declaration : VariableDeclaration}
    (h : VariableTokens w next declaration) : Open w := by
  cases h with
  | @mk kind _ _ _ _ _ _ _ _ hkind hty hinitializer =>
    refine (((open_optionalType hty).append (open_optionalInitializer hinitializer)).cons
      rfl).cons ?_
    cases kind with
    | semicolon => exact nomatch hkind
    | _ => rfl

/-- What a statement ends with where no semicolon closes it. -/
inductive Ending where
  | expression
  | type
  | name
  | closed
  deriving DecidableEq

def variableEnding (declaration : VariableDeclaration) : Ending :=
  match declaration.initializer, declaration.ty with
  | some _, _ => .expression
  | none, some _ => .type
  | none, none => .name

mutual

def ending : Statement → Ending
  | .import _ _ => .name
  | .export inner _ => ending inner
  | .typeAlias _ _ => .type
  | .variable declaration _ => variableEnding declaration
  | .return (some _) _ | .throw _ _ | .expression _ _ => .expression
  | .if _ consequent alternate _ => endingOr (ending consequent) alternate
  | .while _ body _ | .for _ _ _ body _ => ending body
  | _ => .closed

def endingOr (fallback : Ending) : Option Statement → Ending
  | none => fallback
  | some alternate => ending alternate

end

def Ending.Stops : Ending → Next → Prop
  | .expression, next => next ≠ some .semicolon ∧ EndsExpression next
  | .type, next => next ≠ some .semicolon ∧ next ≠ some .leftBracket ∧ next ≠ some .equals
  | .name, next => next ≠ some .semicolon ∧ next ≠ some .colon ∧ next ≠ some .equals
  | .closed, _ => True

theorem Ending.stops_none (ending : Ending) : ending.Stops none := by
  cases ending with
  | expression => exact ⟨fun h => (nomatch h), endsExpression_none⟩
  | type | name => exact ⟨fun h => (nomatch h), fun h => (nomatch h), fun h => (nomatch h)⟩
  | closed => trivial

theorem Ending.Stops.semicolon {ending : Ending} {next : Next} (h : ending.Stops next)
    (hending : ending ≠ .closed) : next ≠ some .semicolon := by
  cases ending with
  | expression | type | name => exact h.1
  | closed => exact absurd rfl hending

theorem variableTokens_retail {w : List Token} {next next' : Next}
    {declaration : VariableDeclaration} (h : VariableTokens w next declaration)
    (hnext : (variableEnding declaration).Stops next') : VariableTokens w next' declaration := by
  cases h with
  | @mk kind a name b w w' next ty initializer hkind hty hinitializer =>
    cases hinitializer with
    | present hvalue =>
      refine .mk hkind ?_ (.present (expressions_retail hvalue next' hnext.2))
      exact hty
    | absent =>
      cases hty with
      | present hty =>
        exact .mk hkind (.present (types_retail hty next' hnext.2.1)) (.absent hnext.2.2)
      | absent => exact .mk hkind (.absent hnext.2.1) (.absent hnext.2.2)

theorem semicolon_retail {semi : List Token} {next next' : Next} {ending : Ending}
    (hsemi : Semicolon semi next) (hending : ending ≠ .closed)
    (h : ending.Stops next' ∨ semi ≠ []) : Semicolon semi next' ∧
      (follow semi next' = follow semi next ∨ ending.Stops (follow semi next')) := by
  cases hsemi with
  | present a => exact ⟨.present a next', .inl rfl⟩
  | absent =>
    have hstops : ending.Stops next' := h.resolve_right fun hne => hne rfl
    exact ⟨.absent (hstops.semicolon hending), .inr hstops⟩

theorem expression_retail {w semi : List Token} {next next' : Next} {value : Expression}
    (h : Expressions .expression w (follow semi next) value)
    (hfollow : follow semi next' = follow semi next ∨ Ending.expression.Stops (follow semi next')) :
    Expressions .expression w (follow semi next') value := by
  cases hfollow with
  | inl hsame =>
    rw [hsame]
    exact h
  | inr hstops => exact expressions_retail h _ hstops.2

theorem ne_nil_of_not_open {x w semi : List Token} (hw : Open (x ++ w))
    (h : ¬Open (x ++ (w ++ semi))) : semi ≠ [] := by
  intro hnil
  subst hnil
  rw [List.append_nil] at h
  exact h hw

/-- A statement is read the same way in front of anything that does not go on its end. -/
def StatementRetails : (c : StatementForm) → List Token → Next → c.Value → Prop
  | .statements _, _, _, _ => True
  | .statement, w, next, v => next ≠ some .rightBrace → ∀ next', next' ≠ some .else →
    (ending v).Stops next' ∨ ¬Open w → Statements .statement w next' v

theorem statements_retail {c : StatementForm} {w : List Token} {next : Next} {v : c.Value}
    (h : Statements c w next v) : StatementRetails c w next v := by
  induction h with
  | @imports a b w c d e names value semi next hnames hsemi =>
    intro _ next' _ hstops
    have hopen : Open ([⟨.import, a⟩, ⟨.leftBrace, b⟩] ++ (w ++ [⟨.rightBrace, c⟩, ⟨.from, d⟩,
        ⟨.stringLiteral value, e⟩])) := by
      rw [← List.append_assoc]
      exact (((open_nil.cons rfl).cons rfl).suffix _ rfl)
    refine .imports hnames (semicolon_retail hsemi (show Ending.name ≠ .closed by decide)
      (hstops.imp_right fun hno => ?_)).1
    refine ne_nil_of_not_open hopen ?_
    rw [List.append_assoc]
    exact hno
  | @importDefault a b d e name value semi next hsemi =>
    intro _ next' _ hstops
    have hopen : Open ([⟨.import, a⟩] ++ [⟨.identifier name, b⟩, ⟨.from, d⟩,
        ⟨.stringLiteral value, e⟩]) := (((open_nil.cons rfl).cons rfl).cons rfl).cons rfl
    exact .importDefault (semicolon_retail hsemi (show Ending.name ≠ .closed by decide)
      (hstops.imp_right (ne_nil_of_not_open hopen))).1
  | «export» _ ih =>
    intro hnext next' helse hstops
    exact .export (ih hnext next' helse (hstops.imp_right fun hno hopen => hno (hopen.cons rfl)))
  | interface hmembers => exact fun _ next' _ _ => .interface hmembers
  | @typeAlias a b c name w semi next ty hty hsemi =>
    intro _ next' _ hstops
    have hopen : Open ([⟨.type, a⟩, ⟨.identifier name, b⟩, ⟨.equals, c⟩] ++ w) :=
      (((open_types hty fun h => nomatch h).cons rfl).cons rfl).cons rfl
    obtain ⟨hsemi', hfollow⟩ := semicolon_retail hsemi (show Ending.type ≠ .closed by decide)
      (hstops.imp_right (ne_nil_of_not_open hopen))
    refine .typeAlias ?_ hsemi'
    cases hfollow with
    | inl hsame =>
      rw [hsame]
      exact hty
    | inr hstops => exact types_retail hty _ hstops.2.1
  | «class» hmembers => exact fun _ next' _ _ => .class hmembers
  | function hparams hty hbody => exact fun _ next' _ _ => .function hparams hty hbody
  | @«variable» token w semi next declaration hvariable hsemi =>
    intro _ next' _ hstops
    have hending : variableEnding declaration ≠ .closed := by
      rw [variableEnding]
      split <;> exact fun h => nomatch h
    obtain ⟨hsemi', hfollow⟩ := semicolon_retail hsemi hending
      (hstops.imp_right fun hno => ne_nil_of_not_open (x := [token]) (open_variableTokens hvariable) hno)
    refine .variable ?_ hsemi'
    cases hfollow with
    | inl hsame =>
      rw [hsame]
      exact hvariable
    | inr hstops => exact variableTokens_retail hvariable hstops
  | @returnNothing a semi next hsemi hclosed =>
    intro hnext next' _ _
    cases hsemi with
    | absent hno =>
      cases hclosed with
      | inl h => exact absurd h hno
      | inr h => exact absurd h hnext
    | present b => exact .returnNothing (.present b _) (.inl rfl)
  | @«return» a w semi next value hvalue hsemi =>
    intro _ next' _ hstops
    obtain ⟨hsemi', hfollow⟩ := semicolon_retail hsemi (show Ending.expression ≠ .closed by decide)
      (hstops.imp_right (ne_nil_of_not_open (x := [⟨.return, a⟩]) ((open_expressions hvalue).cons rfl)))
    exact .return (expression_retail hvalue hfollow) hsemi'
  | @throw a w semi next value hvalue hsemi =>
    intro _ next' _ hstops
    obtain ⟨hsemi', hfollow⟩ := semicolon_retail hsemi (show Ending.expression ≠ .closed by decide)
      (hstops.imp_right (ne_nil_of_not_open (x := [⟨.throw, a⟩]) ((open_expressions hvalue).cons rfl)))
    exact .throw (expression_retail hvalue hfollow) hsemi'
  | @ifThen a b c w w' next test consequent htest _ _ ih =>
    intro hnext next' helse hstops
    exact .ifThen htest (ih hnext next' helse (hstops.imp_right fun hno hopen =>
      hno (hopen.suffix (⟨.if, a⟩ :: ⟨.leftParen, b⟩ :: w) rfl))) helse
  | @ifElse a b c d w w' w'' next test consequent alternate htest hconsequent _ _ ih =>
    intro hnext next' helse hstops
    refine .ifElse htest hconsequent (ih hnext next' helse (hstops.imp_right fun hno hopen => ?_))
    have hsuffix := @Open.suffix ⟨.else, d⟩ w''
      (⟨.if, a⟩ :: ⟨.leftParen, b⟩ :: (w ++ ⟨.rightParen, c⟩ :: w')) rfl hopen
    rw [List.cons_append, List.cons_append, List.append_assoc, List.cons_append] at hsuffix
    exact hno hsuffix
  | @«while» a b c w w' next test body htest _ ih =>
    intro hnext next' helse hstops
    exact .while htest (ih hnext next' helse (hstops.imp_right fun hno hopen =>
      hno (hopen.suffix (⟨.while, a⟩ :: ⟨.leftParen, b⟩ :: w) rfl)))
  | @«for» a b c d e w₁ w₂ w₃ w₄ next initializer test update body hinitializer htest hupdate _ ih =>
    intro hnext next' helse hstops
    refine .for hinitializer htest hupdate (ih hnext next' helse
      (hstops.imp_right fun hno hopen => hno ?_))
    have hsuffix := @Open.suffix ⟨.rightParen, e⟩ w₄
      (⟨.for, a⟩ :: ⟨.leftParen, b⟩ :: (w₁ ++ ⟨.semicolon, c⟩ :: (w₂ ++ ⟨.semicolon, d⟩ :: w₃))) rfl
      hopen
    simp only [List.cons_append, List.append_assoc] at hsuffix
    exact hsuffix
  | block hbody => exact fun _ next' _ _ => .block hbody
  | empty => exact fun _ next' _ _ => .empty
  | @expression w semi next value hvalue hbrace hsemi =>
    intro _ next' _ hstops
    obtain ⟨hsemi', hfollow⟩ := semicolon_retail hsemi (show Ending.expression ≠ .closed by decide)
      (hstops.imp_right (ne_nil_of_not_open (x := []) (open_expressions hvalue)))
    exact .expression (expression_retail hvalue hfollow) hbrace hsemi'
  | nil | cons => trivial

theorem statement_retail {w : List Token} {next : Next} {statement : Statement}
    (h : Statements .statement w next statement) (hnext : next ≠ some .rightBrace) (next' : Next)
    (helse : next' ≠ some .else) (hstops : (ending statement).Stops next' ∨ ¬Open w) :
    Statements .statement w next' statement := statements_retail h hnext next' helse hstops

end Tsvm.Grammar
