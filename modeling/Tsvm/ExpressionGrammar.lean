import Tsvm.TypeGrammar

set_option autoImplicit false

/-!
# The grammar of expressions

As for types: the tokens of an expression and of its parts, what they are read as
and the kind of the next token, which decides where a chain of operators ends.
-/
namespace Tsvm.Grammar
open Ast Lexing Parsing

/-- The parts of an expression. Suffixes close a value, operators that bind at least
as tightly as `minPrecedence` close a left operand. -/
inductive ExpressionForm where
  | expression
  | binary (minPrecedence : ℕ)
  | operators (minPrecedence : ℕ) (left : Expression)
  | unary
  | callMember
  | suffixes (value : Expression)
  | primary
  | arguments (close : TokenKind)
  | properties

abbrev ExpressionForm.Value : ExpressionForm → Type
  | .arguments _ => List Expression
  | .properties => List ObjectProperty
  | _ => Expression

/-- The expressions of one token. -/
def simpleExpression (token : Token) : Option Expression :=
  match token.kind with
  | .identifier name => some (.identifier name token.span)
  | .numberLiteral value => some (.number value token.span)
  | .stringLiteral value => some (.string value token.span)
  | .booleanLiteral value => some (.boolean value token.span)
  | .null => some (.null token.span)
  | .undefined => some (.undefined token.span)
  | _ => none

inductive Expressions : (c : ExpressionForm) → List Token → Next → c.Value → Prop where
  | plain {w next} {value : Expression} : Expressions (.binary 0) w next value →
    next.bind assignmentOperator = none → Expressions .expression w next value
  | assignment {w kind a w' next operator} {left right : Expression} :
    assignmentOperator kind = some operator → Expressions (.binary 0) w (some kind) left →
    Expressions .expression w' next right →
    Expressions .expression (w ++ ⟨kind, a⟩ :: w') next
      (.assignment left operator right ⟨left.span.start, right.span.end⟩)
  | chain {minPrecedence w w' next} {left value : Expression} :
    Expressions .unary w (follow w' next) left →
    Expressions (.operators minPrecedence left) w' next value →
    Expressions (.binary minPrecedence) (w ++ w') next value
  | chained {minPrecedence left} {next : Next} :
    (∀ operator precedence, next.bind binaryOperator = some (operator, precedence) →
      precedence < minPrecedence) →
    Expressions (.operators minPrecedence left) [] next left
  | operator {minPrecedence left kind a w w' next operator precedence} {right value : Expression} :
    binaryOperator kind = some (operator, precedence) → minPrecedence ≤ precedence →
    Expressions (.binary (precedence + 1)) w (follow w' next) right →
    Expressions (.operators minPrecedence
      (.binary left operator right ⟨left.span.start, right.span.end⟩)) w' next value →
    Expressions (.operators minPrecedence left) (⟨kind, a⟩ :: (w ++ w')) next value
  | unary {kind} {a : Span} {w next operator} {value : Expression} :
    unaryOperator kind = some operator → Expressions .unary w next value →
    Expressions .unary (⟨kind, a⟩ :: w) next (.unary operator value ⟨a.start, value.span.end⟩)
  | operand {w next} {value : Expression} : Expressions .callMember w next value →
    Expressions .unary w next value
  | callMember {w w' next} {value result : Expression} :
    Expressions .primary w (follow w' next) value → Expressions (.suffixes value) w' next result →
    Expressions .callMember (w ++ w') next result
  | suffixed {value} {next : Next} : next ≠ some .dot → next ≠ some .leftParen →
    Expressions (.suffixes value) [] next value
  | member {value name} {a b : Span} {w next} {result : Expression} :
    Expressions (.suffixes (.member value name ⟨value.span.start, b.end⟩)) w next result →
    Expressions (.suffixes value) (⟨.dot, a⟩ :: ⟨.identifier name, b⟩ :: w) next result
  | call {value} {a b : Span} {w w' next arguments} {result : Expression} :
    Expressions (.arguments .rightParen) w (some .rightParen) arguments →
    Expressions (.suffixes (.call value arguments ⟨value.span.start, b.end⟩)) w' next result →
    Expressions (.suffixes value) (⟨.leftParen, a⟩ :: (w ++ ⟨.rightParen, b⟩ :: w')) next result
  | simple {token next} {value : Expression} : simpleExpression token = some value →
    Expressions .primary [token] next value
  | group {a b w next} {value : Expression} :
    Expressions .expression w (some .rightParen) value →
    Expressions .primary (⟨.leftParen, a⟩ :: (w ++ [⟨.rightParen, b⟩])) next value
  | object {a b : Span} {w next properties} :
    Expressions .properties w (some .rightBrace) properties →
    Expressions .primary (⟨.leftBrace, a⟩ :: (w ++ [⟨.rightBrace, b⟩])) next
      (.object properties ⟨a.start, b.end⟩)
  | array {a b : Span} {w next elements} :
    Expressions (.arguments .rightBracket) w (some .rightBracket) elements →
    Expressions .primary (⟨.leftBracket, a⟩ :: (w ++ [⟨.rightBracket, b⟩])) next
      (.array elements ⟨a.start, b.end⟩)
  | noArgument {close} : Expressions (.arguments close) [] (some close) []
  | lastArgument {close w next} {value : Expression} : Expressions .expression w next value →
    next ≠ some .comma → Expressions (.arguments close) w next [value]
  | moreArguments {close w a w' next} {value : Expression} {values} :
    Expressions .expression w (some .comma) value → Expressions (.arguments close) w' next values →
    Expressions (.arguments close) (w ++ ⟨.comma, a⟩ :: w') next (value :: values)
  | noProperty : Expressions .properties [] (some .rightBrace) []
  | lastProperty {token : Token} {name a w next} {value : Expression} :
    propertyName token.kind = some name → Expressions .expression w next value →
    next ≠ some .comma →
    Expressions .properties (token :: ⟨.colon, a⟩ :: w) next
      [.mk name value ⟨token.span.start, value.span.end⟩]
  | moreProperties {token : Token} {name a w b w' next} {value : Expression} {properties} :
    propertyName token.kind = some name → Expressions .expression w (some .comma) value →
    Expressions .properties w' next properties →
    Expressions .properties (token :: ⟨.colon, a⟩ :: (w ++ ⟨.comma, b⟩ :: w')) next
      (.mk name value ⟨token.span.start, value.span.end⟩ :: properties)

/-- An argument or an element on its own. -/
inductive ArgumentTokens : List Token → Next → Option Expression × Bool → Prop where
  | last {w next} {value : Expression} : Expressions .expression w next value →
    next ≠ some .comma → ArgumentTokens w next (some value, false)
  | more {w a next} {value : Expression} : Expressions .expression w (some .comma) value →
    ArgumentTokens (w ++ [⟨.comma, a⟩]) next (some value, true)

/-- A property on its own. -/
inductive PropertyTokens : List Token → Next → Option ObjectProperty × Bool → Prop where
  | last {token : Token} {name a w next} {value : Expression} :
    propertyName token.kind = some name → Expressions .expression w next value →
    next ≠ some .comma →
    PropertyTokens (token :: ⟨.colon, a⟩ :: w) next
      (some (.mk name value ⟨token.span.start, value.span.end⟩), false)
  | more {token : Token} {name a w b next} {value : Expression} :
    propertyName token.kind = some name → Expressions .expression w (some .comma) value →
    PropertyTokens (token :: ⟨.colon, a⟩ :: (w ++ [⟨.comma, b⟩])) next
      (some (.mk name value ⟨token.span.start, value.span.end⟩), true)

theorem arguments_of_listed {close : TokenKind} {w : List Token} {next : Next}
    {values : List Expression} (h : Listed close ArgumentTokens w next values) :
    Expressions (.arguments close) w next values := by
  induction h with
  | nil => exact .noArgument
  | stop _ _ hargument =>
    cases hargument with
    | last hvalue hnext => exact .lastArgument hvalue hnext
  | more _ _ hargument _ ih =>
    cases hargument with
    | more hvalue => simpa using Expressions.moreArguments hvalue ih

theorem properties_of_listed {w : List Token} {next : Next} {properties : List ObjectProperty}
    (h : Listed .rightBrace PropertyTokens w next properties) :
    Expressions .properties w next properties := by
  induction h with
  | nil => exact .noProperty
  | stop _ _ hproperty =>
    cases hproperty with
    | last hname hvalue hnext => exact .lastProperty hname hvalue hnext
  | more _ _ hproperty _ ih =>
    cases hproperty with
    | more hname hvalue => simpa using Expressions.moreProperties hname hvalue ih

def startsOperand : TokenKind → Bool
  | .identifier _ | .numberLiteral _ | .stringLiteral _ | .booleanLiteral _ | .null | .undefined
  | .leftParen | .leftBrace | .leftBracket => true
  | _ => false

def startsExpression (kind : TokenKind) : Bool := startsOperand kind || (unaryOperator kind).isSome

/-- What the first token of a part is like. -/
def ExpressionForm.Starts : ExpressionForm → List Token → Prop
  | .expression, w | .binary _, w | .unary, w =>
    ∃ token w', w = token :: w' ∧ startsExpression token.kind = true
  | .callMember, w | .primary, w => ∃ token w', w = token :: w' ∧ startsOperand token.kind = true
  | _, _ => True

theorem expressions_starts {c : ExpressionForm} {w : List Token} {next : Next} {v : c.Value}
    (h : Expressions c w next v) : c.Starts w := by
  induction h with
  | plain _ _ ih => exact ih
  | assignment _ _ _ ih =>
    obtain ⟨token, w', rfl, hstart⟩ := ih
    exact ⟨token, _, rfl, hstart⟩
  | chain _ _ ih =>
    obtain ⟨token, w', rfl, hstart⟩ := ih
    exact ⟨token, _, rfl, hstart⟩
  | unary hoperator =>
    refine ⟨_, _, rfl, ?_⟩
    rw [startsExpression, hoperator]
    exact Bool.or_true _
  | operand _ ih =>
    obtain ⟨token, w', rfl, hstart⟩ := ih
    refine ⟨token, w', rfl, ?_⟩
    rw [startsExpression, hstart]
    rfl
  | callMember _ _ ih =>
    obtain ⟨token, w', rfl, hstart⟩ := ih
    exact ⟨token, _, rfl, hstart⟩
  | @simple token next value hsimple =>
    refine ⟨token, [], rfl, ?_⟩
    obtain ⟨kind, span⟩ := token
    cases kind with
    | identifier name | numberLiteral value | stringLiteral value | booleanLiteral value | null
    | undefined => rfl
    | _ => exact nomatch hsimple
  | group | object | array => exact ⟨_, _, rfl, rfl⟩
  | _ => trivial

theorem expression_starts {w : List Token} {next : Next} {value : Expression}
    (h : Expressions .expression w next value) :
    ∃ token w', w = token :: w' ∧ startsExpression token.kind = true := expressions_starts h

theorem expression_ne_nil {w : List Token} {next : Next} {value : Expression}
    (h : Expressions .expression w next value) : w ≠ [] := by
  obtain ⟨token, w', rfl, _⟩ := expression_starts h
  exact List.cons_ne_nil _ _

theorem kindOf_ne_of_starts {w : List Token} {next : Next} {value : Expression} {kind : TokenKind}
    (h : Expressions .expression w next value) (hkind : startsExpression kind = false) :
    kindOf w ≠ some kind := by
  obtain ⟨token, w', rfl, hstart⟩ := expression_starts h
  intro heq
  rw [kindOf_cons, Option.some_inj] at heq
  rw [heq, hkind] at hstart
  exact Bool.false_ne_true hstart

theorem errorExpression_sound {s : Parser} {P : List Token → Expression → Parser → Prop} :
    Sound s errorExpression P :=
  .get_bind (.errorAt_bind fun _ => .pure trivial)

section Sound

variable {expression : Parse Expression} {n : ℕ} (hexpression : ∀ s, Sound s expression
  fun w v t => s.remaining < n → Expressions .expression w (kindOf t.rest) v)

include hexpression

theorem argument_sound (s : Parser) : Sound s (argument expression) fun w v t =>
    s.remaining < n → w ≠ [] ∧ ArgumentTokens w (kindOf t.rest) v := by
  refine (hexpression s).bind fun value t => .matchKind_bind (fun a t₁ => .pure ?_) fun hcomma =>
    .pure ?_
  · intro ha w hw hvalue hn
    have hexpr := hvalue hn
    rw [ha.follow] at hexpr
    exact ⟨List.append_ne_nil_of_left_ne_nil (expression_ne_nil hexpr) _, .more hexpr⟩
  · intro w hw hvalue hn
    rw [List.append_nil]
    exact ⟨expression_ne_nil (hvalue hn), .last (hvalue hn) hcomma⟩

theorem objectProperty_sound (s : Parser) : Sound s (objectProperty expression) fun w v t =>
    s.remaining < n + 1 → w ≠ [] ∧ PropertyTokens w (kindOf t.rest) v := by
  refine .get_bind (.consumePropertyName_bind fun name t => .expect_bind fun a t₁ => ?_)
  refine (hexpression t₁).bind fun value t₂ => .matchKind_bind (fun b t₃ => .pure ?_) fun hcomma =>
    .pure ?_
  · intro hb w hw hvalue ha name' token hname hkind htoken hn
    have hlt := htoken.lt
    have hle := ha.le
    have hexpr := hvalue (by omega)
    rw [hb.follow] at hexpr
    subst hname
    rw [htoken.currentStart]
    exact ⟨List.cons_ne_nil _ _, .more hkind hexpr⟩
  · intro w hw hvalue ha name' token hname hkind htoken hn
    have hlt := htoken.lt
    have hle := ha.le
    subst hname
    rw [htoken.currentStart, List.append_nil]
    exact ⟨List.cons_ne_nil _ _, .last hkind (hvalue (by omega)) hcomma⟩

theorem parsePrimary_sound (s : Parser) : Sound s (parsePrimary expression) fun w v t =>
    s.remaining < n + 1 → Expressions .primary w (kindOf t.rest) v := by
  refine .advance_bind errorExpression_sound fun token t => ?_
  obtain ⟨kind, span⟩ := token
  cases kind with
  | identifier name | numberLiteral value | stringLiteral value | booleanLiteral value | null
  | undefined => exact .pure fun _ _ => .simple rfl
  | leftParen =>
    refine (hexpression t).bind fun value t₁ => .expect_bind fun b t₂ => .pure ?_
    intro hb w hw hvalue ha hn
    have hlt := ha.lt
    have hexpr := hvalue (by omega)
    rw [hb.follow] at hexpr
    exact .group hexpr
  | leftBrace =>
    refine (listUntil_sound (objectProperty_sound hexpression) t).bind fun properties t₁ => ?_
    refine .expect_bind fun b t₂ => .get_bind (.pure ?_)
    intro hb w hw hproperties ha hn
    have hlt := ha.lt
    have hlist := hproperties (by omega) hb.follow
    rw [hb.follow] at hlist
    rw [hb.previousEnd]
    exact .object (properties_of_listed hlist)
  | leftBracket =>
    refine (listUntil_sound (argument_sound hexpression) t).bind fun elements t₁ => ?_
    refine .expect_bind fun b t₂ => .get_bind (.pure ?_)
    intro hb w hw helements ha hn
    have hlt := ha.lt
    have hlist := helements (by omega) hb.follow
    rw [hb.follow] at hlist
    rw [hb.previousEnd]
    exact .array (arguments_of_listed hlist)
  | _ => exact .errorAt_bind fun _ => .pure trivial

theorem callMemberLoop_sound (turns : ℕ) (value : Expression) (s : Parser) :
    Sound s (callMemberLoop expression turns value) fun w v t => s.remaining < turns →
      s.remaining < n + 1 → Expressions (.suffixes value) w (kindOf t.rest) v := by
  induction turns generalizing value s with
  | zero => exact .pure fun hturns => absurd hturns (Nat.not_lt_zero _)
  | succ turns ih =>
    refine .matchKind_bind (fun a t => ?_) fun hdot => .matchKind_bind (fun a t => ?_) fun hparen => ?_
    · refine .consumeIdentifier_bind fun property t₁ => .get_bind ?_
      refine (ih _ t₁).mono fun w v u _ hw name b hname hb ha hturns hn => ?_
      have hlt := ha.lt
      have hle := hb.le
      subst hname
      rw [hb.previousEnd] at hw
      exact .member (hw (by omega) (by omega))
    · refine (listUntil_sound (argument_sound hexpression) t).bind fun arguments t₁ => ?_
      refine .expect_bind fun b t₂ => .get_bind ?_
      refine (ih _ t₂).mono fun w v u _ hw hb x hx harguments ha hturns hn => ?_
      have hlt := ha.lt
      have hle := (hx.trans hb).le
      have hlist := harguments (by omega) hb.follow
      rw [hb.follow] at hlist
      rw [hb.previousEnd] at hw
      exact .call (arguments_of_listed hlist) (hw (by omega) (by omega))
    · exact .pure fun _ _ => .suffixed hdot hparen

theorem parseCallMember_sound (s : Parser) : Sound s (parseCallMember expression) fun w v t =>
    s.remaining < n + 1 → Expressions .callMember w (kindOf t.rest) v := by
  refine (parsePrimary_sound hexpression s).bind fun value t => .get_bind ?_
  refine (callMemberLoop_sound hexpression _ value t).mono fun w v u hread hw x hx hvalue hn => ?_
  have hle := hx.le
  have hprimary := hvalue hn
  rw [hread.follow] at hprimary
  exact .callMember hprimary (hw (Nat.lt_succ_self _) (by omega))

theorem parseUnary_sound (turns : ℕ) (s : Parser) : Sound s (parseUnary expression turns)
    fun w v t => s.remaining < n + 1 → Expressions .unary w (kindOf t.rest) v := by
  induction turns generalizing s with
  | zero => exact errorExpression_sound
  | succ turns ih =>
    refine .get_bind ?_
    cases hpeek : s.peek with
    | none => exact errorExpression_sound
    | some token =>
      cases hoperator : unaryOperator token.kind with
      | none =>
        refine .of_eq (parseCallMember expression) ?_
          ((parseCallMember_sound hexpression s).mono fun w v t _ hw hn => .operand (hw hn))
        simp only [hoperator]
      | some operator =>
        simp only [hoperator]
        have hkind : kindOf s.rest = some token.kind := by
          rw [← Parser.peekKind_eq, Parser.peekKind, hpeek]
          rfl
        refine .advance_bind_of_kind hkind fun a t => (ih t).bind fun value t₁ => .pure ?_
        intro w hw hvalue hread hn
        have hlt := hread.lt
        have hspan : token.span.start = a.start := by
          have heq := hread.peek.symm.trans hpeek
          rw [← Option.some_inj.mp heq]
        rw [hspan, List.append_nil]
        exact .unary hoperator (hvalue (by omega))

theorem binary_sound (turns : ℕ) :
    (∀ minPrecedence s, Sound s (parseBinary expression turns minPrecedence) fun w v t =>
      2 * s.remaining + 2 ≤ turns → s.remaining < n + 1 →
        Expressions (.binary minPrecedence) w (kindOf t.rest) v) ∧
    ∀ minPrecedence left s, Sound s (binaryLoop expression turns minPrecedence left) fun w v t =>
      2 * s.remaining + 1 ≤ turns → s.remaining < n + 1 →
        Expressions (.operators minPrecedence left) w (kindOf t.rest) v := by
  induction turns with
  | zero =>
    refine ⟨fun minPrecedence s => ?_, fun minPrecedence left s => .pure fun hturns => ?_⟩
    · rw [parseBinary]
      exact errorExpression_sound
    · omega
  | succ turns ih =>
    refine ⟨fun minPrecedence s => ?_, fun minPrecedence left s => ?_⟩
    · rw [parseBinary]
      refine .get_bind ((parseUnary_sound hexpression _ s).bind fun left t => ?_)
      refine (ih.2 minPrecedence left t).mono fun w v u hread hw x hx hleft hturns hn => ?_
      have hle := hx.le
      have hunary := hleft hn
      rw [hread.follow] at hunary
      exact .chain hunary (hw (by omega) (by omega))
    · rw [binaryLoop]
      refine .get_bind ?_
      rw [Parser.peekKind_eq]
      cases hnext : (kindOf s.rest).bind binaryOperator with
      | none =>
        refine .pure fun _ _ => .chained fun operator precedence hoperator => ?_
        rw [hnext] at hoperator
        exact nomatch hoperator
      | some pair =>
        obtain ⟨operator, precedence⟩ := pair
        by_cases hless : precedence < minPrecedence
        · simp only [if_pos hless]
          refine .pure fun _ _ => .chained fun operator' precedence' hoperator => ?_
          rw [hnext, Option.some_inj, Prod.mk.injEq] at hoperator
          rw [← hoperator.2]
          exact hless
        · simp only [if_neg hless]
          obtain ⟨kind, hkind, hoperator⟩ := Option.bind_eq_some_iff.mp hnext
          refine .advance_bind_of_kind hkind fun a t => ?_
          refine (ih.1 (precedence + 1) t).bind fun right t₁ => ?_
          refine (ih.2 minPrecedence _ t₁).mono fun w v u hread hw x hx hright ha hturns hn => ?_
          have hlt := ha.lt
          have hle := hx.le
          have hbinary := hright (by omega) (by omega)
          rw [hread.follow] at hbinary
          exact .operator hoperator (by omega) hbinary (hw (by omega) (by omega))

theorem parseAssignment_sound (s : Parser) : Sound s (parseAssignment expression) fun w v t =>
    s.remaining < n + 1 → Expressions .expression w (kindOf t.rest) v := by
  refine .get_bind (((binary_sound hexpression _).1 0 s).bind fun left t => .get_bind ?_)
  rw [Parser.peekKind_eq]
  cases hnext : (kindOf t.rest).bind assignmentOperator with
  | none =>
    refine .pure fun w hw hleft hn => ?_
    rw [List.append_nil]
    exact .plain (hleft (by omega) hn) hnext
  | some operator =>
    obtain ⟨kind, hkind, hoperator⟩ := Option.bind_eq_some_iff.mp hnext
    refine .advance_bind_of_kind hkind fun a t₁ => (hexpression t₁).bind fun right t₂ => .pure ?_
    intro w hw hright ha x hx hleft hn
    have hle := hx.le
    have hlt := ha.lt
    have hbinary := hleft (by omega) hn
    rw [hkind] at hbinary
    rw [List.append_nil]
    exact .assignment hoperator hbinary (hright (by omega))

end Sound

theorem parseExpressionWithin_sound (fuel : ℕ) (s : Parser) : Sound s (parseExpressionWithin fuel)
    fun w v t => s.remaining < fuel → Expressions .expression w (kindOf t.rest) v := by
  induction fuel generalizing s with
  | zero => exact errorExpression_sound
  | succ fuel ih => exact parseAssignment_sound ih s

theorem parseExpression_sound (s : Parser) :
    Sound s parseExpression fun w v t => Expressions .expression w (kindOf t.rest) v :=
  .get_bind ((parseExpressionWithin_sound _ s).mono fun _ _ _ _ hw => hw (Nat.lt_succ_self _))

section Runs

variable {expression : Parse Expression} {n : ℕ} (hexpression : ∀ s w v t, s.remaining < n →
  s.Reads w t → Expressions .expression w (kindOf t.rest) v → expression s = (v, t))

include hexpression

theorem argument_run (s : Parser) (w : List Token) (v : Option Expression × Bool) (t : Parser)
    (hn : s.remaining < n) (hread : s.Reads w t) (hargument : ArgumentTokens w (kindOf t.rest) v) :
    argument expression s = (v, t) := by
  cases hargument with
  | last hvalue hnext =>
    refine run_bind (hexpression s w _ t hn hread hvalue) ?_
    exact run_bind (matchKind_run_false hnext) rfl
  | @more w a _ value hvalue =>
    obtain ⟨t₁, hw, ha⟩ := hread.split
    refine run_bind (hexpression s w _ t₁ hn hw (ha.first ▸ hvalue)) ?_
    exact run_bind (matchKind_run ha) rfl

theorem objectProperty_run (s : Parser) (w : List Token) (v : Option ObjectProperty × Bool)
    (t : Parser) (hn : s.remaining < n + 1) (hread : s.Reads w t)
    (hproperty : PropertyTokens w (kindOf t.rest) v) : objectProperty expression s = (v, t) := by
  cases hproperty with
  | last hname hvalue hnext =>
    obtain ⟨t₁, htoken, hread⟩ := hread.uncons
    obtain ⟨t₂, ha, hw⟩ := hread.uncons
    have hlt := htoken.lt
    have hle := ha.le
    refine run_get (run_bind (consumePropertyName_run _ hname htoken) (run_bind (expect_run _ ha) ?_))
    refine run_bind (hexpression t₂ _ _ t (by omega) hw hvalue) ?_
    rw [htoken.currentStart]
    exact run_bind (matchKind_run_false hnext) rfl
  | more hname hvalue =>
    obtain ⟨t₁, htoken, hread⟩ := hread.uncons
    obtain ⟨t₂, ha, hread⟩ := hread.uncons
    obtain ⟨t₃, hw, hb⟩ := hread.split
    have hlt := htoken.lt
    have hle := ha.le
    refine run_get (run_bind (consumePropertyName_run _ hname htoken) (run_bind (expect_run _ ha) ?_))
    refine run_bind (hexpression t₂ _ _ t₃ (by omega) hw (hb.first ▸ hvalue)) ?_
    rw [htoken.currentStart]
    exact run_bind (matchKind_run hb) rfl

end Runs

/-- What the functions of the parser do on a part of an expression. -/
def ExpressionRun (expression : Parse Expression) (n : ℕ) :
    (c : ExpressionForm) → List Token → Next → c.Value → Prop
  | .expression, w, next, value => ∀ s t, s.remaining < n + 1 → s.Reads w t →
    kindOf t.rest = next → parseAssignment expression s = (value, t)
  | .binary minPrecedence, w, next, value => ∀ turns s t, 2 * s.remaining + 2 ≤ turns →
    s.remaining < n + 1 → s.Reads w t → kindOf t.rest = next →
    parseBinary expression turns minPrecedence s = (value, t)
  | .operators minPrecedence left, w, next, value => ∀ turns s t, 2 * s.remaining + 1 ≤ turns →
    s.remaining < n + 1 → s.Reads w t → kindOf t.rest = next →
    binaryLoop expression turns minPrecedence left s = (value, t)
  | .unary, w, next, value => ∀ turns s t, s.remaining < turns → s.remaining < n + 1 →
    s.Reads w t → kindOf t.rest = next → parseUnary expression turns s = (value, t)
  | .callMember, w, next, value => ∀ s t, s.remaining < n + 1 → s.Reads w t →
    kindOf t.rest = next → parseCallMember expression s = (value, t)
  | .suffixes value, w, next, result => ∀ turns s t, s.remaining < turns → s.remaining < n + 1 →
    s.Reads w t → kindOf t.rest = next → callMemberLoop expression turns value s = (result, t)
  | .primary, w, next, value => ∀ s t, s.remaining < n + 1 → s.Reads w t →
    kindOf t.rest = next → parsePrimary expression s = (value, t)
  | .arguments close, w, next, values => startsExpression close = false →
    Listed close ArgumentTokens w next values
  | .properties, w, next, properties => Listed .rightBrace PropertyTokens w next properties

theorem propertyName_ne_rightBrace {token : Token} {name : String} {w : List Token}
    (hname : propertyName token.kind = some name) :
    kindOf (token :: w) ≠ some .rightBrace := by
  intro hclose
  rw [kindOf_cons, Option.some_inj] at hclose
  rw [hclose] at hname
  exact nomatch hname

theorem expressionRun {expression : Parse Expression} {n : ℕ}
    (hexpression : ∀ s w v t, s.remaining < n → s.Reads w t →
      Expressions .expression w (kindOf t.rest) v → expression s = (v, t))
    {c : ExpressionForm} {w : List Token} {next : Next} {v : c.Value} (h : Expressions c w next v) :
    ExpressionRun expression n c w next v := by
  induction h with
  | plain _ hnext ih =>
    intro s t hn hread hkind
    refine run_get (run_bind (ih _ s t (Nat.le_refl _) hn hread hkind) (run_get ?_))
    rw [Parser.peekKind_eq, hkind, hnext]
    rfl
  | @assignment w kind a w' next operator left right hoperator _ hright ih _ =>
    intro s t hn hread hkind
    obtain ⟨t₁, hw, hread⟩ := hread.split
    obtain ⟨t₂, ha, hread⟩ := hread.uncons
    have hle := hw.le
    have hlt := ha.lt
    have hnext := ha.first
    refine run_get (run_bind (ih _ s t₁ (Nat.le_refl _) hn hw hnext) (run_get ?_))
    rw [Parser.peekKind_eq, hnext, Option.bind_some, hoperator]
    refine run_bind (advance_run ha) ?_
    exact run_bind (hexpression t₂ w' right t (by omega) hread (hkind ▸ hright)) rfl
  | chain _ _ ih ih' =>
    intro turns s t hturns hn hread hkind
    obtain ⟨t₁, hw, hread⟩ := hread.split
    obtain ⟨turns, rfl⟩ := Nat.exists_eq_add_of_le' (show 1 ≤ turns by omega)
    have hle := hw.le
    have hnext := hread.follow
    rw [hkind] at hnext
    rw [parseBinary]
    refine run_get (run_bind (ih _ s t₁ (Nat.lt_succ_self _) hn hw hnext) ?_)
    exact ih' turns t₁ t (by omega) (by omega) hread hkind
  | @chained minPrecedence left next hchained =>
    intro turns s t hturns hn hread hkind
    obtain ⟨turns, rfl⟩ := Nat.exists_eq_add_of_le' (show 1 ≤ turns by omega)
    rw [hread.nil_eq] at hkind ⊢
    rw [binaryLoop]
    refine run_get ?_
    rw [Parser.peekKind_eq, hkind]
    cases hnext : next.bind binaryOperator with
    | none => rfl
    | some pair =>
      obtain ⟨operator, precedence⟩ := pair
      simp only [if_pos (hchained operator precedence hnext)]
      rfl
  | @operator minPrecedence left kind a w w' next operator precedence right value hoperator hmin _ _
      ih ih' =>
    intro turns s t hturns hn hread hkind
    obtain ⟨turns, rfl⟩ := Nat.exists_eq_add_of_le' (show 1 ≤ turns by omega)
    obtain ⟨t₁, ha, hread⟩ := hread.uncons
    obtain ⟨t₂, hw, hread⟩ := hread.split
    have hlt := ha.lt
    have hle := hw.le
    have hfirst := ha.first
    have hnext := hread.follow
    rw [hkind] at hnext
    rw [binaryLoop]
    refine run_get ?_
    rw [Parser.peekKind_eq, hfirst, Option.bind_some, hoperator]
    simp only [if_neg (Nat.not_lt.mpr hmin)]
    refine run_bind (advance_run ha) ?_
    refine run_bind (ih turns t₁ t₂ (by omega) (by omega) hw hnext) ?_
    exact ih' turns t₂ t (by omega) (by omega) hread hkind
  | unary hoperator _ ih =>
    intro turns s t hturns hn hread hkind
    obtain ⟨turns, rfl⟩ := Nat.exists_eq_add_of_le' (show 1 ≤ turns by omega)
    obtain ⟨t₁, ha, hread⟩ := hread.uncons
    have hlt := ha.lt
    refine run_get ?_
    rw [ha.peek]
    simp only [hoperator]
    refine run_bind (advance_run ha) ?_
    exact run_bind (ih turns t₁ t (by omega) (by omega) hread hkind) rfl
  | operand hvalue ih =>
    intro turns s t hturns hn hread hkind
    obtain ⟨turns, rfl⟩ := Nat.exists_eq_add_of_le' (show 1 ≤ turns by omega)
    obtain ⟨token, w', rfl, hstart⟩ := expressions_starts hvalue
    have hoperator : unaryOperator token.kind = none := by
      cases hkind : token.kind with
      | bang | minus =>
        rw [hkind] at hstart
        exact nomatch hstart
      | _ => rfl
    refine run_get ?_
    rw [hread.peek]
    simp only [hoperator]
    exact ih s t hn hread hkind
  | callMember _ _ ih ih' =>
    intro s t hn hread hkind
    obtain ⟨t₁, hw, hread⟩ := hread.split
    have hle := hw.le
    have hnext := hread.follow
    rw [hkind] at hnext
    refine run_bind (ih s t₁ hn hw hnext) (run_get ?_)
    exact ih' _ t₁ t (Nat.lt_succ_self _) (by omega) hread hkind
  | suffixed hdot hparen =>
    intro turns s t hturns hn hread hkind
    obtain ⟨turns, rfl⟩ := Nat.exists_eq_add_of_lt hturns
    rw [hread.nil_eq] at hkind ⊢
    refine run_bind (matchKind_run_false (hkind ▸ hdot)) ?_
    exact run_bind (matchKind_run_false (hkind ▸ hparen)) rfl
  | member _ ih =>
    intro turns s t hturns hn hread hkind
    obtain ⟨turns, rfl⟩ := Nat.exists_eq_add_of_lt hturns
    obtain ⟨t₁, ha, hread⟩ := hread.uncons
    obtain ⟨t₂, hb, hread⟩ := hread.uncons
    have hlt := ha.lt
    have hle := hb.le
    refine run_bind (matchKind_run ha) (run_bind (consumeIdentifier_run _ hb) (run_get ?_))
    rw [hb.previousEnd]
    exact ih _ t₂ t (by omega) (by omega) hread hkind
  | call _ _ ih ih' =>
    intro turns s t hturns hn hread hkind
    obtain ⟨turns, rfl⟩ := Nat.exists_eq_add_of_lt hturns
    obtain ⟨t₁, ha, hread⟩ := hread.uncons
    obtain ⟨t₂, hw, hread⟩ := hread.split
    obtain ⟨t₃, hb, hread⟩ := hread.uncons
    have hlt := ha.lt
    have hle := hw.le
    have hle' := hb.le
    have hdot : kindOf s.rest ≠ some .dot := by
      rw [ha.first]
      exact fun heq => nomatch heq
    have hlisted := ih rfl
    rw [← hb.first] at hlisted
    refine run_bind (matchKind_run_false hdot) (run_bind (matchKind_run ha) ?_)
    refine run_bind (listUntil_run (argument_run hexpression) hw (by omega) hlisted) ?_
    refine run_bind (expect_run _ hb) (run_get ?_)
    rw [hb.previousEnd]
    exact ih' _ t₃ t (by omega) (by omega) hread hkind
  | @simple token next value hsimple =>
    intro s t hn hread hkind
    obtain ⟨kind, span⟩ := token
    refine run_bind (advance_run hread) ?_
    cases kind with
    | identifier name | numberLiteral value | stringLiteral value | booleanLiteral value | null
    | undefined =>
      rw [← Option.some_inj.mp hsimple]
      rfl
    | _ => exact nomatch hsimple
  | group hvalue _ =>
    intro s t hn hread hkind
    obtain ⟨t₁, ha, hread⟩ := hread.uncons
    obtain ⟨t₂, hw, hb⟩ := hread.split
    have hlt := ha.lt
    refine run_bind (advance_run ha) ?_
    refine run_bind (hexpression t₁ _ _ t₂ (by omega) hw (hb.first ▸ hvalue)) ?_
    exact run_bind (expect_run _ hb) rfl
  | object _ ih =>
    intro s t hn hread hkind
    obtain ⟨t₁, ha, hread⟩ := hread.uncons
    obtain ⟨t₂, hw, hb⟩ := hread.split
    have hlt := ha.lt
    have hlisted : Listed _ _ _ _ _ := ih
    rw [← hb.first] at hlisted
    refine run_bind (advance_run ha) ?_
    refine run_bind (listUntil_run (objectProperty_run hexpression) hw (by omega) hlisted) ?_
    refine run_bind (expect_run _ hb) (run_get ?_)
    rw [hb.previousEnd]
    rfl
  | array _ ih =>
    intro s t hn hread hkind
    obtain ⟨t₁, ha, hread⟩ := hread.uncons
    obtain ⟨t₂, hw, hb⟩ := hread.split
    have hlt := ha.lt
    have hlisted := ih rfl
    rw [← hb.first] at hlisted
    refine run_bind (advance_run ha) ?_
    refine run_bind (listUntil_run (argument_run hexpression) hw (by omega) hlisted) ?_
    refine run_bind (expect_run _ hb) (run_get ?_)
    rw [hb.previousEnd]
    rfl
  | noArgument => exact fun _ => .nil
  | lastArgument hvalue hnext =>
    intro hclose
    exact .stop (expression_ne_nil hvalue) (kindOf_ne_of_starts hvalue hclose)
      (ArgumentTokens.last hvalue hnext)
  | @moreArguments close w a w' next value values hvalue _ _ ih =>
    intro hclose
    have hne : w ++ [⟨.comma, a⟩] ≠ [] :=
      List.append_ne_nil_of_left_ne_nil (expression_ne_nil hvalue) _
    have hkind : kindOf (w ++ [⟨.comma, a⟩]) ≠ some close := by
      have hfirst := kindOf_ne_of_starts hvalue hclose
      obtain ⟨token, w', rfl, _⟩ := expression_starts hvalue
      exact hfirst
    simpa [ExpressionRun] using Listed.more hne hkind (ArgumentTokens.more hvalue) (ih hclose)
  | noProperty => exact .nil
  | lastProperty hname hvalue hnext =>
    exact .stop (List.cons_ne_nil _ _) (propertyName_ne_rightBrace hname)
      (PropertyTokens.last hname hvalue hnext)
  | moreProperties hname hvalue _ _ ih =>
    simpa [ExpressionRun] using Listed.more (List.cons_ne_nil _ _)
      (propertyName_ne_rightBrace hname) (PropertyTokens.more hname hvalue) ih

theorem parseExpressionWithin_run (fuel : ℕ) (s : Parser) (w : List Token) (value : Expression)
    (t : Parser) (hfuel : s.remaining < fuel) (hread : s.Reads w t)
    (h : Expressions .expression w (kindOf t.rest) value) :
    parseExpressionWithin fuel s = (value, t) := by
  induction fuel generalizing s w value t with
  | zero => exact absurd hfuel (Nat.not_lt_zero _)
  | succ fuel ih => exact expressionRun ih h s t hfuel hread rfl

theorem parseExpression_run {s t : Parser} {w : List Token} {value : Expression}
    (hread : s.Reads w t) (h : Expressions .expression w (kindOf t.rest) value) :
    parseExpression s = (value, t) :=
  run_get (parseExpressionWithin_run _ s w value t (Nat.lt_succ_self _) hread h)

end Tsvm.Grammar
