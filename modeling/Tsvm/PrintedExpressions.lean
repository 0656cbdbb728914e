import Tsvm.Printing
import Tsvm.GrammarEnds

set_option autoImplicit false

/-!
# Printed types and expressions

The grammar reads the tokens of a printed type or expression as what was printed.
Left operands are chains: what is shown of an operand is how it goes on.
-/
namespace Tsvm.Printing
open Ast Lexing Parsing Grammar

theorem kinds_nil {w : List Token} (h : kinds w = []) : w = [] := List.map_eq_nil_iff.mp h

theorem kinds_cons {w : List Token} {kind : TokenKind} {x : List TokenKind}
    (h : kinds w = kind :: x) : ∃ a w', w = ⟨kind, a⟩ :: w' ∧ kinds w' = x := by
  cases w with
  | nil => exact nomatch h
  | cons token w =>
    obtain ⟨hkind, hrest⟩ := List.cons.inj h
    subst hkind
    exact ⟨token.span, w, rfl, hrest⟩

theorem kinds_append {w : List Token} {x y : List TokenKind} (h : kinds w = x ++ y) :
    ∃ w₁ w₂, w = w₁ ++ w₂ ∧ kinds w₁ = x ∧ kinds w₂ = y := by
  obtain ⟨w₁, w₂, hw, hx, hy⟩ := List.map_eq_append_iff.mp h
  exact ⟨w₁, w₂, hw, hx, hy⟩

theorem kinds_single {w : List Token} {kind : TokenKind} (h : kinds w = [kind]) :
    ∃ a, w = [⟨kind, a⟩] := by
  obtain ⟨a, w', rfl, hw'⟩ := kinds_cons h
  exact ⟨a, by rw [kinds_nil hw']⟩

theorem kindOf_eq_head (w : List Token) : kindOf w = (kinds w).head? := by
  cases w <;> rfl

@[simp] theorem relocate_nowhere (a : Span) :
    a.relocate nowhere = ⟨⟨0, 0, 0⟩, ⟨0, 0, 0⟩⟩ := rfl

/-- A type as it is read from its tokens, whatever suffixes are behind them. -/
def TypeRead (ty : TypeNode) (w : List Token) : Prop :=
  ∃ v start, TypeNode.relocate nowhere v = ty.relocate nowhere ∧
    ∀ w' next result, Types (.suffixes start v) w' next result → Types .type (w ++ w') next result

theorem TypeRead.type {ty : TypeNode} {w : List Token} (h : TypeRead ty w) :
    ∃ v : TypeNode, v.relocate nowhere = ty.relocate nowhere ∧
      ∀ next, next ≠ some .leftBracket → Types .type w next v := by
  obtain ⟨v, start, hv, hread⟩ := h
  refine ⟨v, hv, fun next hnext => ?_⟩
  have htype := hread [] next v (.done hnext)
  rwa [List.append_nil] at htype

theorem typeRead_simple {ty v : TypeNode} {token : Token} (hsimple : simpleType token = some v)
    (hv : v.relocate nowhere = ty.relocate nowhere) : TypeRead ty [token] :=
  ⟨v, token.span.start, hv, fun _ _ _ hsuffixes => .simple hsimple hsuffixes⟩

mutual

theorem type_printed (ty : TypeNode) {w : List Token} (h : kinds w = typeKinds ty) :
    TypeRead ty w := by
  cases ty with
  | number | string | boolean | null | undefined | named =>
    obtain ⟨a, rfl⟩ := kinds_single h
    exact typeRead_simple rfl rfl
  | array inner span =>
    rw [typeKinds] at h
    obtain ⟨w₁, w₂, rfl, hinner, hbrackets⟩ := kinds_append h
    obtain ⟨a, w₃, rfl, hlast⟩ := kinds_cons hbrackets
    obtain ⟨b, rfl⟩ := kinds_single hlast
    obtain ⟨v, start, hv, hread⟩ := type_printed inner hinner
    refine ⟨.array v ⟨start, b.end⟩, start, ?_, fun w' next result hsuffixes => ?_⟩
    · rw [TypeNode.relocate, TypeNode.relocate, hv]
      rfl
    · rw [List.append_assoc]
      exact hread _ next result (.array hsuffixes)
  | object members span =>
    rw [typeKinds] at h
    obtain ⟨a, w₁, rfl, hrest⟩ := kinds_cons h
    obtain ⟨w₂, w₃, rfl, hmembers, hbrace⟩ := kinds_append hrest
    obtain ⟨b, rfl⟩ := kinds_single hbrace
    obtain ⟨v, hv, hread⟩ := members_printed members hmembers
    refine ⟨.object v ⟨a.start, b.end⟩, a.start, ?_, fun w' next result hsuffixes => ?_⟩
    · rw [TypeNode.relocate, TypeNode.relocate, hv]
      rfl
    · rw [List.cons_append, List.append_assoc]
      exact .object hread hsuffixes

theorem member_printed (member : TypeMember) {w : List Token} (h : kinds w = memberKinds member) :
    ∃ v : TypeMember, v.relocate nowhere = member.relocate nowhere ∧
      ∀ w' next rest, Types .members w' next rest → Types .members (w ++ w') next (v :: rest) := by
  obtain ⟨name, ty, span⟩ := member
  rw [memberKinds] at h
  obtain ⟨a, w₁, rfl, hrest⟩ := kinds_cons h
  obtain ⟨b, w₂, rfl, hbody⟩ := kinds_cons hrest
  obtain ⟨w₃, w₄, rfl, hty, hsemi⟩ := kinds_append hbody
  obtain ⟨c, rfl⟩ := kinds_single hsemi
  obtain ⟨v, hv, hread⟩ := (type_printed ty hty).type
  refine ⟨.mk name v ⟨a.start, c.end⟩, ?_, fun w' next rest hmembers => ?_⟩
  · rw [TypeMember.relocate, TypeMember.relocate, hv]
    rfl
  · have hnext : follow [⟨.semicolon, c⟩] (follow w' next) ≠ some .leftBracket := by
      rw [follow_cons]
      exact fun heq => nomatch heq
    rw [List.cons_append, List.cons_append, List.append_assoc]
    exact .member rfl (hread _ hnext) (.semicolon c _) hmembers

theorem members_printed (members : List TypeMember) {w : List Token}
    (h : kinds w = membersKinds members) :
    ∃ v, relocateMembers nowhere v = relocateMembers nowhere members ∧
      Types .members w (some .rightBrace) v := by
  cases members with
  | nil =>
    rw [kinds_nil h]
    exact ⟨[], rfl, .nil⟩
  | cons member members =>
    rw [membersKinds] at h
    obtain ⟨w₁, w₂, rfl, hmember, hmembers⟩ := kinds_append h
    obtain ⟨v, hv, hread⟩ := member_printed member hmember
    obtain ⟨rest, hrest, htypes⟩ := members_printed members hmembers
    refine ⟨v :: rest, ?_, hread _ _ _ htypes⟩
    rw [relocateMembers, relocateMembers, hv, hrest]

end

/-- The text goes on as an operand that binds at least as tightly as `n`. -/
structure Operand (n : ℕ) (v : Expression) (w : List Token) : Prop where
  member : 8 ≤ n → ∀ w' next result, Expressions (.suffixes v) w' next result →
    Expressions .callMember (w ++ w') next result
  unary : 7 ≤ n → ∀ next, next ≠ some .dot → next ≠ some .leftParen → Expressions .unary w next v
  binary : ∀ least, least ≤ n → ∀ w' next result,
    (∀ operator precedence, (follow w' next).bind binaryOperator = some (operator, precedence) →
      precedence ≤ n) →
    follow w' next ≠ some .dot → follow w' next ≠ some .leftParen →
    Expressions (.operators least v) w' next result →
    Expressions (.binary least) (w ++ w') next result

theorem precedence_le {kind : TokenKind} {operator : BinaryOperator} {p : ℕ}
    (h : binaryOperator kind = some (operator, p)) : p ≤ 6 := by
  cases kind <;> simp [binaryOperator] at h <;> omega

theorem Operand.mono {n m : ℕ} {v : Expression} {w : List Token} (h : Operand n v w)
    (hmn : m ≤ n) : Operand m v w where
  member hm := h.member (Nat.le_trans hm hmn)
  unary hm := h.unary (Nat.le_trans hm hmn)
  binary least hleast w' next result hless :=
    h.binary least (Nat.le_trans hleast hmn) w' next result fun operator p hp =>
      Nat.le_trans (hless operator p hp) hmn

theorem operand_of_unary {v : Expression} {w : List Token}
    (h : ∀ next, next ≠ some .dot → next ≠ some .leftParen → Expressions .unary w next v) :
    Operand 7 v w where
  member hn := absurd hn (by omega)
  unary _ := h
  binary least _ w' next result _ hdot hparen hoperators := .chain (h _ hdot hparen) hoperators

theorem operand_of_member {v : Expression} {w : List Token}
    (h : ∀ w' next result, Expressions (.suffixes v) w' next result →
      Expressions .callMember (w ++ w') next result) : Operand 8 v w := by
  have hunary : ∀ next, next ≠ some .dot → next ≠ some .leftParen → Expressions .unary w next v := by
    intro next hdot hparen
    have hread := h [] next v (.suffixed hdot hparen)
    rw [List.append_nil] at hread
    exact .operand hread
  exact ⟨fun _ => h, fun _ => hunary, fun least _ w' next result _ hdot hparen hoperators =>
    .chain (hunary _ hdot hparen) hoperators⟩

theorem operand_of_primary {v : Expression} {w : List Token}
    (h : ∀ next, Expressions .primary w next v) : Operand 8 v w :=
  operand_of_member fun _ _ _ hsuffixes => .callMember (h _) hsuffixes

theorem operand_of_binary {left right : Expression} {w w' : List Token} {kind : TokenKind}
    {operator : BinaryOperator} {p : ℕ} {a : Span} (hoperator : binaryOperator kind = some (operator, p))
    (hleft : Operand p left w) (hright : Operand (p + 1) right w') :
    Operand p (.binary left operator right ⟨left.span.start, right.span.end⟩)
      (w ++ ⟨kind, a⟩ :: w') where
  member hn := absurd hn (by have := precedence_le hoperator; omega)
  unary hn := absurd hn (by have := precedence_le hoperator; omega)
  binary := by
    intro least hleast x next result hless hdot hparen hoperators
    have hchain := hright.binary (p + 1) (Nat.le_refl _) [] (follow x next) right
      (fun operator' p' hp' => Nat.le_succ_of_le (hless operator' p' hp')) hdot hparen
      (.chained fun operator' p' hp' => Nat.lt_succ_of_le (hless operator' p' hp'))
    rw [List.append_nil] at hchain
    have htail := Expressions.operator (a := a) hoperator hleast hchain hoperators
    rw [List.append_assoc]
    refine hleft.binary least hleast _ next result ?_ ?_ ?_ htail
    · intro operator' p' hp'
      rw [List.cons_append, follow_cons, Option.bind_some, hoperator, Option.some_inj,
        Prod.mk.injEq] at hp'
      exact Nat.le_of_eq hp'.2.symm
    · rw [List.cons_append, follow_cons]
      intro heq
      cases (Option.some_inj.mp heq : kind = _)
      exact nomatch hoperator
    · rw [List.cons_append, follow_cons]
      intro heq
      cases (Option.some_inj.mp heq : kind = _)
      exact nomatch hoperator

/-- An operand reaches up to any token that does not go on it. -/
theorem Operand.chain {n : ℕ} {v : Expression} {w : List Token} (h : Operand n v w) {next : Next}
    (hdot : next ≠ some .dot) (hparen : next ≠ some .leftParen)
    (hbinary : next.bind binaryOperator = none) : Expressions (.binary 0) w next v := by
  have hnone : ∀ operator precedence,
      next.bind binaryOperator = some (operator, precedence) → False := by
    intro operator precedence heq
    rw [hbinary] at heq
    exact nomatch heq
  have hread := h.binary 0 (Nat.zero_le _) [] next v (fun _ _ heq => (hnone _ _ heq).elim) hdot hparen
    (.chained fun _ _ heq => (hnone _ _ heq).elim)
  rwa [List.append_nil] at hread

theorem Operand.expression {n : ℕ} {v : Expression} {w : List Token} (h : Operand n v w)
    {next : Next} (hnext : EndsExpression next) : Expressions .expression w next v :=
  .plain (h.chain hnext.dot hnext.leftParen hnext.binary) hnext.assignment

/-- What the tokens of an expression are read as. -/
structure ExpressionRead (value v : Expression) (w : List Token) : Prop where
  same : v.relocate nowhere = value.relocate nowhere
  operand : 1 ≤ level value → Operand (level value) v w
  expression : ∀ next, EndsExpression next → Expressions .expression w next v

theorem endsExpression_rightParen : EndsExpression (some .rightParen) :=
  ⟨fun h => (nomatch h), fun h => (nomatch h), rfl, rfl⟩

theorem endsExpression_comma : EndsExpression (some .comma) :=
  ⟨fun h => (nomatch h), fun h => (nomatch h), rfl, rfl⟩

theorem operand_group {v : Expression} {w : List Token} {a b : Span}
    (h : Expressions .expression w (some .rightParen) v) :
    Operand 8 v (⟨.leftParen, a⟩ :: (w ++ [⟨.rightParen, b⟩])) :=
  operand_of_primary fun _ => .group h

theorem expressionRead_of_operand {value v : Expression} {w : List Token}
    (hsame : v.relocate nowhere = value.relocate nowhere) (h : Operand (level value) v w) :
    ExpressionRead value v w :=
  ⟨hsame, fun _ => h, fun _ hnext => h.expression hnext⟩

theorem expressionRead_of_primary {value v : Expression} {w : List Token}
    (hsame : v.relocate nowhere = value.relocate nowhere) (hlevel : level value ≤ 8)
    (h : ∀ next, Expressions .primary w next v) : ExpressionRead value v w :=
  expressionRead_of_operand hsame ((operand_of_primary h).mono hlevel)

theorem expressionRead_simple {value v : Expression} {token : Token}
    (hsimple : simpleExpression token = some v) (hsame : v.relocate nowhere = value.relocate nowhere)
    (hlevel : level value ≤ 8) : ExpressionRead value v [token] :=
  expressionRead_of_primary hsame hlevel fun _ => .simple hsimple

theorem operand_printed {value : Expression} {least : ℕ} {w : List Token} (hleast : least ≤ 8)
    (hpos : 1 ≤ least)
    (hread : ∀ x, kinds x = expressionKinds value → ∃ v, ExpressionRead value v x)
    (h : kinds w = operandKinds least value (expressionKinds value)) :
    ∃ v : Expression, v.relocate nowhere = value.relocate nowhere ∧ Operand least v w := by
  rw [operandKinds] at h
  by_cases hless : level value < least
  · rw [if_pos hless] at h
    obtain ⟨a, w₁, rfl, hrest⟩ := kinds_cons h
    obtain ⟨w₂, w₃, rfl, hvalue, hparen⟩ := kinds_append hrest
    obtain ⟨b, rfl⟩ := kinds_single hparen
    obtain ⟨v, hv⟩ := hread w₂ hvalue
    exact ⟨v, hv.same, (operand_group (hv.expression _ endsExpression_rightParen)).mono hleast⟩
  · rw [if_neg hless] at h
    obtain ⟨v, hv⟩ := hread w h
    exact ⟨v, hv.same, (hv.operand (by omega)).mono (by omega)⟩

theorem unaryOperator_kind (operator : UnaryOperator) :
    unaryOperator (unaryKind operator) = some operator := by
  cases operator <;> rfl

theorem binaryOperator_kind (operator : BinaryOperator) :
    binaryOperator (binaryKind operator) = some (operator, precedence operator) := by
  cases operator <;> rfl

theorem assignmentOperator_kind (operator : AssignmentOperator) :
    assignmentOperator (assignmentKind operator) = some operator := by
  cases operator <;> rfl

theorem precedence_pos (operator : BinaryOperator) : 1 ≤ precedence operator := by
  cases operator <;> decide

theorem precedence_lt (operator : BinaryOperator) : precedence operator < 7 :=
  Nat.lt_succ_of_le (precedence_le (binaryOperator_kind operator))

/-- Neither a value nor a list of values goes on behind the token that closes the list. -/
structure Closes (close : TokenKind) : Prop where
  ends : EndsExpression (some close)
  comma : close ≠ .comma

theorem closes_rightParen : Closes .rightParen :=
  ⟨endsExpression_rightParen, fun h => (nomatch h)⟩

theorem closes_rightBracket : Closes .rightBracket :=
  ⟨⟨fun h => (nomatch h), fun h => (nomatch h), rfl, rfl⟩, fun h => (nomatch h)⟩

theorem closes_rightBrace : Closes .rightBrace :=
  ⟨⟨fun h => (nomatch h), fun h => (nomatch h), rfl, rfl⟩, fun h => (nomatch h)⟩

theorem Closes.some_comma {close : TokenKind} (h : Closes close) : some close ≠ some .comma :=
  fun heq => h.comma (Option.some_inj.mp heq)

mutual

theorem expression_printed (value : Expression) (hcomplete : complete value = true) {w : List Token}
    (h : kinds w = expressionKinds value) : ∃ v, ExpressionRead value v w := by
  cases value with
  | identifier | number | string | boolean | null | undefined =>
    obtain ⟨a, rfl⟩ := kinds_single h
    exact ⟨_, expressionRead_simple rfl rfl (Nat.le_refl _)⟩
  | object properties span =>
    rw [expressionKinds] at h
    obtain ⟨a, w₁, rfl, hrest⟩ := kinds_cons h
    obtain ⟨w₂, w₃, rfl, hproperties, hbrace⟩ := kinds_append hrest
    obtain ⟨b, rfl⟩ := kinds_single hbrace
    obtain ⟨v, hv, hread⟩ := properties_printed properties hcomplete hproperties
    refine ⟨.object v ⟨a.start, b.end⟩, expressionRead_of_primary ?_ (Nat.le_refl _)
      fun _ => .object hread⟩
    rw [Expression.relocate, Expression.relocate, hv]
    rfl
  | array elements span =>
    rw [expressionKinds] at h
    obtain ⟨a, w₁, rfl, hrest⟩ := kinds_cons h
    obtain ⟨w₂, w₃, rfl, helements, hbracket⟩ := kinds_append hrest
    obtain ⟨b, rfl⟩ := kinds_single hbracket
    obtain ⟨v, hv, hread⟩ := expressions_printed elements hcomplete closes_rightBracket helements
    refine ⟨.array v ⟨a.start, b.end⟩, expressionRead_of_primary ?_ (Nat.le_refl _)
      fun _ => .array hread⟩
    rw [Expression.relocate, Expression.relocate, hv]
    rfl
  | member object property span =>
    rw [expressionKinds] at h
    obtain ⟨w₁, w₂, rfl, hobject, hrest⟩ := kinds_append h
    obtain ⟨a, w₃, rfl, hname⟩ := kinds_cons hrest
    obtain ⟨b, rfl⟩ := kinds_single hname
    obtain ⟨v, hv, hread⟩ := operand_printed (Nat.le_refl 8) (by decide)
      (fun x hx => expression_printed object hcomplete hx) hobject
    refine ⟨.member v property ⟨v.span.start, b.end⟩, expressionRead_of_operand ?_
      (operand_of_member fun w' next result hsuffixes => ?_)⟩
    · rw [Expression.relocate, Expression.relocate, hv]
      rfl
    · rw [List.append_assoc]
      exact hread.member (Nat.le_refl _) _ next result (.member hsuffixes)
  | call callee arguments span =>
    rw [expressionKinds] at h
    obtain ⟨hcallee, harguments⟩ := Bool.and_eq_true_iff.mp hcomplete
    obtain ⟨w₁, w₂, rfl, hfirst, hrest⟩ := kinds_append h
    obtain ⟨a, w₃, rfl, hlist⟩ := kinds_cons hrest
    obtain ⟨w₄, w₅, rfl, hvalues, hparen⟩ := kinds_append hlist
    obtain ⟨b, rfl⟩ := kinds_single hparen
    obtain ⟨v, hv, hread⟩ := operand_printed (Nat.le_refl 8) (by decide)
      (fun x hx => expression_printed callee hcallee hx) hfirst
    obtain ⟨values, hsame, hargs⟩ := expressions_printed arguments harguments closes_rightParen hvalues
    refine ⟨.call v values ⟨v.span.start, b.end⟩, expressionRead_of_operand ?_
      (operand_of_member fun w' next result hsuffixes => ?_)⟩
    · rw [Expression.relocate, Expression.relocate, hv, hsame]
      rfl
    · have hcall := Expressions.call (a := a) hargs hsuffixes
      rw [List.append_assoc, List.cons_append, List.append_assoc]
      exact hread.member (Nat.le_refl _) _ next result hcall
  | unary operator argument span =>
    rw [expressionKinds] at h
    obtain ⟨a, w₁, rfl, hargument⟩ := kinds_cons h
    obtain ⟨v, hv, hread⟩ := operand_printed (show 7 ≤ 8 by decide) (by decide)
      (fun x hx => expression_printed argument hcomplete hx) hargument
    refine ⟨.unary operator v ⟨a.start, v.span.end⟩, expressionRead_of_operand ?_
      (operand_of_unary fun next hdot hparen => ?_)⟩
    · rw [Expression.relocate, Expression.relocate, hv]
      rfl
    · exact .unary (unaryOperator_kind operator) (hread.unary (Nat.le_refl _) next hdot hparen)
  | binary left operator right span =>
    rw [expressionKinds] at h
    obtain ⟨hleft, hright⟩ := Bool.and_eq_true_iff.mp hcomplete
    have hlt := precedence_lt operator
    obtain ⟨w₁, w₂, rfl, hfirst, hrest⟩ := kinds_append h
    obtain ⟨a, w₃, rfl, hsecond⟩ := kinds_cons hrest
    obtain ⟨v, hv, hread⟩ := operand_printed (by omega) (precedence_pos operator)
      (fun x hx => expression_printed left hleft hx) hfirst
    obtain ⟨v', hv', hread'⟩ := operand_printed (by omega) (Nat.succ_pos _)
      (fun x hx => expression_printed right hright hx) hsecond
    refine ⟨_, expressionRead_of_operand ?_
      (operand_of_binary (binaryOperator_kind operator) hread hread')⟩
    rw [Expression.relocate, Expression.relocate, hv, hv']
    rfl
  | assignment left operator right span =>
    rw [expressionKinds] at h
    obtain ⟨hleft, hright⟩ := Bool.and_eq_true_iff.mp hcomplete
    obtain ⟨w₁, w₂, rfl, hfirst, hrest⟩ := kinds_append h
    obtain ⟨a, w₃, rfl, hsecond⟩ := kinds_cons hrest
    obtain ⟨v, hv, hread⟩ := operand_printed (show 1 ≤ 8 by decide) (Nat.le_refl _)
      (fun x hx => expression_printed left hleft hx) hfirst
    obtain ⟨v', hread'⟩ := expression_printed right hright hsecond
    have hplain : ∀ kind, kind = assignmentKind operator → kind ≠ .dot ∧ kind ≠ .leftParen ∧
        binaryOperator kind = none := by
      rintro kind rfl
      cases operator <;> exact ⟨fun heq => (nomatch heq), fun heq => (nomatch heq), rfl⟩
    obtain ⟨hdot, hparen, hbinary⟩ := hplain _ rfl
    have hchain : Expressions (.binary 0) w₁ (some (assignmentKind operator)) v := hread.chain
      (fun heq => hdot (Option.some_inj.mp heq)) (fun heq => hparen (Option.some_inj.mp heq)) hbinary
    refine ⟨.assignment v operator v' ⟨v.span.start, v'.span.end⟩, ?_, fun hlevel => ?_,
      fun next hnext => ?_⟩
    · rw [Expression.relocate, Expression.relocate, hv, hread'.same]
      rfl
    · exact absurd hlevel (Nat.not_succ_le_zero 0)
    · exact .assignment (assignmentOperator_kind operator) hchain (hread'.expression next hnext)
  | error => exact nomatch hcomplete

theorem expressions_printed (values : List Expression) (hcomplete : completeExpressions values = true)
    {close : TokenKind} (hclose : Closes close) {w : List Token}
    (h : kinds w = separated (expressionsKinds values)) :
    ∃ v, relocateExpressions nowhere v = relocateExpressions nowhere values ∧
      Expressions (.arguments close) w (some close) v := by
  cases values with
  | nil =>
    rw [kinds_nil h]
    exact ⟨[], rfl, .noArgument⟩
  | cons value values =>
    obtain ⟨hvalue, hvalues⟩ := Bool.and_eq_true_iff.mp hcomplete
    cases values with
    | nil =>
      obtain ⟨v, hread⟩ := expression_printed value hvalue h
      refine ⟨[v], ?_, .lastArgument (hread.expression _ hclose.ends) hclose.some_comma⟩
      rw [relocateExpressions, relocateExpressions, hread.same]
      rfl
    | cons second values =>
      obtain ⟨w₁, w₂, rfl, hfirst, hrest⟩ := kinds_append h
      obtain ⟨a, w₃, rfl, hlist⟩ := kinds_cons hrest
      obtain ⟨v, hread⟩ := expression_printed value hvalue hfirst
      obtain ⟨rest, hsame, hargs⟩ := expressions_printed (second :: values) hvalues hclose hlist
      refine ⟨v :: rest, ?_, .moreArguments (hread.expression _ endsExpression_comma) hargs⟩
      rw [relocateExpressions, relocateExpressions, hread.same, hsame]

theorem property_printed (property : ObjectProperty) (hcomplete : completeProperty property = true)
    {w : List Token} (h : kinds w = propertyKinds property) :
    ∃ (token : Token) (a : Span) (name : String) (w' : List Token) (v : Expression),
      w = token :: ⟨.colon, a⟩ :: w' ∧ propertyName token.kind = some name ∧
      (∀ span, (ObjectProperty.mk name v span).relocate nowhere = property.relocate nowhere) ∧
      ∀ next, EndsExpression next → Expressions .expression w' next v := by
  obtain ⟨name, value, span⟩ := property
  rw [propertyKinds] at h
  obtain ⟨a, w₁, rfl, hrest⟩ := kinds_cons h
  obtain ⟨b, w₂, rfl, hvalue⟩ := kinds_cons hrest
  obtain ⟨v, hread⟩ := expression_printed value hcomplete hvalue
  refine ⟨_, b, name, w₂, v, rfl, rfl, fun span' => ?_, hread.expression⟩
  rw [ObjectProperty.relocate, ObjectProperty.relocate, hread.same]
  rfl

theorem properties_printed (properties : List ObjectProperty)
    (hcomplete : completeProperties properties = true) {w : List Token}
    (h : kinds w = separated (propertiesKinds properties)) :
    ∃ v, relocateProperties nowhere v = relocateProperties nowhere properties ∧
      Expressions .properties w (some .rightBrace) v := by
  cases properties with
  | nil =>
    rw [kinds_nil h]
    exact ⟨[], rfl, .noProperty⟩
  | cons property properties =>
    obtain ⟨hproperty, hproperties⟩ := Bool.and_eq_true_iff.mp hcomplete
    cases properties with
    | nil =>
      obtain ⟨token, a, name, w', v, rfl, hname, hsame, hread⟩ := property_printed property hproperty h
      refine ⟨_, ?_, .lastProperty hname (hread _ closes_rightBrace.ends) closes_rightBrace.some_comma⟩
      rw [relocateProperties, relocateProperties, hsame]
      rfl
    | cons second properties =>
      obtain ⟨w₁, w₂, rfl, hfirst, hrest⟩ := kinds_append h
      obtain ⟨b, w₃, rfl, hlist⟩ := kinds_cons hrest
      obtain ⟨token, a, name, w', v, rfl, hname, hsame, hread⟩ :=
        property_printed property hproperty hfirst
      obtain ⟨rest, hrest', hlast⟩ := properties_printed (second :: properties) hproperties hlist
      refine ⟨_, ?_, .moreProperties hname (hread _ endsExpression_comma) hlast⟩
      rw [relocateProperties, relocateProperties, hsame, hrest']

end

/-- In front of a semicolon the tokens of an expression, and no others, are read as that
    expression up to spans, without a report. -/
theorem parseExpression_printed (value : Expression) (hcomplete : complete value = true)
    {tokens : List Token} (h : kinds tokens = expressionKinds value) (s : Parser) {a : Span}
    {more : List Token} (hrest : s.rest = tokens ++ ⟨.semicolon, a⟩ :: more) :
    ∃ v t, parseExpression s = (v, t) ∧ v.relocate nowhere = value.relocate nowhere ∧
      t.cursor = s.cursor + tokens.length ∧ t.rest = ⟨.semicolon, a⟩ :: more ∧
      t.diagnostics = s.diagnostics := by
  obtain ⟨v, hv⟩ := expression_printed value hcomplete h
  have hnext : ({ s with cursor := s.cursor + tokens.length } : Parser).rest =
      ⟨.semicolon, a⟩ :: more := by
    have hdrop : (s.tokens.drop s.cursor).drop tokens.length = ⟨.semicolon, a⟩ :: more := by
      rw [← Parser.rest, hrest, List.drop_left]
    rw [List.drop_drop] at hdrop
    exact hdrop
  have hread : s.Reads tokens { s with cursor := s.cursor + tokens.length } :=
    ⟨by rw [hnext, hrest], rfl, rfl, rfl⟩
  have hends : EndsExpression (some .semicolon) :=
    ⟨fun h => (by cases h), fun h => (by cases h), rfl, rfl⟩
  refine ⟨v, _, parseExpression_run hread ?_, hv.same, rfl, hnext, rfl⟩
  rw [hnext]
  exact hv.expression _ hends

/-- `(a - (b - c)) * -d.e = f` with every token in one place. -/
def differences : Expression :=
  let span : Span := ⟨⟨0, 1, 1⟩, ⟨0, 1, 1⟩⟩
  let difference : Expression := .binary (.identifier "a" span) .subtract
    (.binary (.identifier "b" span) .subtract (.identifier "c" span) span) span
  .assignment (.binary difference .multiply
    (.unary .negate (.member (.identifier "d" span) "e" span) span) span) .assign
    (.identifier "f" span) span

def differencesTokens : List Token :=
  (expressionKinds differences).map fun kind => ⟨kind, ⟨⟨0, 1, 1⟩, ⟨0, 1, 1⟩⟩⟩

theorem differences_printed :
    ∃ v t, parseExpression ⟨differencesTokens ++ [⟨.semicolon, ⟨⟨0, 1, 1⟩, ⟨0, 1, 1⟩⟩⟩], 0, []⟩ =
        (v, t) ∧
      v.relocate nowhere = differences.relocate nowhere ∧ t.cursor = 16 ∧
      t.rest = [⟨.semicolon, ⟨⟨0, 1, 1⟩, ⟨0, 1, 1⟩⟩⟩] ∧ t.diagnostics = [] :=
  @parseExpression_printed differences (by decide) differencesTokens (by decide) _ _ [] rfl

end Tsvm.Printing
