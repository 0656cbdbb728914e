import Tsvm.StatementGrammar

set_option autoImplicit false

/-!
# Relocated syntax

A change of positions carries tokens and trees over; the grammar only copies
positions, so it relates relocated tokens to relocated trees.
-/
namespace Tsvm

def Span.relocate (φ : Position → Position) (span : Span) : Span := ⟨φ span.start, φ span.end⟩

def Lexing.Token.relocate (φ : Position → Position) (token : Token) : Token :=
  ⟨token.kind, token.span.relocate φ⟩

namespace Ast

section Trees

variable (φ : Position → Position)

mutual

def TypeNode.relocate : TypeNode → TypeNode
  | .number span => .number (span.relocate φ)
  | .string span => .string (span.relocate φ)
  | .boolean span => .boolean (span.relocate φ)
  | .null span => .null (span.relocate φ)
  | .undefined span => .undefined (span.relocate φ)
  | .named name span => .named name (span.relocate φ)
  | .array inner span => .array inner.relocate (span.relocate φ)
  | .object members span => .object (relocateMembers members) (span.relocate φ)

def TypeMember.relocate : TypeMember → TypeMember
  | .mk name ty span => .mk name ty.relocate (span.relocate φ)

def relocateMembers : List TypeMember → List TypeMember
  | [] => []
  | member :: members => member.relocate :: relocateMembers members

end

mutual

def Expression.relocate : Expression → Expression
  | .identifier name span => .identifier name (span.relocate φ)
  | .number value span => .number value (span.relocate φ)
  | .string value span => .string value (span.relocate φ)
  | .boolean value span => .boolean value (span.relocate φ)
  | .null span => .null (span.relocate φ)
  | .undefined span => .undefined (span.relocate φ)
  | .object properties span => .object (relocateProperties properties) (span.relocate φ)
  | .array elements span => .array (relocateExpressions elements) (span.relocate φ)
  | .member object property span => .member object.relocate property (span.relocate φ)
  | .call callee arguments span =>
    .call callee.relocate (relocateExpressions arguments) (span.relocate φ)
  | .unary operator argument span => .unary operator argument.relocate (span.relocate φ)
  | .binary left operator right span =>
    .binary left.relocate operator right.relocate (span.relocate φ)
  | .assignment left operator right span =>
    .assignment left.relocate operator right.relocate (span.relocate φ)
  | .error span => .error (span.relocate φ)

def ObjectProperty.relocate : ObjectProperty → ObjectProperty
  | .mk name value span => .mk name value.relocate (span.relocate φ)

def relocateProperties : List ObjectProperty → List ObjectProperty
  | [] => []
  | property :: properties => property.relocate :: relocateProperties properties

def relocateExpressions : List Expression → List Expression
  | [] => []
  | value :: values => value.relocate :: relocateExpressions values

end

def ClassMember.relocate (member : ClassMember) : ClassMember :=
  ⟨member.name, member.ty.map (TypeNode.relocate φ),
    member.initializer.map (Expression.relocate φ), member.span.relocate φ⟩

def Parameter.relocate (param : Parameter) : Parameter :=
  ⟨param.name, param.ty.map (TypeNode.relocate φ), param.span.relocate φ⟩

def VariableDeclaration.relocate (declaration : VariableDeclaration) : VariableDeclaration :=
  ⟨declaration.kind, declaration.name, declaration.ty.map (TypeNode.relocate φ),
    declaration.initializer.map (Expression.relocate φ)⟩

mutual

def Statement.relocate : Statement → Statement
  | .import declaration span => .import declaration (span.relocate φ)
  | .export inner span => .export inner.relocate (span.relocate φ)
  | .interface declaration span =>
    .interface ⟨declaration.name, relocateMembers φ declaration.members⟩ (span.relocate φ)
  | .typeAlias declaration span =>
    .typeAlias ⟨declaration.name, declaration.ty.relocate φ⟩ (span.relocate φ)
  | .class declaration span =>
    .class ⟨declaration.name, declaration.members.map (ClassMember.relocate φ)⟩ (span.relocate φ)
  | .function ⟨name, params, returnType, body⟩ span =>
    .function ⟨name, params.map (Parameter.relocate φ), returnType.map (TypeNode.relocate φ),
      relocateStatements body⟩ (span.relocate φ)
  | .variable declaration span => .variable (declaration.relocate φ) (span.relocate φ)
  | .return value span => .return (value.map (Expression.relocate φ)) (span.relocate φ)
  | .throw value span => .throw (value.relocate φ) (span.relocate φ)
  | .if test consequent alternate span =>
    .if (test.relocate φ) consequent.relocate (relocateOption alternate) (span.relocate φ)
  | .while test body span => .while (test.relocate φ) body.relocate (span.relocate φ)
  | .for initializer test update body span =>
    .for (relocateOption initializer) (test.map (Expression.relocate φ))
      (update.map (Expression.relocate φ)) body.relocate (span.relocate φ)
  | .block body span => .block (relocateStatements body) (span.relocate φ)
  | .expression value span => .expression (value.relocate φ) (span.relocate φ)
  | .empty span => .empty (span.relocate φ)
  | .error span => .error (span.relocate φ)

def relocateOption : Option Statement → Option Statement
  | none => none
  | some statement => some statement.relocate

def relocateStatements : List Statement → List Statement
  | [] => []
  | statement :: body => statement.relocate :: relocateStatements body

end

theorem Expression.span_relocate (value : Expression) :
    (value.relocate φ).span = value.span.relocate φ := by
  cases value <;> rfl

theorem Statement.span_relocate (statement : Statement) :
    (statement.relocate φ).span = statement.span.relocate φ := by
  cases statement <;> rfl

end Trees

end Ast

namespace Grammar
open Ast Lexing Parsing

section Laws

variable {φ : Position → Position}

@[simp] theorem kind_relocate (token : Token) : (token.relocate φ).kind = token.kind := rfl

@[simp] theorem span_relocate (token : Token) :
    (token.relocate φ).span = token.span.relocate φ := rfl

@[simp] theorem kindOf_relocate (w : List Token) :
    kindOf (w.map (Token.relocate φ)) = kindOf w := by
  cases w with
  | nil => rfl
  | cons token w => rfl

@[simp] theorem follow_relocate (w : List Token) (next : Next) :
    follow (w.map (Token.relocate φ)) next = follow w next := by
  rw [follow, kindOf_relocate, follow]

@[simp] theorem lastEnd_relocate (w : List Token) (p : Position) :
    lastEnd (w.map (Token.relocate φ)) (φ p) = φ (lastEnd w p) := by
  induction w generalizing p with
  | nil => rfl
  | cons token w ih => exact ih _

theorem lastEnd_relocate_end (w : List Token) (a : Span) :
    lastEnd (w.map (Token.relocate φ)) (a.relocate φ).end = φ (lastEnd w a.end) :=
  lastEnd_relocate w a.end

abbrev TypeForm.relocate (φ : Position → Position) : TypeForm → TypeForm
  | .type => .type
  | .members => .members
  | .suffixes start inner => .suffixes (φ start) (inner.relocate φ)

abbrev TypeForm.relocateValue (φ : Position → Position) : (c : TypeForm) → c.Value → (c.relocate φ).Value
  | .type, ty => TypeNode.relocate φ ty
  | .members, list => relocateMembers φ list
  | .suffixes _ _, ty => TypeNode.relocate φ ty

theorem separator_relocate {w : List Token} {next : Next} (h : Separator w next) :
    Separator (w.map (Token.relocate φ)) next := by
  cases h with
  | absent hsemicolon hcomma => exact .absent hsemicolon hcomma
  | semicolon a next => exact .semicolon _ next
  | comma a next => exact .comma _ next

theorem simpleType_relocate {token : Token} {ty : TypeNode} (h : simpleType token = some ty) :
    simpleType (token.relocate φ) = some (ty.relocate φ) := by
  obtain ⟨kind, span⟩ := token
  cases kind with
  | numberType | stringType | booleanType | null | undefined | identifier name =>
    rw [← Option.some_inj.mp h]
    rfl
  | _ => exact nomatch h

theorem types_relocate {c : TypeForm} {w : List Token} {next : Next} {v : c.Value}
    (h : Types c w next v) :
    Types (c.relocate φ) (w.map (Token.relocate φ)) next (c.relocateValue φ v) := by
  induction h with
  | simple hsimple _ ih => exact .simple (simpleType_relocate hsimple) ih
  | object _ _ ih ih' =>
    rw [List.map_cons, List.map_append, List.map_cons]
    exact .object ih ih'
  | done hnext => exact .done hnext
  | array _ ih => exact .array ih
  | nil => exact .nil
  | @member token name a w sep w' next ty members hname _ hsep _ ih ih' =>
    have hname' : propertyName (token.relocate φ).kind = some name := hname
    have hty : Types .type (w.map (Token.relocate φ))
        (follow (sep.map (Token.relocate φ)) (follow (w'.map (Token.relocate φ)) next))
        (ty.relocate φ) := by
      rw [follow_relocate, follow_relocate]
      exact ih
    have hsep' : Separator (sep.map (Token.relocate φ)) (follow (w'.map (Token.relocate φ)) next) := by
      rw [follow_relocate]
      exact separator_relocate hsep
    have hmember := Types.member (a := a.relocate φ) hname' hty hsep' ih'
    rw [Span.relocate, lastEnd_relocate, lastEnd_relocate] at hmember
    rw [List.map_cons, List.map_cons, List.map_append, List.map_append]
    exact hmember

abbrev ExpressionForm.relocate (φ : Position → Position) : ExpressionForm → ExpressionForm
  | .expression => .expression
  | .binary minPrecedence => .binary minPrecedence
  | .operators minPrecedence left => .operators minPrecedence (left.relocate φ)
  | .unary => .unary
  | .callMember => .callMember
  | .suffixes value => .suffixes (value.relocate φ)
  | .primary => .primary
  | .arguments close => .arguments close
  | .properties => .properties

abbrev ExpressionForm.relocateValue (φ : Position → Position) :
    (c : ExpressionForm) → c.Value → (c.relocate φ).Value
  | .expression, value | .binary _, value | .operators _ _, value | .unary, value
  | .callMember, value | .suffixes _, value | .primary, value => Expression.relocate φ value
  | .arguments _, values => relocateExpressions φ values
  | .properties, list => relocateProperties φ list

theorem simpleExpression_relocate {token : Token} {value : Expression}
    (h : simpleExpression token = some value) :
    simpleExpression (token.relocate φ) = some (value.relocate φ) := by
  obtain ⟨kind, span⟩ := token
  cases kind with
  | identifier name | numberLiteral value | stringLiteral value | booleanLiteral value | null
  | undefined =>
    rw [← Option.some_inj.mp h]
    rfl
  | _ => exact nomatch h

theorem expressions_relocate {c : ExpressionForm} {w : List Token} {next : Next} {v : c.Value}
    (h : Expressions c w next v) :
    Expressions (c.relocate φ) (w.map (Token.relocate φ)) next (c.relocateValue φ v) := by
  induction h with
  | plain _ hnext ih => exact .plain ih hnext
  | @assignment w kind a w' next operator left right hoperator _ _ ih ih' =>
    have hassignment := Expressions.assignment (a := a.relocate φ) hoperator ih ih'
    rw [Expression.span_relocate, Expression.span_relocate] at hassignment
    rw [List.map_append, List.map_cons]
    exact hassignment
  | chain _ _ ih ih' =>
    rw [List.map_append]
    exact .chain ((follow_relocate _ _).symm ▸ ih) ih'
  | chained hchained => exact .chained hchained
  | @operator minPrecedence left kind a w w' next operator precedence right value hoperator hmin _ _
      ih ih' =>
    rw [← follow_relocate (φ := φ) w'] at ih
    rw [List.map_cons, List.map_append]
    refine .operator hoperator hmin ih ?_
    rw [Expression.span_relocate, Expression.span_relocate]
    exact ih'
  | @unary kind a w next operator value hoperator _ ih =>
    have hunary := Expressions.unary (a := a.relocate φ) hoperator ih
    rw [Expression.span_relocate] at hunary
    exact hunary
  | operand _ ih => exact .operand ih
  | callMember _ _ ih ih' =>
    rw [List.map_append]
    exact .callMember ((follow_relocate _ _).symm ▸ ih) ih'
  | suffixed hdot hparen => exact .suffixed hdot hparen
  | member _ ih =>
    refine .member ?_
    rw [Expression.span_relocate]
    exact ih
  | call _ _ ih ih' =>
    rw [List.map_cons, List.map_append, List.map_cons]
    refine .call ih ?_
    rw [Expression.span_relocate]
    exact ih'
  | simple hsimple => exact .simple (simpleExpression_relocate hsimple)
  | group _ ih =>
    rw [List.map_cons, List.map_append]
    exact .group ih
  | object _ ih =>
    rw [List.map_cons, List.map_append]
    exact .object ih
  | array _ ih =>
    rw [List.map_cons, List.map_append]
    exact .array ih
  | noArgument => exact .noArgument
  | lastArgument _ hnext ih => exact .lastArgument ih hnext
  | moreArguments _ _ ih ih' =>
    rw [List.map_append, List.map_cons]
    exact .moreArguments ih ih'
  | noProperty => exact .noProperty
  | @lastProperty token name a w next value hname _ hnext ih =>
    have hname' : propertyName (token.relocate φ).kind = some name := hname
    have hproperty := Expressions.lastProperty (a := a.relocate φ) hname' ih hnext
    rw [Expression.span_relocate] at hproperty
    exact hproperty
  | @moreProperties token name a w b w' next value list hname _ _ ih ih' =>
    have hname' : propertyName (token.relocate φ).kind = some name := hname
    have hproperties :=
      Expressions.moreProperties (a := a.relocate φ) (b := b.relocate φ) hname' ih ih'
    rw [Expression.span_relocate] at hproperties
    rw [List.map_cons, List.map_cons, List.map_append, List.map_cons]
    exact hproperties

theorem listed_relocate {α : Type} {close : TokenKind} {f : α → α}
    {T : List Token → Next → Option α × Bool → Prop}
    (hturn : ∀ {w next item goOn}, T w next (item, goOn) →
      T (w.map (Token.relocate φ)) next (item.map f, goOn))
    {w : List Token} {next : Next} {items : List α} (h : Listed close T w next items) :
    Listed close T (w.map (Token.relocate φ)) next (items.map f) := by
  have hlist : ∀ item : Option α, item.toList.map f = (item.map f).toList := by
    intro item
    cases item <;> rfl
  have hne : ∀ {w : List Token}, w ≠ [] → w.map (Token.relocate φ) ≠ [] := by
    intro w hne hnil
    exact hne (List.map_eq_nil_iff.mp hnil)
  induction h with
  | nil => exact .nil
  | stop hw hclose hT =>
    rw [hlist]
    exact .stop (hne hw) ((kindOf_relocate _).symm ▸ hclose) (hturn hT)
  | @more w w' next item items hw hclose hT _ ih =>
    rw [List.map_append, List.map_append, hlist]
    refine .more (hne hw) ((kindOf_relocate _).symm ▸ hclose) ?_ ih
    rw [follow_relocate]
    exact hturn hT

theorem semicolon_relocate {w : List Token} {next : Next} (h : Semicolon w next) :
    Semicolon (w.map (Token.relocate φ)) next := by
  cases h with
  | absent hkind => exact .absent hkind
  | present a next => exact .present _ next

theorem optionalType_relocate {w : List Token} {next : Next} {ty : Option TypeNode}
    (h : OptionalType w next ty) :
    OptionalType (w.map (Token.relocate φ)) next (ty.map (TypeNode.relocate φ)) := by
  cases h with
  | absent hcolon => exact .absent hcolon
  | present hty => exact .present (types_relocate hty)

theorem optionalInitializer_relocate {w : List Token} {next : Next} {initializer : Option Expression}
    (h : OptionalInitializer w next initializer) :
    OptionalInitializer (w.map (Token.relocate φ)) next (initializer.map (Expression.relocate φ)) := by
  cases h with
  | absent hequals => exact .absent hequals
  | present hvalue => exact .present (expressions_relocate hvalue)

theorem importTokens_relocate {w : List Token} {next : Next} {v : Option String × Bool}
    (h : ImportTokens w next v) : ImportTokens (w.map (Token.relocate φ)) next v := by
  cases h with
  | last hcomma => exact .last hcomma
  | more => exact .more

theorem parameterTokens_relocate {w : List Token} {next : Next} {item : Option Parameter}
    {goOn : Bool} (h : ParameterTokens w next (item, goOn)) :
    ParameterTokens (w.map (Token.relocate φ)) next (item.map (Parameter.relocate φ), goOn) := by
  cases h with
  | @last name a w _ ty hty hcomma =>
    have hparam := @ParameterTokens.last name (a.relocate φ) _ _ _
      (optionalType_relocate (φ := φ) hty) hcomma
    rw [lastEnd_relocate_end] at hparam
    exact hparam
  | @more name a w b _ ty hty =>
    have hparam := @ParameterTokens.more name (a.relocate φ) _ (b.relocate φ) next _
      (optionalType_relocate (φ := φ) hty)
    rw [lastEnd_relocate_end] at hparam
    rw [List.map_cons, List.map_append]
    exact hparam

theorem classMemberTokens_relocate {w : List Token} {next : Next} {item : Option ClassMember}
    {goOn : Bool} (h : ClassMemberTokens w next (item, goOn)) :
    ClassMemberTokens (w.map (Token.relocate φ)) next (item.map (ClassMember.relocate φ), goOn) := by
  cases h with
  | @mk name a w w' semi _ ty initializer hty hinitializer hsemicolon =>
    have hty' := optionalType_relocate (φ := φ) hty
    have hinitializer' := optionalInitializer_relocate (φ := φ) hinitializer
    rw [← follow_relocate (φ := φ) semi] at hty' hinitializer'
    rw [← follow_relocate (φ := φ) w'] at hty'
    have hmember := @ClassMemberTokens.mk name (a.relocate φ) _ _ _ _ _ _ hty' hinitializer'
      (semicolon_relocate hsemicolon)
    rw [lastEnd_relocate_end, lastEnd_relocate, lastEnd_relocate] at hmember
    rw [List.map_cons, List.map_append, List.map_append]
    exact hmember

theorem variableTokens_relocate {w : List Token} {next : Next} {declaration : VariableDeclaration}
    (h : VariableTokens w next declaration) :
    VariableTokens (w.map (Token.relocate φ)) next (declaration.relocate φ) := by
  cases h with
  | @mk kind a name b w w' _ ty initializer hkind hty hinitializer =>
    rw [List.map_cons, List.map_cons, List.map_append]
    refine .mk hkind ?_ (optionalInitializer_relocate hinitializer)
    rw [follow_relocate]
    exact optionalType_relocate hty

theorem forInitializer_relocate {w : List Token} {next : Next} {initializer : Option Statement}
    (h : ForInitializer w next initializer) :
    ForInitializer (w.map (Token.relocate φ)) next (relocateOption φ initializer) := by
  cases h with
  | absent => exact .absent
  | declaration hvariable =>
    have hdeclaration := ForInitializer.declaration (variableTokens_relocate (φ := φ) hvariable)
    rw [span_relocate, lastEnd_relocate_end] at hdeclaration
    exact hdeclaration
  | expression hvalue =>
    have hexpression := ForInitializer.expression (expressions_relocate (φ := φ) hvalue)
    rw [Expression.span_relocate] at hexpression
    exact hexpression

theorem forPart_relocate {close : TokenKind} {w : List Token} {part : Option Expression}
    (h : ForPart close w part) :
    ForPart close (w.map (Token.relocate φ)) (part.map (Expression.relocate φ)) := by
  cases h with
  | absent => exact .absent
  | present hvalue => exact .present (expressions_relocate hvalue)

abbrev StatementForm.relocateValue (φ : Position → Position) : (c : StatementForm) → c.Value → c.Value
  | .statement, inner => Statement.relocate φ inner
  | .statements _, body => relocateStatements φ body

theorem statements_relocate {c : StatementForm} {w : List Token} {next : Next} {v : c.Value}
    (h : Statements c w next v) :
    Statements c (w.map (Token.relocate φ)) next (c.relocateValue φ v) := by
  induction h with
  | @imports a b w c d e names value semi next hnames hsemicolon =>
    have hlist := listed_relocate (φ := φ) (f := id) (fun {w next item goOn} h => by
      rw [Option.map_id]
      exact importTokens_relocate h) hnames
    rw [List.map_id] at hlist
    have himports := @Statements.imports (a.relocate φ) (b.relocate φ) _ (c.relocate φ)
      (d.relocate φ) (e.relocate φ) names value _ next hlist (semicolon_relocate (φ := φ) hsemicolon)
    rw [lastEnd_relocate_end] at himports
    rw [List.map_cons, List.map_cons, List.map_append, List.map_cons, List.map_cons, List.map_cons]
    exact himports
  | @importDefault a b d e name value semi next hsemicolon =>
    have himport := @Statements.importDefault (a.relocate φ) (b.relocate φ) (d.relocate φ)
      (e.relocate φ) name value _ next (semicolon_relocate (φ := φ) hsemicolon)
    rw [lastEnd_relocate_end] at himport
    exact himport
  | @«export» a w next inner _ ih =>
    have hexport := @Statements.export (a.relocate φ) _ next _ ih
    rw [Statement.span_relocate] at hexport
    exact hexport
  | interface hmembers =>
    rw [List.map_cons, List.map_cons, List.map_cons, List.map_append]
    exact .interface (types_relocate hmembers)
  | @typeAlias a b c name w semi next ty hty hsemicolon =>
    have hty' := types_relocate (φ := φ) hty
    rw [← follow_relocate (φ := φ) semi] at hty'
    have halias := @Statements.typeAlias (a.relocate φ) (b.relocate φ) (c.relocate φ) name _ _ _ _
      hty' (semicolon_relocate (φ := φ) hsemicolon)
    rw [lastEnd_relocate_end, lastEnd_relocate] at halias
    rw [List.map_cons, List.map_cons, List.map_cons, List.map_append]
    exact halias
  | «class» hmembers =>
    rw [List.map_cons, List.map_cons, List.map_cons, List.map_append]
    exact .class (listed_relocate classMemberTokens_relocate hmembers)
  | function hparams hreturn _ ih =>
    rw [List.map_cons, List.map_cons, List.map_cons, List.map_append, List.map_cons, List.map_append,
      List.map_cons, List.map_append]
    exact .function (listed_relocate parameterTokens_relocate hparams) (optionalType_relocate hreturn) ih
  | @«variable» token w semi next declaration hvariable hsemicolon =>
    have hvariable' := variableTokens_relocate (φ := φ) hvariable
    rw [← follow_relocate (φ := φ) semi] at hvariable'
    have hstatement := Statements.variable hvariable' (semicolon_relocate (φ := φ) hsemicolon)
    rw [span_relocate, lastEnd_relocate_end, lastEnd_relocate] at hstatement
    rw [List.map_cons, List.map_append]
    exact hstatement
  | @returnNothing a semi next hsemicolon hstop =>
    have hreturn := @Statements.returnNothing (a.relocate φ) _ _ (semicolon_relocate (φ := φ) hsemicolon)
      (by rw [follow_relocate]; exact hstop)
    rw [lastEnd_relocate_end] at hreturn
    exact hreturn
  | @«return» a w semi next value hvalue hsemicolon =>
    have hvalue' := expressions_relocate (φ := φ) hvalue
    rw [← follow_relocate (φ := φ) semi] at hvalue'
    have hreturn := @Statements.return (a.relocate φ) _ _ _ _ hvalue' (semicolon_relocate (φ := φ) hsemicolon)
    rw [lastEnd_relocate_end, lastEnd_relocate] at hreturn
    rw [List.map_cons, List.map_append]
    exact hreturn
  | @throw a w semi next value hvalue hsemicolon =>
    have hvalue' := expressions_relocate (φ := φ) hvalue
    rw [← follow_relocate (φ := φ) semi] at hvalue'
    have hthrow := @Statements.throw (a.relocate φ) _ _ _ _ hvalue' (semicolon_relocate (φ := φ) hsemicolon)
    rw [lastEnd_relocate_end, lastEnd_relocate] at hthrow
    rw [List.map_cons, List.map_append]
    exact hthrow
  | @ifThen a b c w w' next test consequent htest _ helse ih =>
    have hif := @Statements.ifThen (a.relocate φ) (b.relocate φ) (c.relocate φ) _ _ _ _ _
      (expressions_relocate (φ := φ) htest) ih helse
    rw [Statement.span_relocate] at hif
    rw [List.map_cons, List.map_cons, List.map_append, List.map_cons]
    exact hif
  | @ifElse a b c d w w' w'' next test consequent alternate htest _ _ ih ih' =>
    have hif := @Statements.ifElse (a.relocate φ) (b.relocate φ) (c.relocate φ) (d.relocate φ) _ _ _ _ _
      _ _ (expressions_relocate (φ := φ) htest) ih ih'
    rw [Statement.span_relocate] at hif
    rw [List.map_cons, List.map_cons, List.map_append, List.map_cons, List.map_append, List.map_cons]
    exact hif
  | @«while» a b c w w' next test body htest _ ih =>
    have hwhile := @Statements.while (a.relocate φ) (b.relocate φ) (c.relocate φ) _ _ _ _ _
      (expressions_relocate (φ := φ) htest) ih
    rw [Statement.span_relocate] at hwhile
    rw [List.map_cons, List.map_cons, List.map_append, List.map_cons]
    exact hwhile
  | @«for» a b c d e w₁ w₂ w₃ w₄ next initializer test update body hinitializer htest hupdate _ ih =>
    have hfor := @Statements.for (a.relocate φ) (b.relocate φ) (c.relocate φ) (d.relocate φ)
      (e.relocate φ) _ _ _ _ _ _ _ _ _ (forInitializer_relocate (φ := φ) hinitializer) (forPart_relocate (φ := φ) htest)
      (forPart_relocate (φ := φ) hupdate) ih
    rw [Statement.span_relocate] at hfor
    rw [List.map_cons, List.map_cons, List.map_append, List.map_cons, List.map_append, List.map_cons,
      List.map_append, List.map_cons]
    exact hfor
  | block _ ih =>
    rw [List.map_cons, List.map_append]
    exact .block ih
  | empty => exact .empty
  | @expression w semi next value hvalue hbrace hsemicolon =>
    have hvalue' := expressions_relocate (φ := φ) hvalue
    rw [← follow_relocate (φ := φ) semi] at hvalue'
    have hexpression := Statements.expression hvalue' ((kindOf_relocate _).symm ▸ hbrace)
      (semicolon_relocate (φ := φ) hsemicolon)
    rw [Expression.span_relocate] at hexpression
    rw [List.map_append]
    exact hexpression
  | nil => exact .nil
  | cons _ _ ih ih' =>
    rw [List.map_append]
    exact .cons ((follow_relocate _ _).symm ▸ ih) ih'

end Laws

end Grammar

end Tsvm
