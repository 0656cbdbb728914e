import Tsvm.LoweringBlocks
import Tsvm.StatementGrammar

set_option autoImplicit false

/-!
# Error nodes

Where the parser has to go on without an expression, a type or a name, it puts a
placeholder into the tree and a report on the list. A tree without reports is
made of what its tokens say, and its code has no constant in a placeholder's
stead.
-/
namespace Tsvm.Ast

/-- The names that may stand in a tree: those of things and those of properties. -/
structure Vocabulary where
  identifier : String → Prop
  property : String → Prop

section Trees

variable (v : Vocabulary)

mutual

/-- No error node at any depth, and all names are from the vocabulary. -/
def TypeNode.Genuine : TypeNode → Prop
  | .number _ | .string _ | .boolean _ | .null _ | .undefined _ => True
  | .named name _ => v.identifier name
  | .array inner _ => inner.Genuine
  | .object members _ => genuineMembers members

def TypeMember.Genuine : TypeMember → Prop
  | .mk name ty _ => v.property name ∧ ty.Genuine

def genuineMembers : List TypeMember → Prop
  | [] => True
  | member :: members => member.Genuine ∧ genuineMembers members

end

mutual

def Expression.Genuine : Expression → Prop
  | .identifier name _ => v.identifier name
  | .number _ _ | .string _ _ | .boolean _ _ | .null _ | .undefined _ => True
  | .object properties _ => genuineProperties properties
  | .array elements _ => genuineExpressions elements
  | .member object property _ => object.Genuine ∧ v.identifier property
  | .call callee arguments _ => callee.Genuine ∧ genuineExpressions arguments
  | .unary _ argument _ => argument.Genuine
  | .binary left _ right _ => left.Genuine ∧ right.Genuine
  | .assignment left _ right _ => left.Genuine ∧ right.Genuine
  | .error _ => False

def ObjectProperty.Genuine : ObjectProperty → Prop
  | .mk name value _ => v.property name ∧ value.Genuine

def genuineProperties : List ObjectProperty → Prop
  | [] => True
  | property :: properties => property.Genuine ∧ genuineProperties properties

def genuineExpressions : List Expression → Prop
  | [] => True
  | value :: values => value.Genuine ∧ genuineExpressions values

end

/-- An optional type and an optional value. -/
structure GenuineParts (ty : Option TypeNode) (value : Option Expression) : Prop where
  ty : ∀ node ∈ ty, node.Genuine v
  value : ∀ expression ∈ value, expression.Genuine v

structure ClassMember.Genuine (member : ClassMember) : Prop where
  name : v.identifier member.name
  parts : GenuineParts v member.ty member.initializer

structure Parameter.Genuine (param : Parameter) : Prop where
  name : v.identifier param.name
  parts : GenuineParts v param.ty none

structure VariableDeclaration.Genuine (declaration : VariableDeclaration) : Prop where
  name : v.identifier declaration.name
  parts : GenuineParts v declaration.ty declaration.initializer

mutual

def Statement.Genuine : Statement → Prop
  | .import declaration _ => ∀ name ∈ declaration.names, v.identifier name
  | .export inner _ => inner.Genuine
  | .interface declaration _ => v.identifier declaration.name ∧ genuineMembers v declaration.members
  | .typeAlias declaration _ => v.identifier declaration.name ∧ declaration.ty.Genuine v
  | .class declaration _ =>
    v.identifier declaration.name ∧ ∀ member ∈ declaration.members, member.Genuine v
  | .function ⟨name, params, returnType, body⟩ _ =>
    v.identifier name ∧ (∀ param ∈ params, param.Genuine v) ∧ GenuineParts v returnType none ∧
      genuineStatements body
  | .variable declaration _ => declaration.Genuine v
  | .return value _ => GenuineParts v none value
  | .throw value _ => value.Genuine v
  | .if test consequent alternate _ =>
    test.Genuine v ∧ consequent.Genuine ∧ genuineOption alternate
  | .while test body _ => test.Genuine v ∧ body.Genuine
  | .for initializer test update body _ =>
    genuineOption initializer ∧ GenuineParts v none test ∧ GenuineParts v none update ∧ body.Genuine
  | .block body _ => genuineStatements body
  | .expression value _ => value.Genuine v
  | .empty _ => True
  | .error _ => False

def genuineOption : Option Statement → Prop
  | none => True
  | some statement => statement.Genuine

def genuineStatements : List Statement → Prop
  | [] => True
  | statement :: body => statement.Genuine ∧ genuineStatements body

end

def Program.Genuine (program : Program) : Prop := genuineStatements v program.body

theorem genuineStatements_iff (body : List Statement) :
    genuineStatements v body ↔ ∀ statement ∈ body, statement.Genuine v := by
  induction body with
  | nil => simp [genuineStatements]
  | cons statement body ih => simp [genuineStatements, ih]

theorem genuineParts_none : GenuineParts v none none := ⟨by simp, by simp⟩

end Trees

end Tsvm.Ast

namespace Tsvm.Grammar
open Ast Lexing Parsing

variable {v : Vocabulary}

/-- The names the token can give belong to the vocabulary. -/
structure Known (v : Vocabulary) (token : Token) : Prop where
  identifier : ∀ name, token.kind = .identifier name → v.identifier name
  property : ∀ name, propertyName token.kind = some name → v.property name

def vocabulary (tokens : List Token) : Vocabulary where
  identifier name := ∃ token ∈ tokens, token.kind = .identifier name
  property name := ∃ token ∈ tokens, propertyName token.kind = some name

theorem known_vocabulary (tokens : List Token) : ∀ token ∈ tokens, Known (vocabulary tokens) token :=
  fun token hmem => ⟨fun _ hkind => ⟨token, hmem, hkind⟩, fun _ hkind => ⟨token, hmem, hkind⟩⟩

abbrev AllKnown (v : Vocabulary) (w : List Token) : Prop := ∀ token ∈ w, Known v token

abbrev TypeForm.Genuine (v : Vocabulary) : (c : TypeForm) → c.Value → Prop
  | .type, ty => TypeNode.Genuine v ty
  | .members, list => genuineMembers v list
  | .suffixes _ inner, ty => inner.Genuine v → TypeNode.Genuine v ty

theorem simpleType_genuine {token : Token} {ty : TypeNode} (h : simpleType token = some ty)
    (hknown : Known v token) : ty.Genuine v := by
  obtain ⟨kind, span⟩ := token
  cases kind with
  | identifier name =>
    rw [← Option.some_inj.mp h]
    exact hknown.identifier name rfl
  | numberType | stringType | booleanType | null | undefined =>
    rw [← Option.some_inj.mp h]
    trivial
  | _ => cases h

theorem types_genuine {c : TypeForm} {w : List Token} {next : Next} {x : c.Value}
    (h : Types c w next x) : AllKnown v w → c.Genuine v x := by
  induction h with
  | simple hsimple _ ih =>
    intro hw
    simp only [List.forall_mem_cons] at hw
    exact ih hw.2 (simpleType_genuine hsimple hw.1)
  | object _ _ ih ih' =>
    intro hw
    simp only [List.forall_mem_cons, List.forall_mem_append] at hw
    exact ih' hw.2.2.2 (ih hw.2.1)
  | done _ => exact fun _ hinner => hinner
  | array _ ih =>
    intro hw hinner
    simp only [List.forall_mem_cons] at hw
    exact ih hw.2.2 hinner
  | nil => exact fun _ => trivial
  | member hname _ _ _ ih ih' =>
    intro hw
    simp only [List.forall_mem_cons, List.forall_mem_append] at hw
    exact ⟨⟨hw.1.property _ hname, ih hw.2.2.1⟩, ih' hw.2.2.2.2⟩

abbrev ExpressionForm.Genuine (v : Vocabulary) : (c : ExpressionForm) → c.Value → Prop
  | .expression, value | .binary _, value | .unary, value | .callMember, value
  | .primary, value => Expression.Genuine v value
  | .operators _ left, value => left.Genuine v → Expression.Genuine v value
  | .suffixes inner, value => inner.Genuine v → Expression.Genuine v value
  | .arguments _, values => genuineExpressions v values
  | .properties, list => genuineProperties v list

theorem simpleExpression_genuine {token : Token} {value : Expression}
    (h : simpleExpression token = some value) (hknown : Known v token) : value.Genuine v := by
  obtain ⟨kind, span⟩ := token
  cases kind with
  | identifier name =>
    rw [← Option.some_inj.mp h]
    exact hknown.identifier name rfl
  | numberLiteral value | stringLiteral value | booleanLiteral value | null | undefined =>
    rw [← Option.some_inj.mp h]
    trivial
  | _ => cases h

theorem expressions_genuine {c : ExpressionForm} {w : List Token} {next : Next} {x : c.Value}
    (h : Expressions c w next x) : AllKnown v w → c.Genuine v x := by
  induction h with
  | plain _ _ ih => exact ih
  | assignment _ _ _ ih ih' =>
    intro hw
    simp only [List.forall_mem_cons, List.forall_mem_append] at hw
    exact ⟨ih hw.1, ih' hw.2.2⟩
  | chain _ _ ih ih' =>
    intro hw
    simp only [List.forall_mem_append] at hw
    exact ih' hw.2 (ih hw.1)
  | chained _ => exact fun _ hleft => hleft
  | operator _ _ _ _ ih ih' =>
    intro hw hleft
    simp only [List.forall_mem_cons, List.forall_mem_append] at hw
    exact ih' hw.2.2 ⟨hleft, ih hw.2.1⟩
  | unary _ _ ih =>
    intro hw
    simp only [List.forall_mem_cons] at hw
    exact ih hw.2
  | operand _ ih => exact ih
  | callMember _ _ ih ih' =>
    intro hw
    simp only [List.forall_mem_append] at hw
    exact ih' hw.2 (ih hw.1)
  | suffixed _ _ => exact fun _ hvalue => hvalue
  | member _ ih =>
    intro hw hvalue
    simp only [List.forall_mem_cons] at hw
    exact ih hw.2.2 ⟨hvalue, hw.2.1.identifier _ rfl⟩
  | call _ _ ih ih' =>
    intro hw hvalue
    simp only [List.forall_mem_cons, List.forall_mem_append] at hw
    exact ih' hw.2.2.2 ⟨hvalue, ih hw.2.1⟩
  | simple hsimple =>
    intro hw
    simp only [List.forall_mem_singleton] at hw
    exact simpleExpression_genuine hsimple hw
  | group _ ih =>
    intro hw
    simp only [List.forall_mem_cons, List.forall_mem_append] at hw
    exact ih hw.2.1
  | object _ ih =>
    intro hw
    simp only [List.forall_mem_cons, List.forall_mem_append] at hw
    exact ih hw.2.1
  | array _ ih =>
    intro hw
    simp only [List.forall_mem_cons, List.forall_mem_append] at hw
    exact ih hw.2.1
  | noArgument => exact fun _ => trivial
  | lastArgument _ _ ih => exact fun hw => ⟨ih hw, trivial⟩
  | moreArguments _ _ ih ih' =>
    intro hw
    simp only [List.forall_mem_cons, List.forall_mem_append] at hw
    exact ⟨ih hw.1, ih' hw.2.2⟩
  | noProperty => exact fun _ => trivial
  | lastProperty hname _ _ ih =>
    intro hw
    simp only [List.forall_mem_cons] at hw
    exact ⟨⟨hw.1.property _ hname, ih hw.2.2⟩, trivial⟩
  | moreProperties hname _ _ ih ih' =>
    intro hw
    simp only [List.forall_mem_cons, List.forall_mem_append] at hw
    exact ⟨⟨hw.1.property _ hname, ih hw.2.2.1⟩, ih' hw.2.2.2.2⟩

theorem listed_genuine {α : Type} {close : TokenKind} {T : List Token → Next → Option α × Bool → Prop}
    {P : α → Prop} (hturn : ∀ {w next item goOn}, T w next (item, goOn) → AllKnown v w →
      ∀ x ∈ item, P x)
    {w : List Token} {next : Next} {items : List α} (h : Listed close T w next items) :
    AllKnown v w → ∀ x ∈ items, P x := by
  induction h with
  | nil => exact fun _ x hmem => absurd hmem List.not_mem_nil
  | stop _ _ hT => exact fun hw x hmem => hturn hT hw x (Option.mem_toList.mp hmem)
  | more _ _ hT _ ih =>
    intro hw x hmem
    simp only [List.forall_mem_append] at hw
    rcases List.mem_append.mp hmem with hmem | hmem
    · exact hturn hT hw.1 x (Option.mem_toList.mp hmem)
    · exact ih hw.2 x hmem

theorem optionalType_genuine {w : List Token} {next : Next} {ty : Option TypeNode}
    (h : OptionalType w next ty) (hw : AllKnown v w) : ∀ node ∈ ty, node.Genuine v := by
  cases h with
  | absent _ => simp
  | present hty =>
    simp only [List.forall_mem_cons] at hw
    simpa using types_genuine hty hw.2

theorem optionalInitializer_genuine {w : List Token} {next : Next} {initializer : Option Expression}
    (h : OptionalInitializer w next initializer) (hw : AllKnown v w) :
    ∀ expression ∈ initializer, expression.Genuine v := by
  cases h with
  | absent _ => simp
  | present hvalue =>
    simp only [List.forall_mem_cons] at hw
    simpa using expressions_genuine hvalue hw.2

theorem importTokens_genuine {w : List Token} {next : Next} {item : Option String} {goOn : Bool}
    (h : ImportTokens w next (item, goOn)) (hw : AllKnown v w) : ∀ name ∈ item, v.identifier name := by
  have hname {name : String} {a : Span} (hmem : ⟨.identifier name, a⟩ ∈ w) : v.identifier name :=
    (hw _ hmem).identifier name rfl
  cases h with
  | last _ => simpa using hname List.mem_cons_self
  | more => simpa using hname List.mem_cons_self

theorem parameterTokens_genuine {w : List Token} {next : Next} {item : Option Parameter} {goOn : Bool}
    (h : ParameterTokens w next (item, goOn)) (hw : AllKnown v w) :
    ∀ param ∈ item, param.Genuine v := by
  cases h with
  | last hty _ =>
    simp only [List.forall_mem_cons] at hw
    have hparam := optionalType_genuine hty hw.2
    simpa using ⟨hw.1.identifier _ rfl, ⟨hparam, by simp⟩⟩
  | more hty =>
    simp only [List.forall_mem_cons, List.forall_mem_append] at hw
    have hparam := optionalType_genuine hty hw.2.1
    simpa using ⟨hw.1.identifier _ rfl, ⟨hparam, by simp⟩⟩

theorem classMemberTokens_genuine {w : List Token} {next : Next} {item : Option ClassMember}
    {goOn : Bool} (h : ClassMemberTokens w next (item, goOn)) (hw : AllKnown v w) :
    ∀ member ∈ item, member.Genuine v := by
  cases h with
  | mk hty hinitializer _ =>
    simp only [List.forall_mem_cons, List.forall_mem_append] at hw
    have hty' := optionalType_genuine hty hw.2.1
    have hinitializer' := optionalInitializer_genuine hinitializer hw.2.2.1
    simpa using ⟨hw.1.identifier _ rfl, ⟨hty', hinitializer'⟩⟩

theorem variableTokens_genuine {w : List Token} {next : Next} {declaration : VariableDeclaration}
    (h : VariableTokens w next declaration) (hw : AllKnown v w) : declaration.Genuine v := by
  cases h with
  | mk _ hty hinitializer =>
    simp only [List.forall_mem_cons, List.forall_mem_append] at hw
    exact ⟨hw.2.1.identifier _ rfl, ⟨optionalType_genuine hty hw.2.2.1,
      optionalInitializer_genuine hinitializer hw.2.2.2⟩⟩

theorem forInitializer_genuine {w : List Token} {next : Next} {initializer : Option Statement}
    (h : ForInitializer w next initializer) (hw : AllKnown v w) : genuineOption v initializer := by
  cases h with
  | absent => trivial
  | declaration hvariable => exact variableTokens_genuine hvariable hw
  | expression hvalue => exact expressions_genuine hvalue hw

theorem forPart_genuine {close : TokenKind} {w : List Token} {part : Option Expression}
    (h : ForPart close w part) (hw : AllKnown v w) : GenuineParts v none part := by
  cases h with
  | absent => exact genuineParts_none v
  | present hvalue => exact ⟨by simp, by simpa using expressions_genuine hvalue hw⟩

abbrev StatementForm.Genuine (v : Vocabulary) : (c : StatementForm) → c.Value → Prop
  | .statement, inner => Statement.Genuine v inner
  | .statements _, body => genuineStatements v body

theorem statements_genuine {c : StatementForm} {w : List Token} {next : Next} {x : c.Value}
    (h : Statements c w next x) : AllKnown v w → c.Genuine v x := by
  induction h with
  | imports hnames _ =>
    intro hw
    simp only [List.forall_mem_cons, List.forall_mem_append] at hw
    exact listed_genuine importTokens_genuine hnames hw.2.2.1
  | importDefault _ =>
    intro hw
    simp only [List.forall_mem_cons] at hw
    simpa [Statement.Genuine] using hw.2.1.identifier _ rfl
  | «export» _ ih =>
    intro hw
    simp only [List.forall_mem_cons] at hw
    exact ih hw.2
  | interface hmembers =>
    intro hw
    simp only [List.forall_mem_cons, List.forall_mem_append] at hw
    exact ⟨hw.2.1.identifier _ rfl, types_genuine hmembers hw.2.2.2.1⟩
  | typeAlias hty _ =>
    intro hw
    simp only [List.forall_mem_cons, List.forall_mem_append] at hw
    exact ⟨hw.2.1.identifier _ rfl, types_genuine hty hw.2.2.2.1⟩
  | «class» hmembers =>
    intro hw
    simp only [List.forall_mem_cons, List.forall_mem_append] at hw
    exact ⟨hw.2.1.identifier _ rfl, listed_genuine classMemberTokens_genuine hmembers hw.2.2.2.1⟩
  | function hparams hreturn _ ih =>
    intro hw
    simp only [List.forall_mem_cons, List.forall_mem_append] at hw
    exact ⟨hw.2.1.identifier _ rfl, listed_genuine parameterTokens_genuine hparams hw.2.2.2.1,
      ⟨optionalType_genuine hreturn hw.2.2.2.2.2.1, by simp⟩, ih hw.2.2.2.2.2.2.2.1⟩
  | «variable» hvariable _ =>
    intro hw
    simp only [List.forall_mem_cons, List.forall_mem_append] at hw
    exact variableTokens_genuine hvariable (List.forall_mem_cons.mpr ⟨hw.1, hw.2.1⟩)
  | returnNothing _ _ => exact fun _ => genuineParts_none v
  | «return» hvalue _ =>
    intro hw
    simp only [List.forall_mem_cons, List.forall_mem_append] at hw
    exact ⟨by simp, by simpa using expressions_genuine hvalue hw.2.1⟩
  | throw hvalue _ =>
    intro hw
    simp only [List.forall_mem_cons, List.forall_mem_append] at hw
    exact expressions_genuine hvalue hw.2.1
  | ifThen htest _ _ ih =>
    intro hw
    simp only [List.forall_mem_cons, List.forall_mem_append] at hw
    exact ⟨expressions_genuine htest hw.2.2.1, ih hw.2.2.2.2, trivial⟩
  | ifElse htest _ _ ih ih' =>
    intro hw
    simp only [List.forall_mem_cons, List.forall_mem_append] at hw
    exact ⟨expressions_genuine htest hw.2.2.1, ih hw.2.2.2.2.1, ih' hw.2.2.2.2.2.2⟩
  | «while» htest _ ih =>
    intro hw
    simp only [List.forall_mem_cons, List.forall_mem_append] at hw
    exact ⟨expressions_genuine htest hw.2.2.1, ih hw.2.2.2.2⟩
  | «for» hinitializer htest hupdate _ ih =>
    intro hw
    simp only [List.forall_mem_cons, List.forall_mem_append] at hw
    exact ⟨forInitializer_genuine hinitializer hw.2.2.1, forPart_genuine htest hw.2.2.2.2.1,
      forPart_genuine hupdate hw.2.2.2.2.2.2.1, ih hw.2.2.2.2.2.2.2.2⟩
  | block _ ih =>
    intro hw
    simp only [List.forall_mem_cons, List.forall_mem_append] at hw
    exact ih hw.2.1
  | empty => exact fun _ => trivial
  | expression hvalue _ _ =>
    intro hw
    simp only [List.forall_mem_append] at hw
    exact expressions_genuine hvalue hw.1
  | nil => exact fun _ => trivial
  | cons _ _ ih ih' =>
    intro hw
    simp only [List.forall_mem_append] at hw
    exact ⟨ih hw.1, ih' hw.2⟩

/-- Without a report the parser has only put into the tree what is in the tokens. -/
theorem program_genuine {tokens : List Token} (h : (parseProgram tokens).diagnostics = []) :
    (parseProgram tokens).program.Genuine (vocabulary tokens) :=
  statements_genuine ((parseProgram_iff tokens _).mp ⟨h, rfl⟩) (known_vocabulary tokens)

end Tsvm.Grammar

namespace Tsvm.ErrorNodes
open Ast Ir Lowering LoweringCode LoweringBlocks Grammar Lexing Parsing

variable {v : Vocabulary}

/-- The constant that stands for an expression the parser did not find. -/
structure Placeholder (instruction : IrInstruction) : Prop where
  kind : instruction.kind = .loadConst .undefined
  ty : instruction.ty = .unknown

/-- No instruction stands for an error. -/
def Real (code : List IrInstruction) : Prop := ∀ instruction ∈ code, ¬ Placeholder instruction

theorem real_append {first second : List IrInstruction} :
    Real (first ++ second) ↔ Real first ∧ Real second := List.forall_mem_append

theorem real_cons {instruction : IrInstruction} {code : List IrInstruction} :
    Real (instruction :: code) ↔ ¬ Placeholder instruction ∧ Real code := List.forall_mem_cons

theorem real_nil : Real [] := fun _ h => absurd h List.not_mem_nil

theorem not_placeholder {kind : IrInstructionKind} (h : kind ≠ .loadConst .undefined)
    (result : Option ValueId) (ty : IrType) (span : Span) :
    ¬ Placeholder ⟨kind, result, ty, span⟩ := fun hplaceholder => h hplaceholder.kind

theorem not_placeholder_undefined (result : Option ValueId) (span : Span) :
    ¬ Placeholder ⟨.loadConst .undefined, result, .undefined, span⟩ := by
  intro h
  cases h.ty

theorem real_ofValue {code : List IrInstruction} (hcode : Real code) (next : ℕ)
    {kind : IrInstructionKind} (h : kind ≠ .loadConst .undefined) (ty : IrType) (span : Span) :
    Real (Lowered.ofValue code next kind ty span).code :=
  real_append.mpr ⟨hcode, real_cons.mpr ⟨not_placeholder h _ ty span, real_nil⟩⟩

theorem memberStoreCode_real (object : ℕ) (property : String) (operator : AssignmentOperator)
    (right : Lowered) (leftSpan span : Span) :
    Real (memberStoreCode object property operator right leftSpan span).1 := by
  cases operator <;> simp [memberStoreCode, real_cons, real_nil, not_placeholder]

section

variable (types : List (String × IrType))

mutual

/-- Without an error expression there is no instruction that stands for one. -/
theorem expressionCode_real : ∀ (expression : Expression) (n : ℕ), expression.Genuine v →
    Real (expressionCode types expression n).code
  | .identifier _ _, n, _ | .number _ _, n, _ | .string _ _, n, _ | .boolean _ _, n, _
  | .null _, n, _ => real_ofValue real_nil n (by simp) _ _
  | .undefined span, n, _ => real_cons.mpr ⟨not_placeholder_undefined _ span, real_nil⟩
  | .object properties span, n, h =>
    real_ofValue (propertiesCode_real properties n h) _ (by simp) _ span
  | .array elements span, n, h =>
    real_ofValue (expressionsCode_real elements n h) _ (by simp) _ span
  | .member object _ span, n, h => real_ofValue (expressionCode_real object n h.1) _ (by simp) _ span
  | .call _ arguments span, n, h =>
    real_ofValue (expressionsCode_real arguments n h.2) _ (by simp) _ span
  | .binary left _ right span, n, h => by
    have hleft := expressionCode_real left n h.1
    have hright := expressionCode_real right (expressionCode types left n).next h.2
    exact real_ofValue (real_append.mpr ⟨hleft, hright⟩) _ (by simp) _ span
  | .assignment left operator right span, n, h => by
    obtain ⟨hleft, hright⟩ := h
    cases left with
    | identifier name leftSpan =>
      refine real_append.mpr ⟨expressionCode_real right n hright, ?_⟩
      simp [real_cons, real_nil, not_placeholder]
    | member object property leftSpan =>
      have hobject := expressionCode_real object n hleft.1
      have hright := expressionCode_real right (expressionCode types object n).next hright
      exact real_append.mpr ⟨real_append.mpr ⟨hobject, hright⟩, memberStoreCode_real _ _ _ _ _ _⟩
    | _ => exact expressionCode_real right n hright
  | .unary _ argument _, n, h => expressionCode_real argument n h

theorem expressionsCode_real : ∀ (expressions : List Expression) (n : ℕ),
    genuineExpressions v expressions → Real (expressionsCode types expressions n).1
  | [], _, _ => real_nil
  | expression :: expressions, n, h =>
    real_append.mpr ⟨expressionCode_real expression n h.1, expressionsCode_real expressions _ h.2⟩

theorem propertiesCode_real : ∀ (properties : List ObjectProperty) (n : ℕ),
    genuineProperties v properties → Real (propertiesCode types properties n).1
  | [], _, _ => real_nil
  | .mk _ value _ :: properties, n, h =>
    real_append.mpr ⟨expressionCode_real value n h.1.2, propertiesCode_real properties _ h.2⟩

end

theorem variableCode_real {declaration : VariableDeclaration} (h : declaration.Genuine v)
    (span : Span) (n : ℕ) : Real (variableCode types declaration span n).code := by
  obtain ⟨kind, name, ty, initializer⟩ := declaration
  refine real_append.mpr ⟨?_, by simp [real_cons, real_nil, not_placeholder]⟩
  cases initializer with
  | some value => exact expressionCode_real types value n (h.parts.value value rfl)
  | none => exact real_cons.mpr ⟨not_placeholder_undefined _ span, real_nil⟩

theorem returnCode_real {value : Option Expression} (h : GenuineParts v none value) (span : Span)
    (n : ℕ) : Real (returnCode types value span n).code := by
  cases value with
  | some value =>
    refine real_append.mpr ⟨expressionCode_real types value n (h.value value rfl), ?_⟩
    simp [real_cons, real_nil, not_placeholder]
  | none => simp [returnCode, real_cons, real_nil, not_placeholder]

end

def RealBlocks (s : FunctionLowerer) : Prop := ∀ block ∈ s.blocks, Real block.instructions

theorem new_realBlocks (name : String) (params : List IrParam) (returnType : IrType) (span : Span) :
    RealBlocks (.new name params returnType span) := List.forall_mem_singleton.mpr real_nil

theorem RealBlocks.modify {s s' : FunctionLowerer} {code : List IrInstruction} (h : RealBlocks s)
    (hcode : Real code)
    (hblocks : s'.blocks = s.blocks.modify s.currentBlock fun block =>
      { block with instructions := block.instructions ++ code }) : RealBlocks s' := by
  intro block hmem
  rw [hblocks] at hmem
  obtain ⟨i, hi⟩ := List.getElem?_of_mem hmem
  obtain ⟨old, hold, _, hinstructions⟩ := getElem?_modify_block hi
  rw [hinstructions]
  refine real_append.mpr ⟨h old (List.mem_of_getElem? hold), ?_⟩
  by_cases hcurrent : s.currentBlock = i
  · rw [if_pos hcurrent]
    exact hcode
  · rw [if_neg hcurrent]
    exact real_nil

theorem RealBlocks.create {s : FunctionLowerer} (h : RealBlocks s) : RealBlocks s.createBlock.2 :=
  List.forall_mem_append.mpr ⟨h, List.forall_mem_singleton.mpr real_nil⟩

theorem RealBlocks.append {s : FunctionLowerer} {lowered : StatementCode} (h : RealBlocks s)
    (hcode : Real lowered.code) : RealBlocks (appendStatement lowered s) := h.modify hcode rfl

theorem RealBlocks.emit {s : FunctionLowerer} {kind : IrInstructionKind} (h : RealBlocks s)
    (hkind : kind ≠ .loadConst .undefined) (result : Option ValueId) (ty : IrType) (span : Span) :
    RealBlocks (s.emit kind result ty span) :=
  h.modify (real_cons.mpr ⟨not_placeholder hkind result ty span, real_nil⟩) rfl

theorem RealBlocks.lowerExpression {s : FunctionLowerer} (h : RealBlocks s) {expression : Expression}
    (hgenuine : expression.Genuine v) : RealBlocks (lowerExpression expression s).2 := by
  rw [lowerExpression_appendStatement]
  exact h.append (expressionCode_real _ expression _ hgenuine)

theorem RealBlocks.openArms {s : FunctionLowerer} (h : RealBlocks s) {test : Expression}
    (hgenuine : test.Genuine v) : RealBlocks (openArms test s) :=
  (h.lowerExpression hgenuine).create.create.create.emit (by simp) none .undefined test.span

theorem RealBlocks.closeArm {s : FunctionLowerer} (h : RealBlocks s) (merge next : BlockId)
    (span : Span) : RealBlocks (closeArm merge next span s) :=
  h.emit (by simp) none .undefined span

mutual

theorem lowerStatement_real : ∀ (statement : Statement) {s : FunctionLowerer}, statement.Genuine v →
    RealBlocks s → RealBlocks (lowerStatement statement s)
  | .variable declaration span, s, hgenuine, h => by
    rw [lowerStatement, lowerVariable_eq]
    exact h.append (variableCode_real _ hgenuine span _)
  | .return value span, s, hgenuine, h => by
    rw [lowerStatement, lowerReturn_eq]
    exact h.append (returnCode_real _ hgenuine span _)
  | .expression value _, s, hgenuine, h | .throw value _, s, hgenuine, h =>
    h.lowerExpression hgenuine
  | .if test consequent alternate span, s, hgenuine, h => by
    rw [lowerStatement_if]
    have hconsequent := lowerStatement_real consequent hgenuine.2.1 (h.openArms hgenuine.1)
    have halternate := lowerAlternate_real alternate hgenuine.2.2
      (hconsequent.closeArm (s.blocks.length + 2) (s.blocks.length + 1) span)
    exact halternate.closeArm _ _ span
  | .block body _, _, hgenuine, h => lowerStatements_real body hgenuine h
  | .export inner _, _, hgenuine, h => lowerStatement_real inner hgenuine h
  | .interface _ _, _, _, h | .typeAlias _ _, _, _, h | .class _ _, _, _, h
  | .function _ _, _, _, h | .import _ _, _, _, h | .empty _, _, _, h | .error _, _, _, h
  | .while _ _ _, _, _, h | .for _ _ _ _ _, _, _, h => h

theorem lowerAlternate_real : ∀ (alternate : Option Statement) {s : FunctionLowerer},
    genuineOption v alternate → RealBlocks s → RealBlocks (lowerAlternate alternate s)
  | some alternate, _, hgenuine, h => lowerStatement_real alternate hgenuine h
  | none, _, _, h => h

theorem lowerStatements_real : ∀ (statements : List Statement) {s : FunctionLowerer},
    genuineStatements v statements → RealBlocks s → RealBlocks (lowerStatements statements s)
  | [], _, _, h => h
  | statement :: statements, _, hgenuine, h =>
    lowerStatements_real statements hgenuine.2 (lowerStatement_real statement hgenuine.1 h)

end

/-- The code of a program without error nodes has nothing in their stead. -/
theorem lowerProgram_real {program : Program} (h : program.Genuine v) {function : IrFunction}
    (hfunction : function ∈ allFunctions (lowerProgram program)) :
    ∀ block ∈ function.blocks, Real block.instructions := by
  have hbody := (genuineStatements_iff v program.body).mp h
  rcases List.mem_append.mp hfunction with hmem | hmem
  · obtain ⟨statement, hstatement, hlowered⟩ := List.mem_filterMap.mp hmem
    cases statement with
    | function declaration span =>
      cases hlowered
      exact lowerStatements_real declaration.body (hbody _ hstatement).2.2.2
        (new_realBlocks _ _ _ span)
    | _ => cases hlowered
  · obtain rfl := List.mem_singleton.mp hmem
    have hentry : genuineStatements v (program.body.filter isEntryStatement) :=
      (genuineStatements_iff v _).mpr fun statement hstatement =>
        hbody statement (List.mem_of_mem_filter hstatement)
    exact (lowerStatements_real _ hentry (new_realBlocks _ _ _ _)).emit (by simp) none .undefined _

/-- A tree without reports has no error node at any depth and only names that its tokens spell,
    and no instruction of its code stands for an error. -/
theorem parseProgram_genuine {tokens : List Token} (h : (parseProgram tokens).diagnostics = []) :
    (parseProgram tokens).program.Genuine (vocabulary tokens) ∧
      ∀ function ∈ allFunctions (lowerProgram (parseProgram tokens).program),
        ∀ block ∈ function.blocks, ∀ instruction ∈ block.instructions, ¬ Placeholder instruction :=
  ⟨program_genuine h, fun _ hfunction => lowerProgram_real (program_genuine h) hfunction⟩

/-- The tokens of `let x = { "<error>": -y };`. -/
def quotedTokens : List Token :=
  [⟨.let, ⟨⟨0, 1, 1⟩, ⟨3, 1, 4⟩⟩⟩, ⟨.identifier "x", ⟨⟨4, 1, 5⟩, ⟨5, 1, 6⟩⟩⟩,
    ⟨.equals, ⟨⟨6, 1, 7⟩, ⟨7, 1, 8⟩⟩⟩, ⟨.leftBrace, ⟨⟨8, 1, 9⟩, ⟨9, 1, 10⟩⟩⟩,
    ⟨.stringLiteral "<error>", ⟨⟨10, 1, 11⟩, ⟨19, 1, 20⟩⟩⟩, ⟨.colon, ⟨⟨19, 1, 20⟩, ⟨20, 1, 21⟩⟩⟩,
    ⟨.minus, ⟨⟨21, 1, 22⟩, ⟨22, 1, 23⟩⟩⟩, ⟨.identifier "y", ⟨⟨22, 1, 23⟩, ⟨23, 1, 24⟩⟩⟩,
    ⟨.rightBrace, ⟨⟨24, 1, 25⟩, ⟨25, 1, 26⟩⟩⟩, ⟨.semicolon, ⟨⟨25, 1, 26⟩, ⟨26, 1, 27⟩⟩⟩]

theorem parseProgram_genuine_quoted :
    (parseProgram quotedTokens).program.Genuine (vocabulary quotedTokens) ∧
      ∀ function ∈ allFunctions (lowerProgram (parseProgram quotedTokens).program),
        ∀ block ∈ function.blocks, ∀ instruction ∈ block.instructions, ¬ Placeholder instruction :=
  parseProgram_genuine rfl

/-- A quoted property may have the name that the parser gives to a missing one. -/
theorem quoted_error_name :
    lex "let x = \x7b \"<error>\": -y \x7d;" = .ok quotedTokens ∧
      (parseProgram quotedTokens).diagnostics = [] ∧
      ¬ (parseProgram quotedTokens).program.Genuine ⟨(· ≠ "<error>"), (· ≠ "<error>")⟩ := by
  refine ⟨by decide +kernel, rfl, fun h => ?_⟩
  exact (h.1.parts.value _ rfl).1.1 rfl

end Tsvm.ErrorNodes
