import Tsvm.GrammarEnds
import Tsvm.Relocation

set_option autoImplicit false

/-!
# The sizes of trees

An expression determines how many of its tokens are neither parentheses nor commas, and
a type how many are brackets, wherever they stand.
-/
namespace Tsvm.Grammar
open Ast Lexing Parsing

def counts : TokenKind → Bool
  | .leftParen | .rightParen | .comma => false
  | _ => true

/-- The tokens that are neither parentheses nor commas. -/
def weight (w : List Token) : ℕ := w.countP fun token => counts token.kind

mutual

def size : Expression → ℕ
  | .object properties _ => 2 + propertiesSize properties
  | .array elements _ => 2 + sizes elements
  | .member object _ _ => size object + 2
  | .call callee arguments _ => size callee + sizes arguments
  | .unary _ argument _ => size argument + 1
  | .binary left _ right _ | .assignment left _ right _ => size left + size right + 1
  | _ => 1

def propertySize : ObjectProperty → ℕ
  | .mk _ value _ => size value + 2

def propertiesSize : List ObjectProperty → ℕ
  | [] => 0
  | property :: properties => propertySize property + propertiesSize properties

def sizes : List Expression → ℕ
  | [] => 0
  | value :: values => size value + sizes values

end

section Relocate

variable (φ : Position → Position)

mutual

theorem size_relocate : ∀ value : Expression, size (value.relocate φ) = size value
  | .identifier _ _ | .number _ _ | .string _ _ | .boolean _ _ | .null _ | .undefined _ | .error _ => rfl
  | .object properties _ => by rw [Expression.relocate, size, propertiesSize_relocate properties, size]
  | .array elements _ => by rw [Expression.relocate, size, sizes_relocate elements, size]
  | .member object _ _ => by rw [Expression.relocate, size, size_relocate object, size]
  | .call callee arguments _ => by
    rw [Expression.relocate, size, size_relocate callee, sizes_relocate arguments, size]
  | .unary _ argument _ => by rw [Expression.relocate, size, size_relocate argument, size]
  | .binary left _ right _ => by
    rw [Expression.relocate, size, size_relocate left, size_relocate right, size]
  | .assignment left _ right _ => by
    rw [Expression.relocate, size, size_relocate left, size_relocate right, size]

theorem propertySize_relocate : ∀ property : ObjectProperty,
    propertySize (property.relocate φ) = propertySize property
  | .mk _ value _ => by rw [ObjectProperty.relocate, propertySize, size_relocate value, propertySize]

theorem propertiesSize_relocate : ∀ properties : List ObjectProperty,
    propertiesSize (relocateProperties φ properties) = propertiesSize properties
  | [] => rfl
  | property :: properties => by
    rw [relocateProperties, propertiesSize, propertySize_relocate property,
      propertiesSize_relocate properties, propertiesSize]

theorem sizes_relocate : ∀ values : List Expression, sizes (relocateExpressions φ values) = sizes values
  | [] => rfl
  | value :: values => by
    rw [relocateExpressions, sizes, size_relocate value, sizes_relocate values, sizes]

end

end Relocate

theorem weight_append (x y : List Token) : weight (x ++ y) = weight x + weight y := List.countP_append

theorem weight_counted {token : Token} (h : counts token.kind = true) (w : List Token) :
    weight (token :: w) = weight w + 1 := List.countP_cons_of_pos h

theorem weight_free {kind : TokenKind} (h : counts kind = false) (a : Span) (w : List Token) :
    weight (⟨kind, a⟩ :: w) = weight w :=
  List.countP_cons_of_neg fun hcounts => Bool.false_ne_true (h.symm.trans hcounts)

@[simp] theorem weight_nil : weight [] = 0 := rfl

/-- The weight of the tokens of a part. -/
def Weighs : (c : ExpressionForm) → List Token → c.Value → Prop
  | .expression, w, value => weight w = size value
  | .binary _, w, value => weight w = size value
  | .unary, w, value => weight w = size value
  | .callMember, w, value => weight w = size value
  | .primary, w, value => weight w = size value
  | .operators _ left, w, value => weight w + size left = size value
  | .suffixes value, w, result => weight w + size value = size result
  | .arguments _, w, values => weight w = sizes values
  | .properties, w, properties => weight w = propertiesSize properties

theorem counts_of_isSome {α : Type} {f : TokenKind → Option α} {kind : TokenKind} {v : α}
    (h : f kind = some v) (hleft : f .leftParen = none) (hright : f .rightParen = none)
    (hcomma : f .comma = none) : counts kind = true := by
  cases kind with
  | leftParen =>
    rw [hleft] at h
    cases h
  | rightParen =>
    rw [hright] at h
    cases h
  | comma =>
    rw [hcomma] at h
    cases h
  | _ => rfl

theorem weight_simple {token : Token} {value : Expression} (h : simpleExpression token = some value) :
    weight [token] = size value := by
  obtain ⟨kind, a⟩ := token
  cases kind with
  | identifier name | numberLiteral value | stringLiteral value | booleanLiteral value | null
  | undefined =>
    cases h
    rfl
  | _ => cases h

theorem expressions_weigh {c : ExpressionForm} {w : List Token} {next : Next} {v : c.Value}
    (h : Expressions c w next v) : Weighs c w v := by
  induction h with
  | plain _ _ ih => exact ih
  | @assignment w kind a w' next operator left right hoperator _ _ ih ih' =>
    have hoperator : weight (⟨kind, a⟩ :: w') = weight w' + 1 :=
      weight_counted (counts_of_isSome hoperator rfl rfl rfl) w'
    simp only [Weighs, weight_append, hoperator, size] at ih ih' ⊢
    omega
  | chain _ _ ih ih' =>
    simp only [Weighs, weight_append] at ih ih' ⊢
    omega
  | chained => exact Nat.zero_add _
  | @operator minPrecedence left kind a w w' next operator precedence right value hoperator _ _ _ ih ih' =>
    have hoperator : weight (⟨kind, a⟩ :: (w ++ w')) = weight (w ++ w') + 1 :=
      weight_counted (counts_of_isSome hoperator rfl rfl rfl) (w ++ w')
    simp only [Weighs, weight_append, hoperator, size] at ih ih' ⊢
    omega
  | @unary kind a w next operator value hoperator _ ih =>
    have hoperator : weight (⟨kind, a⟩ :: w) = weight w + 1 :=
      weight_counted (counts_of_isSome hoperator rfl rfl rfl) w
    simp only [Weighs, hoperator, size] at ih ⊢
    omega
  | operand _ ih => exact ih
  | callMember _ _ ih ih' =>
    simp only [Weighs, weight_append] at ih ih' ⊢
    omega
  | suffixed => exact Nat.zero_add _
  | @member value name a b w next result _ ih =>
    have hmember : weight (⟨.dot, a⟩ :: ⟨.identifier name, b⟩ :: w) = weight w + 1 + 1 := by
      rw [weight_counted rfl, weight_counted rfl]
    simp only [Weighs, hmember, size] at ih ⊢
    omega
  | @call value a b w w' next arguments result _ _ ih ih' =>
    have hcall : weight (⟨.leftParen, a⟩ :: (w ++ ⟨.rightParen, b⟩ :: w')) = weight w + weight w' := by
      rw [weight_free rfl, weight_append, weight_free rfl]
    simp only [Weighs, hcall, size] at ih ih' ⊢
    omega
  | simple hsimple => exact weight_simple hsimple
  | @group a b w next value _ ih =>
    change weight (⟨.leftParen, a⟩ :: (w ++ [⟨.rightParen, b⟩])) = size value
    rw [weight_free rfl, weight_append, weight_free rfl]
    exact ih
  | @object a b w next properties _ ih =>
    change weight (⟨.leftBrace, a⟩ :: (w ++ [⟨.rightBrace, b⟩])) = 2 + propertiesSize properties
    rw [weight_counted rfl, weight_append, weight_counted rfl, weight_nil, show weight w = _ from ih]
    omega
  | @array a b w next elements _ ih =>
    change weight (⟨.leftBracket, a⟩ :: (w ++ [⟨.rightBracket, b⟩])) = 2 + sizes elements
    rw [weight_counted rfl, weight_append, weight_counted rfl, weight_nil, show weight w = _ from ih]
    omega
  | noArgument => rfl
  | lastArgument _ _ ih => exact ih
  | @moreArguments close w a w' next value values _ _ ih ih' =>
    have hcomma : weight (w ++ ⟨.comma, a⟩ :: w') = weight w + weight w' := by
      rw [weight_append, weight_free rfl]
    simp only [Weighs, hcomma, sizes] at ih ih' ⊢
    omega
  | noProperty => rfl
  | @lastProperty token name a w next value hname _ _ ih =>
    have hproperty : weight (token :: ⟨.colon, a⟩ :: w) = weight w + 1 + 1 := by
      rw [weight_counted (counts_of_isSome hname rfl rfl rfl), weight_counted rfl]
    simp only [Weighs, hproperty, propertiesSize, propertySize] at ih ⊢
    omega
  | @moreProperties token name a w b w' next value properties hname _ _ ih ih' =>
    have hproperty : weight (token :: ⟨.colon, a⟩ :: (w ++ ⟨.comma, b⟩ :: w')) =
        weight w + weight w' + 1 + 1 := by
      rw [weight_counted (counts_of_isSome hname rfl rfl rfl), weight_counted rfl, weight_append,
        weight_free rfl]
    simp only [Weighs, hproperty, propertiesSize, propertySize] at ih ih' ⊢
    omega

theorem expression_weight {w : List Token} {next : Next} {value : Expression}
    (h : Expressions .expression w next value) : weight w = size value := expressions_weigh h

def isBracket : TokenKind → Bool
  | .leftBracket => true
  | _ => false

/-- The brackets of a text; those of a type are its arrays. -/
def brackets (w : List Token) : ℕ := w.countP fun token => isBracket token.kind

mutual

def arrays : TypeNode → ℕ
  | .array inner _ => arrays inner + 1
  | .object members _ => membersArrays members
  | _ => 0

def memberArrays : TypeMember → ℕ
  | .mk _ ty _ => arrays ty

def membersArrays : List TypeMember → ℕ
  | [] => 0
  | member :: members => memberArrays member + membersArrays members

end

section Relocate

variable (φ : Position → Position)

mutual

theorem arrays_relocate : ∀ ty : TypeNode, arrays (ty.relocate φ) = arrays ty
  | .number _ | .string _ | .boolean _ | .null _ | .undefined _ | .named _ _ => rfl
  | .array inner _ => by rw [TypeNode.relocate, arrays, arrays_relocate inner, arrays]
  | .object members _ => by rw [TypeNode.relocate, arrays, membersArrays_relocate members, arrays]

theorem memberArrays_relocate : ∀ member : TypeMember,
    memberArrays (member.relocate φ) = memberArrays member
  | .mk _ ty _ => by rw [TypeMember.relocate, memberArrays, arrays_relocate ty, memberArrays]

theorem membersArrays_relocate : ∀ members : List TypeMember,
    membersArrays (relocateMembers φ members) = membersArrays members
  | [] => rfl
  | member :: members => by
    rw [relocateMembers, membersArrays, memberArrays_relocate member, membersArrays_relocate members,
      membersArrays]

end

end Relocate

theorem brackets_append (x y : List Token) : brackets (x ++ y) = brackets x + brackets y :=
  List.countP_append

theorem brackets_bracket (a : Span) (w : List Token) :
    brackets (⟨.leftBracket, a⟩ :: w) = brackets w + 1 := List.countP_cons_of_pos rfl

theorem brackets_other {token : Token} (h : isBracket token.kind = false) (w : List Token) :
    brackets (token :: w) = brackets w :=
  List.countP_cons_of_neg fun hbracket => Bool.false_ne_true (h.symm.trans hbracket)

/-- The brackets of the tokens of a part. -/
def HasArrays : (c : TypeForm) → List Token → c.Value → Prop
  | .type, w, ty => brackets w = arrays ty
  | .suffixes _ inner, w, ty => brackets w + arrays inner = arrays ty
  | .members, w, members => brackets w = membersArrays members

theorem arrays_simple {token : Token} {ty : TypeNode} (h : simpleType token = some ty) :
    isBracket token.kind = false ∧ arrays ty = 0 := by
  obtain ⟨kind, a⟩ := token
  cases kind with
  | numberType | stringType | booleanType | null | undefined | identifier name =>
    cases h
    exact ⟨rfl, rfl⟩
  | _ => cases h

theorem isBracket_propertyName {kind : TokenKind} {name : String} (h : propertyName kind = some name) :
    isBracket kind = false := by
  cases kind with
  | leftBracket => cases h
  | _ => rfl

theorem brackets_separator {w : List Token} {next : Next} (h : Separator w next) : brackets w = 0 := by
  cases h with
  | absent | semicolon | comma => rfl

theorem types_arrays {c : TypeForm} {w : List Token} {next : Next} {v : c.Value}
    (h : Types c w next v) : HasArrays c w v := by
  induction h with
  | @simple token w next ty v hsimple _ ih =>
    obtain ⟨hbracket, harrays⟩ := arrays_simple hsimple
    simp only [HasArrays, harrays, Nat.add_zero] at ih
    rw [HasArrays, brackets_other hbracket, ih]
  | @object a b w w' next members v _ _ ih ih' =>
    simp only [HasArrays, arrays] at ih ih'
    rw [HasArrays, brackets_other rfl, brackets_append, brackets_other rfl, ih]
    omega
  | done => exact Nat.zero_add _
  | @array start ty a b w next v _ ih =>
    simp only [HasArrays, arrays] at ih
    rw [HasArrays, brackets_bracket, brackets_other rfl]
    omega
  | nil => rfl
  | @member token name a w sep w' next ty members hname _ hsep _ ih ih' =>
    simp only [HasArrays] at ih ih'
    rw [HasArrays, brackets_other (isBracket_propertyName hname), brackets_other rfl, brackets_append,
      brackets_append, brackets_separator hsep, ih, ih', membersArrays, memberArrays]
    omega

theorem type_brackets {w : List Token} {next : Next} {ty : TypeNode} (h : Types .type w next ty) :
    brackets w = arrays ty := types_arrays h

/-- No suffix stands behind a value. -/
def NoSuffix (next : Next) : Prop := next ≠ some .dot ∧ next ≠ some .leftParen

def BindsLess (minPrecedence : ℕ) (next : Next) : Prop :=
  ∀ operator precedence, next.bind binaryOperator = some (operator, precedence) → precedence < minPrecedence

/-- Nothing that goes on a part stands behind it. -/
def EndsBefore : (c : ExpressionForm) → List Token → Next → Prop
  | .arguments _, _, _ | .properties, _, _ | .primary, _, _ => True
  | .expression, _, next => EndsExpression next
  | .binary minPrecedence, _, next => NoSuffix next ∧ BindsLess minPrecedence next
  | .operators minPrecedence _, w, next => (w ≠ [] → NoSuffix next) ∧ BindsLess minPrecedence next
  | .unary, _, next => NoSuffix next
  | .callMember, _, next => NoSuffix next
  | .suffixes _, _, next => NoSuffix next

theorem expressions_endBefore {c : ExpressionForm} {w : List Token} {next : Next} {v : c.Value}
    (h : Expressions c w next v) : EndsBefore c w next := by
  induction h with
  | @plain w next value _ hassignment ih =>
    refine ⟨ih.1.1, ih.1.2, hassignment, ?_⟩
    cases hbinary : next.bind binaryOperator with
    | none => rfl
    | some found => exact absurd (ih.2 found.1 found.2 hbinary) (Nat.not_lt_zero _)
  | assignment _ _ _ _ ih => exact ih
  | @chain minPrecedence w w' next left value _ _ ih ih' =>
    refine ⟨?_, ih'.2⟩
    cases w' with
    | nil => exact ih
    | cons token w' => exact ih'.1 (List.cons_ne_nil _ _)
  | chained hless => exact ⟨fun hne => absurd rfl hne, hless⟩
  | @operator minPrecedence left kind a w w' next operator precedence right value _ _ _ _ ih ih' =>
    refine ⟨fun _ => ?_, ih'.2⟩
    cases w' with
    | nil => exact ih.1
    | cons token w' => exact ih'.1 (List.cons_ne_nil _ _)
  | unary _ _ ih | operand _ ih | member _ ih => exact ih
  | callMember _ _ _ ih | call _ _ _ ih => exact ih
  | suffixed hdot hparen => exact ⟨hdot, hparen⟩
  | _ => trivial

theorem expression_endsBefore {w : List Token} {next : Next} {value : Expression}
    (h : Expressions .expression w next value) : EndsExpression next := expressions_endBefore h

theorem types_endBefore {c : TypeForm} {w : List Token} {next : Next} {v : c.Value}
    (h : Types c w next v) (hc : c ≠ .members) : next ≠ some .leftBracket := by
  induction h with
  | simple _ _ ih | array _ ih => exact ih fun h => nomatch h
  | object _ _ _ ih => exact ih fun h => nomatch h
  | done hnext => exact hnext
  | nil | member => exact absurd rfl hc

end Tsvm.Grammar
