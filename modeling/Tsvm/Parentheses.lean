import Tsvm.StatementGrammar

set_option autoImplicit false

/-!
# Parentheses

Every part of a program closes the parentheses it opens. What two parentheses
around an expression enclose is the expression itself.
-/
namespace Tsvm.Grammar
open Ast Lexing Parsing

/-- The number of open parentheses behind a text, `none` where one is closed that is not open. -/
def depth : List Token → ℕ → Option ℕ
  | [], n => some n
  | token :: w, n =>
    match token.kind with
    | .leftParen => depth w (n + 1)
    | .rightParen =>
      match n with
      | 0 => none
      | n + 1 => depth w n
    | _ => depth w n

def Balanced (w : List Token) : Prop := depth w 0 = some 0

instance (w : List Token) : Decidable (Balanced w) := inferInstanceAs (Decidable (depth w 0 = some 0))

def isParen : TokenKind → Bool
  | .leftParen | .rightParen => true
  | _ => false

@[simp] theorem depth_nil (n : ℕ) : depth [] n = some n := rfl

@[simp] theorem depth_leftParen (a : Span) (w : List Token) (n : ℕ) :
    depth (⟨.leftParen, a⟩ :: w) n = depth w (n + 1) := rfl

@[simp] theorem depth_rightParen (a : Span) (w : List Token) (n : ℕ) :
    depth (⟨.rightParen, a⟩ :: w) (n + 1) = depth w n := rfl

theorem depth_plain {token : Token} (h : isParen token.kind = false) (w : List Token) (n : ℕ) :
    depth (token :: w) n = depth w n := by
  obtain ⟨kind, a⟩ := token
  cases kind with
  | leftParen | rightParen => exact nomatch h
  | _ => rfl

theorem depth_append (x w : List Token) (n : ℕ) :
    depth (x ++ w) n = (depth x n).bind (depth w) := by
  induction x generalizing n with
  | nil => rfl
  | cons token x ih =>
    obtain ⟨kind, a⟩ := token
    cases kind with
    | leftParen => exact ih (n + 1)
    | rightParen =>
      cases n with
      | zero => rfl
      | succ n => exact ih n
    | _ => exact ih n

/-- What can be read with some parentheses open can be read with one more. -/
theorem depth_succ {w : List Token} {n k : ℕ} (h : depth w n = some k) :
    depth w (n + 1) = some (k + 1) := by
  induction w generalizing n with
  | nil =>
    rw [depth_nil, Option.some_inj] at h
    rw [depth_nil, h]
  | cons token w ih =>
    obtain ⟨kind, a⟩ := token
    cases kind with
    | leftParen => exact ih (n := n + 1) h
    | rightParen =>
      cases n with
      | zero => exact nomatch h
      | succ n => exact ih (n := n) h
    | _ => exact ih (n := n) h

theorem Balanced.depth {w : List Token} (h : Balanced w) (n : ℕ) : depth w n = some n := by
  induction n with
  | zero => exact h
  | succ n ih => exact depth_succ ih

theorem balanced_nil : Balanced [] := rfl

theorem Balanced.append {x w : List Token} (hx : Balanced x) (hw : Balanced w) :
    Balanced (x ++ w) := by
  rw [Balanced, depth_append, hx]
  exact hw

theorem Balanced.cons {token : Token} {w : List Token} (htoken : isParen token.kind = false)
    (hw : Balanced w) : Balanced (token :: w) := by
  rw [Balanced, depth_plain htoken]
  exact hw

/-- A text in parentheses, with another one behind it. -/
theorem Balanced.parens {x w : List Token} (a b : Span) (hx : Balanced x) (hw : Balanced w) :
    Balanced (⟨.leftParen, a⟩ :: (x ++ ⟨.rightParen, b⟩ :: w)) := by
  rw [Balanced, depth_leftParen, depth_append, hx.depth 1]
  exact hw

theorem Balanced.concat {x : List Token} {token : Token} (hx : Balanced x)
    (htoken : isParen token.kind = false) : Balanced (x ++ [token]) :=
  hx.append (balanced_nil.cons htoken)

theorem isParen_propertyName {kind : TokenKind} {name : String} (h : propertyName kind = some name) :
    isParen kind = false := by
  cases kind with
  | leftParen | rightParen => exact nomatch h
  | _ => rfl

theorem balanced_semicolon {w : List Token} {next : Next} (h : Semicolon w next) : Balanced w := by
  cases h with
  | absent => exact balanced_nil
  | present a => exact balanced_nil.cons rfl

theorem balanced_separator {w : List Token} {next : Next} (h : Separator w next) : Balanced w := by
  cases h with
  | absent => exact balanced_nil
  | semicolon a => exact balanced_nil.cons rfl
  | comma a => exact balanced_nil.cons rfl

theorem balanced_types {c : TypeForm} {w : List Token} {next : Next} {v : c.Value}
    (h : Types c w next v) : Balanced w := by
  induction h with
  | @simple token w next ty v hsimple _ ih =>
    refine ih.cons ?_
    obtain ⟨kind, a⟩ := token
    cases kind with
    | leftParen | rightParen => exact nomatch hsimple
    | _ => rfl
  | object _ _ ih ih' => exact (ih.append (ih'.cons rfl)).cons rfl
  | done => exact balanced_nil
  | array _ ih => exact (ih.cons rfl).cons rfl
  | nil => exact balanced_nil
  | member hname _ hsep _ ih ih' =>
    exact ((ih.append ((balanced_separator hsep).append ih')).cons rfl).cons
      (isParen_propertyName hname)

theorem isParen_unary {kind : TokenKind} {operator : UnaryOperator}
    (h : unaryOperator kind = some operator) : isParen kind = false := by
  cases kind with
  | leftParen | rightParen => exact nomatch h
  | _ => rfl

theorem isParen_binary {kind : TokenKind} {operator : BinaryOperator × ℕ}
    (h : binaryOperator kind = some operator) : isParen kind = false := by
  cases kind with
  | leftParen | rightParen => exact nomatch h
  | _ => rfl

theorem isParen_assignment {kind : TokenKind} {operator : AssignmentOperator}
    (h : assignmentOperator kind = some operator) : isParen kind = false := by
  cases kind with
  | leftParen | rightParen => exact nomatch h
  | _ => rfl

theorem isParen_simple {token : Token} {value : Expression}
    (h : simpleExpression token = some value) : isParen token.kind = false := by
  obtain ⟨kind, a⟩ := token
  cases kind with
  | leftParen | rightParen => exact nomatch h
  | _ => rfl

theorem balanced_expressions {c : ExpressionForm} {w : List Token} {next : Next} {v : c.Value}
    (h : Expressions c w next v) : Balanced w := by
  induction h with
  | plain _ _ ih => exact ih
  | assignment hoperator _ _ ih ih' => exact ih.append (ih'.cons (isParen_assignment hoperator))
  | chain _ _ ih ih' => exact ih.append ih'
  | chained => exact balanced_nil
  | operator hoperator _ _ _ ih ih' => exact (ih.append ih').cons (isParen_binary hoperator)
  | unary hoperator _ ih => exact ih.cons (isParen_unary hoperator)
  | operand _ ih => exact ih
  | callMember _ _ ih ih' => exact ih.append ih'
  | suffixed => exact balanced_nil
  | member _ ih => exact (ih.cons rfl).cons rfl
  | call _ _ ih ih' => exact .parens _ _ ih ih'
  | simple hsimple => exact balanced_nil.cons (isParen_simple hsimple)
  | group _ ih => exact .parens _ _ ih balanced_nil
  | object _ ih => exact (ih.concat rfl).cons rfl
  | array _ ih => exact (ih.concat rfl).cons rfl
  | noArgument => exact balanced_nil
  | lastArgument _ _ ih => exact ih
  | moreArguments _ _ ih ih' => exact ih.append (ih'.cons rfl)
  | noProperty => exact balanced_nil
  | lastProperty hname _ _ ih => exact (ih.cons rfl).cons (isParen_propertyName hname)
  | moreProperties hname _ _ ih ih' =>
    exact ((ih.append (ih'.cons rfl)).cons rfl).cons (isParen_propertyName hname)

theorem balanced_listed {α : Type} {close : TokenKind}
    {T : List Token → Next → Option α × Bool → Prop} {w : List Token} {next : Next} {items : List α}
    (hT : ∀ w next v, T w next v → Balanced w) (h : Listed close T w next items) : Balanced w := by
  induction h with
  | nil => exact balanced_nil
  | stop _ _ hitem => exact hT _ _ _ hitem
  | more _ _ hitem _ ih => exact (hT _ _ _ hitem).append ih

theorem balanced_optionalType {w : List Token} {next : Next} {ty : Option TypeNode}
    (h : OptionalType w next ty) : Balanced w := by
  cases h with
  | absent => exact balanced_nil
  | present hty => exact (balanced_types hty).cons rfl

theorem balanced_optionalInitializer {w : List Token} {next : Next} {value : Option Expression}
    (h : OptionalInitializer w next value) : Balanced w := by
  cases h with
  | absent => exact balanced_nil
  | present hvalue => exact (balanced_expressions hvalue).cons rfl

theorem balanced_importTokens {w : List Token} {next : Next} {v : Option String × Bool}
    (h : ImportTokens w next v) : Balanced w := by
  cases h with
  | last => exact balanced_nil.cons rfl
  | more => exact (balanced_nil.cons rfl).cons rfl

theorem balanced_parameterTokens {w : List Token} {next : Next} {v : Option Parameter × Bool}
    (h : ParameterTokens w next v) : Balanced w := by
  cases h with
  | last hty => exact (balanced_optionalType hty).cons rfl
  | more hty => exact ((balanced_optionalType hty).concat rfl).cons rfl

theorem balanced_classMemberTokens {w : List Token} {next : Next} {v : Option ClassMember × Bool}
    (h : ClassMemberTokens w next v) : Balanced w := by
  cases h with
  | mk hty hinitializer hsemi =>
    exact ((balanced_optionalType hty).append ((balanced_optionalInitializer hinitializer).append
      (balanced_semicolon hsemi))).cons rfl

theorem isParen_variable {kind : TokenKind} (h : isVariableKeyword (some kind) = true) :
    isParen kind = false := by
  cases kind with
  | leftParen | rightParen => exact nomatch h
  | _ => rfl

theorem balanced_variableTokens {w : List Token} {next : Next} {declaration : VariableDeclaration}
    (h : VariableTokens w next declaration) : Balanced w := by
  cases h with
  | mk hkind hty hinitializer =>
    exact (((balanced_optionalType hty).append (balanced_optionalInitializer hinitializer)).cons
      rfl).cons (isParen_variable hkind)

theorem balanced_forInitializer {w : List Token} {next : Next} {initializer : Option Statement}
    (h : ForInitializer w next initializer) : Balanced w := by
  cases h with
  | absent => exact balanced_nil.cons rfl
  | declaration hvariable => exact balanced_variableTokens hvariable
  | expression hvalue => exact balanced_expressions hvalue

theorem balanced_forPart {close : TokenKind} {w : List Token} {part : Option Expression}
    (h : ForPart close w part) : Balanced w := by
  cases h with
  | absent => exact balanced_nil
  | present hvalue => exact balanced_expressions hvalue

theorem balanced_statements {c : StatementForm} {w : List Token} {next : Next} {v : c.Value}
    (h : Statements c w next v) : Balanced w := by
  induction h with
  | imports hnames hsemi =>
    exact ((balanced_listed (fun _ _ _ => balanced_importTokens) hnames).append
      ((((balanced_semicolon hsemi).cons rfl).cons rfl).cons rfl)).cons rfl |>.cons rfl
  | importDefault hsemi =>
    exact ((((balanced_semicolon hsemi).cons rfl).cons rfl).cons rfl).cons rfl
  | «export» _ ih => exact ih.cons rfl
  | interface hmembers =>
    exact ((((balanced_types hmembers).concat rfl).cons rfl).cons rfl).cons rfl
  | typeAlias hty hsemi =>
    exact ((((balanced_types hty).append (balanced_semicolon hsemi)).cons rfl).cons rfl).cons rfl
  | «class» hmembers =>
    exact ((((balanced_listed (fun _ _ _ => balanced_classMemberTokens) hmembers).concat rfl).cons
      rfl).cons rfl).cons rfl
  | function hparams hty _ ih =>
    have hlist := balanced_listed (fun _ _ _ => balanced_parameterTokens) hparams
    exact ((Balanced.parens _ _ hlist ((balanced_optionalType hty).append
      ((ih.concat rfl).cons rfl))).cons rfl).cons rfl
  | «variable» hvariable hsemi =>
    rw [← List.cons_append]
    exact (balanced_variableTokens hvariable).append (balanced_semicolon hsemi)
  | returnNothing hsemi => exact (balanced_semicolon hsemi).cons rfl
  | «return» hvalue hsemi =>
    exact ((balanced_expressions hvalue).append (balanced_semicolon hsemi)).cons rfl
  | throw hvalue hsemi =>
    exact ((balanced_expressions hvalue).append (balanced_semicolon hsemi)).cons rfl
  | ifThen htest _ _ ih => exact (Balanced.parens _ _ (balanced_expressions htest) ih).cons rfl
  | ifElse htest _ _ ih ih' =>
    exact (Balanced.parens _ _ (balanced_expressions htest) (ih.append (ih'.cons rfl))).cons rfl
  | «while» htest _ ih => exact (Balanced.parens _ _ (balanced_expressions htest) ih).cons rfl
  | @«for» a b c d e w₁ w₂ w₃ w₄ next initializer test update body hinitializer htest hupdate _ ih =>
    have hheader : Balanced (w₁ ++ ⟨.semicolon, c⟩ :: (w₂ ++ ⟨.semicolon, d⟩ :: w₃)) :=
      (balanced_forInitializer hinitializer).append (((balanced_forPart htest).append
        ((balanced_forPart hupdate).cons rfl)).cons rfl)
    have hfor := Balanced.parens b e hheader ih
    simp only [List.append_assoc, List.cons_append] at hfor
    exact hfor.cons rfl
  | block _ ih => exact (ih.concat rfl).cons rfl
  | empty => exact balanced_nil.cons rfl
  | expression hvalue _ hsemi => exact (balanced_expressions hvalue).append (balanced_semicolon hsemi)
  | nil => exact balanced_nil
  | cons _ _ ih ih' => exact ih.append ih'

end Tsvm.Grammar
