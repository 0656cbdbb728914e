import Tsvm.DeclarationOrders
import Tsvm.RelocatedLowering

set_option autoImplicit false

/-!
# Layouts

Two texts with tokens of the same kinds differ in what stands between the tokens, and in how a
literal is written. They are both programs or neither is, and they are the same program.
-/
namespace Tsvm.Layouts
open Ast Lexing Parsing Grammar Lowering CompiledOperands RelocatedChecks RelocatedLowering
open Semantic Pipeline Bytecode Interop RuntimeValues Interpreter SourceMeaning CompilerAcceptance
open MeaningPreservation
open DeclarationOrders (parseSource_quiet)
open FailState (SameEnds)

def Alike (w w' : List Token) : Prop := w.map Token.kind = w'.map Token.kind

section Alike

variable {token : Token} {w w' x : List Token}

theorem alike_nil : Alike [] w' ↔ w' = [] := by
  rw [Alike, List.map_nil, eq_comm, List.map_eq_nil_iff]

theorem alike_cons :
    Alike (token :: w) w' ↔ ∃ a w₁, Alike w w₁ ∧ w' = ⟨token.kind, a⟩ :: w₁ := by
  constructor
  · intro h
    rw [Alike, List.map_cons, eq_comm, List.map_eq_cons_iff] at h
    obtain ⟨⟨kind, a⟩, w₁, rfl, hkind, hw⟩ := h
    rw [← hkind]
    exact ⟨a, w₁, hw.symm, rfl⟩
  · rintro ⟨a, w₁, hw, rfl⟩
    rw [Alike, List.map_cons, List.map_cons, hw]

theorem alike_append :
    Alike (w ++ x) w' ↔ ∃ w₁ x₁, Alike w w₁ ∧ Alike x x₁ ∧ w' = w₁ ++ x₁ := by
  constructor
  · intro h
    rw [Alike, List.map_append, eq_comm, List.map_eq_append_iff] at h
    obtain ⟨w₁, x₁, rfl, hw, hx⟩ := h
    exact ⟨w₁, x₁, hw.symm, hx.symm, rfl⟩
  · rintro ⟨w₁, x₁, hw, hx, rfl⟩
    rw [Alike, List.map_append, List.map_append, hw, hx]

theorem Alike.kindOf (h : Alike w w') : kindOf w' = kindOf w := by
  rw [Parsing.kindOf, Parsing.kindOf, ← List.head?_map, ← List.head?_map, ← h]

theorem Alike.follow (h : Alike w w') (next : Next) : follow w' next = follow w next := by
  rw [Parsing.follow, Parsing.follow, h.kindOf]

theorem Alike.ne_nil (h : Alike w w') (hw : w ≠ []) : w' ≠ [] := by
  rintro rfl
  exact hw (List.map_eq_nil_iff.mp h)

end Alike

def TypesAlike : TypeForm → List Token → Next → Prop
  | .type, w, next => ∀ w', Alike w w' → ∃ ty, Types .type w' next ty
  | .members, w, next => ∀ w', Alike w w' → ∃ members, Types .members w' next members
  | .suffixes _ _, w, next =>
    ∀ w' start inner, Alike w w' → ∃ ty, Types (.suffixes start inner) w' next ty

theorem separator_alike {w w' : List Token} {next : Next} (h : Separator w next) (hw : Alike w w') :
    Separator w' next := by
  cases h with
  | absent hsemicolon hcomma =>
    rw [alike_nil.mp hw]
    exact .absent hsemicolon hcomma
  | semicolon a next =>
    obtain ⟨a', w₁, hnil, rfl⟩ := alike_cons.mp hw
    rw [alike_nil.mp hnil]
    exact .semicolon a' next
  | comma a next =>
    obtain ⟨a', w₁, hnil, rfl⟩ := alike_cons.mp hw
    rw [alike_nil.mp hnil]
    exact .comma a' next

theorem simpleType_alike {token : Token} {ty : TypeNode} (h : simpleType token = some ty)
    (a : Span) : ∃ ty', simpleType ⟨token.kind, a⟩ = some ty' := by
  obtain ⟨kind, span⟩ := token
  cases kind with
  | numberType | stringType | booleanType | null | undefined | identifier name => exact ⟨_, rfl⟩
  | _ => cases h

theorem types_alike {c : TypeForm} {w : List Token} {next : Next} {v : c.Value}
    (h : Types c w next v) : TypesAlike c w next := by
  induction h with
  | @simple token w next ty v hty _ ih =>
    intro w' hw
    obtain ⟨a, w₁, hw₁, rfl⟩ := alike_cons.mp hw
    obtain ⟨ty', hty'⟩ := simpleType_alike hty a
    obtain ⟨result, hresult⟩ := ih w₁ a.start ty' hw₁
    exact ⟨result, .simple hty' hresult⟩
  | object _ _ ih ih' =>
    intro w' hw
    simp only [alike_cons, alike_append] at hw
    obtain ⟨a, _, ⟨w₁, _, hw₁, ⟨b, w₂, hw₂, rfl⟩, rfl⟩, rfl⟩ := hw
    obtain ⟨members, hmembers⟩ := ih w₁ hw₁
    obtain ⟨result, hresult⟩ := ih' w₂ a.start (.object members ⟨a.start, b.end⟩) hw₂
    exact ⟨result, .object hmembers hresult⟩
  | done hnext =>
    intro w' start inner hw
    rw [alike_nil.mp hw]
    exact ⟨inner, .done hnext⟩
  | array _ ih =>
    intro w' start inner hw
    simp only [alike_cons] at hw
    obtain ⟨a, _, ⟨b, w₁, hw₁, rfl⟩, rfl⟩ := hw
    obtain ⟨result, hresult⟩ := ih w₁ start (.array inner ⟨start, b.end⟩) hw₁
    exact ⟨result, .array hresult⟩
  | nil =>
    intro w' hw
    rw [alike_nil.mp hw]
    exact ⟨[], .nil⟩
  | @member token name a w sep w' next ty members hname _ hsep _ ih ih' =>
    intro x hx
    simp only [alike_cons, alike_append] at hx
    obtain ⟨a₁, _, ⟨b₁, _, ⟨w₁, _, hw₁, ⟨sep₁, w₂, hsep₁, hw₂, rfl⟩, rfl⟩, rfl⟩, rfl⟩ := hx
    obtain ⟨ty', hty'⟩ := ih w₁ hw₁
    obtain ⟨members', hmembers'⟩ := ih' w₂ hw₂
    rw [← hw₂.follow, ← hsep₁.follow] at hty'
    rw [← hw₂.follow] at hsep
    exact ⟨_, @Types.member ⟨token.kind, a₁⟩ name b₁ w₁ sep₁ w₂ next ty' members' hname hty'
      (separator_alike hsep hsep₁) hmembers'⟩

def ExpressionsAlike : ExpressionForm → List Token → Next → Prop
  | .expression, w, next => ∀ w', Alike w w' → ∃ value, Expressions .expression w' next value
  | .binary minPrecedence, w, next =>
    ∀ w', Alike w w' → ∃ value, Expressions (.binary minPrecedence) w' next value
  | .operators minPrecedence _, w, next =>
    ∀ w' left, Alike w w' → ∃ value, Expressions (.operators minPrecedence left) w' next value
  | .unary, w, next => ∀ w', Alike w w' → ∃ value, Expressions .unary w' next value
  | .callMember, w, next => ∀ w', Alike w w' → ∃ value, Expressions .callMember w' next value
  | .suffixes _, w, next =>
    ∀ w' value, Alike w w' → ∃ result, Expressions (.suffixes value) w' next result
  | .primary, w, next => ∀ w', Alike w w' → ∃ value, Expressions .primary w' next value
  | .arguments close, w, next =>
    ∀ w', Alike w w' → ∃ values, Expressions (.arguments close) w' next values
  | .properties, w, next =>
    ∀ w', Alike w w' → ∃ properties, Expressions .properties w' next properties

theorem simpleExpression_alike {token : Token} {value : Expression}
    (h : simpleExpression token = some value) (a : Span) :
    ∃ value', simpleExpression ⟨token.kind, a⟩ = some value' := by
  obtain ⟨kind, span⟩ := token
  cases kind with
  | identifier name | numberLiteral value | stringLiteral value | booleanLiteral value | null
  | undefined => exact ⟨_, rfl⟩
  | _ => cases h

theorem expressions_alike {c : ExpressionForm} {w : List Token} {next : Next} {v : c.Value}
    (h : Expressions c w next v) : ExpressionsAlike c w next := by
  induction h with
  | plain _ hnext ih =>
    intro w' hw
    obtain ⟨value, hvalue⟩ := ih w' hw
    exact ⟨value, .plain hvalue hnext⟩
  | assignment hkind _ _ ih ih' =>
    intro x hx
    simp only [alike_cons, alike_append] at hx
    obtain ⟨w₁, _, hw₁, ⟨a, w₂, hw₂, rfl⟩, rfl⟩ := hx
    obtain ⟨left, hleft⟩ := ih w₁ hw₁
    obtain ⟨right, hright⟩ := ih' w₂ hw₂
    exact ⟨_, .assignment hkind hleft hright⟩
  | chain _ _ ih ih' =>
    intro x hx
    obtain ⟨w₁, w₂, hw₁, hw₂, rfl⟩ := alike_append.mp hx
    obtain ⟨left, hleft⟩ := ih w₁ hw₁
    obtain ⟨value, hvalue⟩ := ih' w₂ left hw₂
    rw [← hw₂.follow] at hleft
    exact ⟨value, .chain hleft hvalue⟩
  | chained hnext =>
    intro x left hx
    rw [alike_nil.mp hx]
    exact ⟨left, .chained hnext⟩
  | @operator _ _ _ _ _ _ _ operator _ _ _ hkind hle _ _ ih ih' =>
    intro x left hx
    simp only [alike_cons, alike_append] at hx
    obtain ⟨a, _, ⟨w₁, w₂, hw₁, hw₂, rfl⟩, rfl⟩ := hx
    obtain ⟨right, hright⟩ := ih w₁ hw₁
    rw [← hw₂.follow] at hright
    obtain ⟨value, hvalue⟩ := ih' w₂ (.binary left operator right ⟨left.span.start, right.span.end⟩)
      hw₂
    exact ⟨value, .operator hkind hle hright hvalue⟩
  | unary hkind _ ih =>
    intro x hx
    obtain ⟨a, w₁, hw₁, rfl⟩ := alike_cons.mp hx
    obtain ⟨value, hvalue⟩ := ih w₁ hw₁
    exact ⟨_, .unary hkind hvalue⟩
  | operand _ ih =>
    intro x hx
    obtain ⟨value, hvalue⟩ := ih x hx
    exact ⟨value, .operand hvalue⟩
  | callMember _ _ ih ih' =>
    intro x hx
    obtain ⟨w₁, w₂, hw₁, hw₂, rfl⟩ := alike_append.mp hx
    obtain ⟨value, hvalue⟩ := ih w₁ hw₁
    obtain ⟨result, hresult⟩ := ih' w₂ value hw₂
    rw [← hw₂.follow] at hvalue
    exact ⟨result, .callMember hvalue hresult⟩
  | suffixed hdot hparen =>
    intro x value hx
    rw [alike_nil.mp hx]
    exact ⟨value, .suffixed hdot hparen⟩
  | @member _ name _ _ _ _ _ _ ih =>
    intro x value hx
    simp only [alike_cons] at hx
    obtain ⟨a, _, ⟨b, w₁, hw₁, rfl⟩, rfl⟩ := hx
    obtain ⟨result, hresult⟩ := ih w₁ (.member value name ⟨value.span.start, b.end⟩) hw₁
    exact ⟨result, .member hresult⟩
  | call _ _ ih ih' =>
    intro x value hx
    simp only [alike_cons, alike_append] at hx
    obtain ⟨a, _, ⟨w₁, _, hw₁, ⟨b, w₂, hw₂, rfl⟩, rfl⟩, rfl⟩ := hx
    obtain ⟨arguments, harguments⟩ := ih w₁ hw₁
    obtain ⟨result, hresult⟩ := ih' w₂ (.call value arguments ⟨value.span.start, b.end⟩) hw₂
    exact ⟨result, .call harguments hresult⟩
  | simple hvalue =>
    intro x hx
    obtain ⟨a, w₁, hw₁, rfl⟩ := alike_cons.mp hx
    rw [alike_nil.mp hw₁]
    obtain ⟨value, hvalue⟩ := simpleExpression_alike hvalue a
    exact ⟨value, .simple hvalue⟩
  | group _ ih =>
    intro x hx
    simp only [alike_cons, alike_append, alike_nil] at hx
    obtain ⟨a, _, ⟨w₁, _, hw₁, ⟨b, _, rfl, rfl⟩, rfl⟩, rfl⟩ := hx
    obtain ⟨value, hvalue⟩ := ih w₁ hw₁
    exact ⟨value, .group hvalue⟩
  | object _ ih =>
    intro x hx
    simp only [alike_cons, alike_append, alike_nil] at hx
    obtain ⟨a, _, ⟨w₁, _, hw₁, ⟨b, _, rfl, rfl⟩, rfl⟩, rfl⟩ := hx
    obtain ⟨properties, hproperties⟩ := ih w₁ hw₁
    exact ⟨_, .object hproperties⟩
  | array _ ih =>
    intro x hx
    simp only [alike_cons, alike_append, alike_nil] at hx
    obtain ⟨a, _, ⟨w₁, _, hw₁, ⟨b, _, rfl, rfl⟩, rfl⟩, rfl⟩ := hx
    obtain ⟨elements, helements⟩ := ih w₁ hw₁
    exact ⟨_, .array helements⟩
  | noArgument =>
    intro x hx
    rw [alike_nil.mp hx]
    exact ⟨[], .noArgument⟩
  | lastArgument _ hnext ih =>
    intro x hx
    obtain ⟨value, hvalue⟩ := ih x hx
    exact ⟨[value], .lastArgument hvalue hnext⟩
  | moreArguments _ _ ih ih' =>
    intro x hx
    simp only [alike_cons, alike_append] at hx
    obtain ⟨w₁, _, hw₁, ⟨a, w₂, hw₂, rfl⟩, rfl⟩ := hx
    obtain ⟨value, hvalue⟩ := ih w₁ hw₁
    obtain ⟨values, hvalues⟩ := ih' w₂ hw₂
    exact ⟨value :: values, .moreArguments hvalue hvalues⟩
  | noProperty =>
    intro x hx
    rw [alike_nil.mp hx]
    exact ⟨[], .noProperty⟩
  | @lastProperty token name a w next value hname _ hnext ih =>
    intro x hx
    simp only [alike_cons] at hx
    obtain ⟨b, _, ⟨c, w₁, hw₁, rfl⟩, rfl⟩ := hx
    obtain ⟨value', hvalue⟩ := ih w₁ hw₁
    exact ⟨_, @Expressions.lastProperty ⟨token.kind, b⟩ name c w₁ next value' hname hvalue hnext⟩
  | @moreProperties token name a w b w' next value properties hname _ _ ih ih' =>
    intro x hx
    simp only [alike_cons, alike_append] at hx
    obtain ⟨c, _, ⟨d, _, ⟨w₁, _, hw₁, ⟨e, w₂, hw₂, rfl⟩, rfl⟩, rfl⟩, rfl⟩ := hx
    obtain ⟨value', hvalue⟩ := ih w₁ hw₁
    obtain ⟨properties', hproperties⟩ := ih' w₂ hw₂
    exact ⟨_, @Expressions.moreProperties ⟨token.kind, c⟩ name d w₁ e w₂ next value' properties'
      hname hvalue hproperties⟩

theorem semicolon_alike {w w' : List Token} {next : Next} (h : Semicolon w next) (hw : Alike w w') :
    Semicolon w' next := by
  cases h with
  | absent hnext =>
    rw [alike_nil.mp hw]
    exact .absent hnext
  | present a next =>
    obtain ⟨a', w₁, hnil, rfl⟩ := alike_cons.mp hw
    rw [alike_nil.mp hnil]
    exact .present a' next

theorem optionalType_alike {w w' : List Token} {next : Next} {ty : Option TypeNode}
    (h : OptionalType w next ty) (hw : Alike w w') : ∃ ty', OptionalType w' next ty' := by
  cases h with
  | absent hnext =>
    rw [alike_nil.mp hw]
    exact ⟨none, .absent hnext⟩
  | present hty =>
    obtain ⟨a, w₁, hw₁, rfl⟩ := alike_cons.mp hw
    obtain ⟨ty', hty'⟩ := types_alike hty w₁ hw₁
    exact ⟨some ty', .present hty'⟩

theorem optionalInitializer_alike {w w' : List Token} {next : Next}
    {initializer : Option Expression} (h : OptionalInitializer w next initializer)
    (hw : Alike w w') : ∃ initializer', OptionalInitializer w' next initializer' := by
  cases h with
  | absent hnext =>
    rw [alike_nil.mp hw]
    exact ⟨none, .absent hnext⟩
  | present hvalue =>
    obtain ⟨a, w₁, hw₁, rfl⟩ := alike_cons.mp hw
    obtain ⟨value, hvalue⟩ := expressions_alike hvalue w₁ hw₁
    exact ⟨some value, .present hvalue⟩

theorem listed_alike {α : Type} {close : TokenKind}
    {T : List Token → Next → Option α × Bool → Prop}
    (hitem : ∀ {w w' next item goOn}, T w next (item, goOn) → Alike w w' →
      ∃ item', T w' next (item', goOn))
    {w w' : List Token} {next : Next} {items : List α} (h : Listed close T w next items)
    (hw : Alike w w') : ∃ items', Listed close T w' next items' := by
  induction h generalizing w' with
  | nil =>
    rw [alike_nil.mp hw]
    exact ⟨[], .nil⟩
  | stop hne hclose hT =>
    obtain ⟨item', hitem'⟩ := hitem hT hw
    exact ⟨item'.toList, .stop (hw.ne_nil hne) (hw.kindOf ▸ hclose) hitem'⟩
  | more hne hclose hT _ ih =>
    obtain ⟨w₁, w₂, hw₁, hw₂, rfl⟩ := alike_append.mp hw
    obtain ⟨item', hitem'⟩ := hitem hT hw₁
    obtain ⟨items', hitems'⟩ := ih hw₂
    rw [← hw₂.follow] at hitem'
    exact ⟨item'.toList ++ items', .more (hw₁.ne_nil hne) (hw₁.kindOf ▸ hclose) hitem' hitems'⟩

theorem importTokens_alike {w w' : List Token} {next : Next} {item : Option String} {goOn : Bool}
    (h : ImportTokens w next (item, goOn)) (hw : Alike w w') :
    ∃ item', ImportTokens w' next (item', goOn) := by
  cases h with
  | @last name a next hnext =>
    obtain ⟨a', w₁, hnil, rfl⟩ := alike_cons.mp hw
    rw [alike_nil.mp hnil]
    exact ⟨some name, .last hnext⟩
  | @more name a b next =>
    simp only [alike_cons, alike_nil] at hw
    obtain ⟨a', _, ⟨b', _, rfl, rfl⟩, rfl⟩ := hw
    exact ⟨some name, .more⟩

theorem parameterTokens_alike {w w' : List Token} {next : Next} {item : Option Parameter}
    {goOn : Bool} (h : ParameterTokens w next (item, goOn)) (hw : Alike w w') :
    ∃ item', ParameterTokens w' next (item', goOn) := by
  cases h with
  | last hty hnext =>
    obtain ⟨a, w₁, hw₁, rfl⟩ := alike_cons.mp hw
    obtain ⟨ty, hty⟩ := optionalType_alike hty hw₁
    exact ⟨_, .last hty hnext⟩
  | more hty =>
    simp only [alike_cons, alike_append, alike_nil] at hw
    obtain ⟨a, _, ⟨w₁, _, hw₁, ⟨b, _, rfl, rfl⟩, rfl⟩, rfl⟩ := hw
    obtain ⟨ty, hty⟩ := optionalType_alike hty hw₁
    exact ⟨_, .more hty⟩

theorem classMemberTokens_alike {w w' : List Token} {next : Next} {item : Option ClassMember}
    {goOn : Bool} (h : ClassMemberTokens w next (item, goOn)) (hw : Alike w w') :
    ∃ item', ClassMemberTokens w' next (item', goOn) := by
  cases h with
  | mk hty hvalue hsemi =>
    simp only [alike_cons, alike_append] at hw
    obtain ⟨a, _, ⟨w₁, _, hw₁, ⟨w₂, semi, hw₂, hw₃, rfl⟩, rfl⟩, rfl⟩ := hw
    obtain ⟨ty, hty⟩ := optionalType_alike hty hw₁
    obtain ⟨initializer, hvalue⟩ := optionalInitializer_alike hvalue hw₂
    rw [← hw₃.follow] at hvalue
    rw [← hw₃.follow, ← hw₂.follow] at hty
    exact ⟨_, .mk hty hvalue (semicolon_alike hsemi hw₃)⟩

theorem variableTokens_alike {w w' : List Token} {next : Next} {declaration : VariableDeclaration}
    (h : VariableTokens w next declaration) (hw : Alike w w') :
    ∃ declaration', VariableTokens w' next declaration' := by
  cases h with
  | mk hkind hty hvalue =>
    simp only [alike_cons, alike_append] at hw
    obtain ⟨a, _, ⟨b, _, ⟨w₁, w₂, hw₁, hw₂, rfl⟩, rfl⟩, rfl⟩ := hw
    obtain ⟨ty, hty⟩ := optionalType_alike hty hw₁
    obtain ⟨initializer, hvalue⟩ := optionalInitializer_alike hvalue hw₂
    rw [← hw₂.follow] at hty
    exact ⟨_, .mk hkind hty hvalue⟩

theorem forInitializer_alike {w w' : List Token} {next : Next} {initializer : Option Statement}
    (h : ForInitializer w next initializer) (hw : Alike w w') :
    ∃ initializer', ForInitializer w' next initializer' := by
  cases h with
  | absent =>
    obtain ⟨a, w₁, hnil, rfl⟩ := alike_cons.mp hw
    rw [alike_nil.mp hnil]
    exact ⟨none, .absent⟩
  | @declaration token w next declaration hvariable =>
    obtain ⟨declaration', hvariable'⟩ := variableTokens_alike hvariable hw
    obtain ⟨a, w₁, hw₁, rfl⟩ := alike_cons.mp hw
    exact ⟨_, .declaration hvariable'⟩
  | expression hvalue =>
    obtain ⟨value, hvalue⟩ := expressions_alike hvalue w' hw
    exact ⟨_, .expression hvalue⟩

theorem forPart_alike {close : TokenKind} {w w' : List Token} {part : Option Expression}
    (h : ForPart close w part) (hw : Alike w w') : ∃ part', ForPart close w' part' := by
  cases h with
  | absent =>
    rw [alike_nil.mp hw]
    exact ⟨none, .absent⟩
  | present hvalue =>
    obtain ⟨value, hvalue⟩ := expressions_alike hvalue w' hw
    exact ⟨some value, .present hvalue⟩

theorem statements_alike {c : StatementForm} {w w' : List Token} {next : Next} {v : c.Value}
    (h : Statements c w next v) (hw : Alike w w') : ∃ v' : c.Value, Statements c w' next v' := by
  induction h generalizing w' with
  | imports hnames hsemi =>
    simp only [alike_cons, alike_append] at hw
    obtain ⟨a, _, ⟨b, _, ⟨w₁, _, hw₁, ⟨c, _, ⟨d, _, ⟨e, semi, hw₂, rfl⟩, rfl⟩, rfl⟩, rfl⟩, rfl⟩,
      rfl⟩ := hw
    obtain ⟨names, hnames⟩ := listed_alike (T := ImportTokens) importTokens_alike hnames hw₁
    exact ⟨_, .imports hnames (semicolon_alike hsemi hw₂)⟩
  | importDefault hsemi =>
    simp only [alike_cons] at hw
    obtain ⟨a, _, ⟨b, _, ⟨d, _, ⟨e, semi, hw₂, rfl⟩, rfl⟩, rfl⟩, rfl⟩ := hw
    exact ⟨_, .importDefault (semicolon_alike hsemi hw₂)⟩
  | «export» _ ih =>
    obtain ⟨a, w₁, hw₁, rfl⟩ := alike_cons.mp hw
    obtain ⟨inner, hinner⟩ := ih hw₁
    exact ⟨_, .export hinner⟩
  | interface hmembers =>
    simp only [alike_cons, alike_append, alike_nil] at hw
    obtain ⟨a, _, ⟨b, _, ⟨c, _, ⟨w₁, _, hw₁, ⟨d, _, rfl, rfl⟩, rfl⟩, rfl⟩, rfl⟩, rfl⟩ := hw
    obtain ⟨members, hmembers⟩ := types_alike hmembers w₁ hw₁
    exact ⟨_, .interface hmembers⟩
  | typeAlias hty hsemi =>
    simp only [alike_cons, alike_append] at hw
    obtain ⟨a, _, ⟨b, _, ⟨c, _, ⟨w₁, semi, hw₁, hw₂, rfl⟩, rfl⟩, rfl⟩, rfl⟩ := hw
    obtain ⟨ty, hty⟩ := types_alike hty w₁ hw₁
    rw [← hw₂.follow] at hty
    exact ⟨_, .typeAlias hty (semicolon_alike hsemi hw₂)⟩
  | «class» hmembers =>
    simp only [alike_cons, alike_append, alike_nil] at hw
    obtain ⟨a, _, ⟨b, _, ⟨c, _, ⟨w₁, _, hw₁, ⟨d, _, rfl, rfl⟩, rfl⟩, rfl⟩, rfl⟩, rfl⟩ := hw
    obtain ⟨members, hmembers⟩ := listed_alike (T := ClassMemberTokens) classMemberTokens_alike
      hmembers hw₁
    exact ⟨_, .class hmembers⟩
  | function hparams htype _ ih =>
    simp only [alike_cons, alike_append, alike_nil] at hw
    obtain ⟨a, _, ⟨b, _, ⟨c, _, ⟨w₁, _, hw₁, ⟨d, _, ⟨w₂, _, hw₂, ⟨e, _, ⟨w₃, _, hw₃,
      ⟨f, _, rfl, rfl⟩, rfl⟩, rfl⟩, rfl⟩, rfl⟩, rfl⟩, rfl⟩, rfl⟩, rfl⟩ := hw
    obtain ⟨params, hparams⟩ := listed_alike (T := ParameterTokens) parameterTokens_alike hparams
      hw₁
    obtain ⟨returnType, htype⟩ := optionalType_alike htype hw₂
    obtain ⟨body, hbody⟩ := ih hw₃
    exact ⟨_, .function hparams htype hbody⟩
  | @«variable» token w semi next declaration hvariable hsemi =>
    rw [← List.cons_append] at hw
    obtain ⟨x, semi', hx, hsemi', rfl⟩ := alike_append.mp hw
    obtain ⟨declaration', hvariable'⟩ := variableTokens_alike hvariable hx
    obtain ⟨a, w₁, hw₁, rfl⟩ := alike_cons.mp hx
    rw [← hsemi'.follow] at hvariable'
    exact ⟨_, .variable hvariable' (semicolon_alike hsemi hsemi')⟩
  | returnNothing hsemi hnext =>
    obtain ⟨a, semi', hsemi', rfl⟩ := alike_cons.mp hw
    rw [← hsemi'.follow] at hnext
    exact ⟨_, .returnNothing (semicolon_alike hsemi hsemi') hnext⟩
  | «return» hvalue hsemi =>
    simp only [alike_cons, alike_append] at hw
    obtain ⟨a, _, ⟨w₁, semi, hw₁, hw₂, rfl⟩, rfl⟩ := hw
    obtain ⟨value, hvalue⟩ := expressions_alike hvalue w₁ hw₁
    rw [← hw₂.follow] at hvalue
    exact ⟨_, .return hvalue (semicolon_alike hsemi hw₂)⟩
  | throw hvalue hsemi =>
    simp only [alike_cons, alike_append] at hw
    obtain ⟨a, _, ⟨w₁, semi, hw₁, hw₂, rfl⟩, rfl⟩ := hw
    obtain ⟨value, hvalue⟩ := expressions_alike hvalue w₁ hw₁
    rw [← hw₂.follow] at hvalue
    exact ⟨_, .throw hvalue (semicolon_alike hsemi hw₂)⟩
  | ifThen htest _ hnext ih =>
    simp only [alike_cons, alike_append] at hw
    obtain ⟨a, _, ⟨b, _, ⟨w₁, _, hw₁, ⟨c, w₂, hw₂, rfl⟩, rfl⟩, rfl⟩, rfl⟩ := hw
    obtain ⟨test, htest⟩ := expressions_alike htest w₁ hw₁
    obtain ⟨consequent, hconsequent⟩ := ih hw₂
    exact ⟨_, .ifThen htest hconsequent hnext⟩
  | ifElse htest _ _ ih ih' =>
    simp only [alike_cons, alike_append] at hw
    obtain ⟨a, _, ⟨b, _, ⟨w₁, _, hw₁, ⟨c, _, ⟨w₂, _, hw₂, ⟨d, w₃, hw₃, rfl⟩, rfl⟩, rfl⟩, rfl⟩, rfl⟩,
      rfl⟩ := hw
    obtain ⟨test, htest⟩ := expressions_alike htest w₁ hw₁
    obtain ⟨consequent, hconsequent⟩ := ih hw₂
    obtain ⟨alternate, halternate⟩ := ih' hw₃
    exact ⟨_, .ifElse htest hconsequent halternate⟩
  | «while» htest _ ih =>
    simp only [alike_cons, alike_append] at hw
    obtain ⟨a, _, ⟨b, _, ⟨w₁, _, hw₁, ⟨c, w₂, hw₂, rfl⟩, rfl⟩, rfl⟩, rfl⟩ := hw
    obtain ⟨test, htest⟩ := expressions_alike htest w₁ hw₁
    obtain ⟨body, hbody⟩ := ih hw₂
    exact ⟨_, .while htest hbody⟩
  | «for» hinitializer htest hupdate _ ih =>
    simp only [alike_cons, alike_append] at hw
    obtain ⟨a, _, ⟨b, _, ⟨w₁, _, hw₁, ⟨c, _, ⟨w₂, _, hw₂, ⟨d, _, ⟨w₃, _, hw₃, ⟨e, w₄, hw₄, rfl⟩,
      rfl⟩, rfl⟩, rfl⟩, rfl⟩, rfl⟩, rfl⟩, rfl⟩ := hw
    obtain ⟨initializer, hinitializer⟩ := forInitializer_alike hinitializer hw₁
    obtain ⟨test, htest⟩ := forPart_alike htest hw₂
    obtain ⟨update, hupdate⟩ := forPart_alike hupdate hw₃
    obtain ⟨body, hbody⟩ := ih hw₄
    exact ⟨_, .for hinitializer htest hupdate hbody⟩
  | block _ ih =>
    simp only [alike_cons, alike_append, alike_nil] at hw
    obtain ⟨a, _, ⟨w₁, _, hw₁, ⟨b, _, rfl, rfl⟩, rfl⟩, rfl⟩ := hw
    obtain ⟨body, hbody⟩ := ih hw₁
    exact ⟨_, .block hbody⟩
  | empty =>
    obtain ⟨a, w₁, hnil, rfl⟩ := alike_cons.mp hw
    rw [alike_nil.mp hnil]
    exact ⟨_, .empty⟩
  | expression hvalue hbrace hsemi =>
    obtain ⟨w₁, semi, hw₁, hw₂, rfl⟩ := alike_append.mp hw
    obtain ⟨value, hvalue⟩ := expressions_alike hvalue w₁ hw₁
    rw [← hw₂.follow] at hvalue
    exact ⟨_, .expression hvalue (hw₁.kindOf ▸ hbrace) (semicolon_alike hsemi hw₂)⟩
  | nil =>
    rw [alike_nil.mp hw]
    exact ⟨[], .nil⟩
  | cons _ _ ih ih' =>
    obtain ⟨w₁, w₂, hw₁, hw₂, rfl⟩ := alike_append.mp hw
    obtain ⟨statement, hstatement⟩ := ih hw₁
    obtain ⟨body, hbody⟩ := ih' hw₂
    rw [← hw₂.follow] at hstatement
    exact ⟨statement :: body, .cons hstatement hbody⟩

theorem alike_body {w w' : List Token} {body body' : List Statement} (hw : Alike w w')
    (h : Statements (.statements none) w none body)
    (h' : Statements (.statements none) w' none body') :
    relocateStatements erase body = relocateStatements erase body' := by
  have htokens : w.map (Token.relocate erase) = w'.map (Token.relocate erase) := by
    have hblank : Token.relocate erase = (fun kind => ⟨kind, ⟨origin, origin⟩⟩) ∘ Token.kind := rfl
    rw [hblank, ← List.map_map, ← List.map_map, hw]
  have hbody := (parseProgram_iff _ _).mpr (statements_relocate (φ := erase) h)
  have hbody' := (parseProgram_iff _ _).mpr (statements_relocate (φ := erase) h')
  rw [htokens] at hbody
  exact hbody.2.symm.trans hbody'.2

section Sources

variable {source source' : String} {tokens tokens' : List Token}

theorem parseSource_iff (hlex : lex source = .ok tokens) (body : List Statement) :
    ((parseSource source).diagnostics = [] ∧ (parseSource source).program.body = body) ↔
      Statements (.statements none) tokens none body := by
  rw [parseSource, hlex]
  exact parseProgram_iff tokens body

theorem parseSource_alike (hlex : lex source = .ok tokens) (hlex' : lex source' = .ok tokens')
    (halike : Alike tokens tokens') (hclean : (parseSource source).diagnostics = []) :
    (parseSource source').diagnostics = [] ∧
      relocateStatements erase (parseSource source).program.body =
        relocateStatements erase (parseSource source').program.body := by
  have hbody := (parseSource_iff hlex _).mp ⟨hclean, rfl⟩
  obtain ⟨body', hbody'⟩ := statements_alike hbody halike
  obtain ⟨hclean', hparsed⟩ := (parseSource_iff hlex' body').mpr hbody'
  refine ⟨hclean', ?_⟩
  rw [hparsed]
  exact alike_body halike hbody hbody'

theorem analyzeSource_erase (order order' : IterationOrder)
    (hclean : (parseSource source).diagnostics = []) :
    (analyzeSource order source).diagnostics = [] ↔
      (analyzeProgram order' ⟨relocateStatements erase (parseSource source).program.body, none⟩
        Analyzer.new).diagnostics = [] := by
  have hrelocated := analyzeProgram_relocate erase order order'
    (parseSource source).program.body (parseSource source).program.span none Analyzer.new rfl
  unfold analyzeSource
  dsimp only
  rw [hclean]
  exact hrelocated

theorem analyzeSource_alike {order : IterationOrder} (order' : IterationOrder)
    (hlex : lex source = .ok tokens) (hlex' : lex source' = .ok tokens')
    (halike : Alike tokens tokens') (hquiet : (analyzeSource order source).diagnostics = []) :
    (analyzeSource order' source').diagnostics = [] := by
  have hclean := parseSource_quiet order hquiet
  obtain ⟨hclean', hbody⟩ := parseSource_alike hlex hlex' halike hclean
  rw [analyzeSource_erase order order' hclean, hbody] at hquiet
  exact (analyzeSource_erase order' order' hclean').mpr hquiet

def kindsOf (source : String) : Option (List TokenKind) :=
  match lex source with
  | .ok tokens => some (tokens.map Token.kind)
  | .error _ => none

theorem lex_alike {order : IterationOrder} {prepared : PreparedModule}
    (h : PreparedModule.fromSource order source = .ok prepared)
    (hkinds : kindsOf source = kindsOf source') :
    ∃ tokens tokens', lex source = .ok tokens ∧ lex source' = .ok tokens' ∧
      Alike tokens tokens' := by
  have hclean := parseSource_quiet order (fromSource_eq_ok h).1
  unfold parseSource at hclean
  unfold kindsOf at hkinds
  cases hlex : lex source with
  | error error =>
    rw [hlex] at hclean
    cases hclean
  | ok tokens =>
    rw [hlex] at hkinds
    cases hlex' : lex source' with
    | error error =>
      rw [hlex'] at hkinds
      cases hkinds
    | ok tokens' =>
      rw [hlex'] at hkinds
      exact ⟨tokens, tokens', rfl, rfl, Option.some_inj.mp hkinds⟩

/-- A text with tokens of the same kinds is prepared as well. -/
theorem fromSource_alike {order : IterationOrder} (order' : IterationOrder)
    (hlex : lex source = .ok tokens) (hlex' : lex source' = .ok tokens')
    (halike : Alike tokens tokens')
    (hsize : irSize (lowerProgram (parseSource source).program) < 2 ^ 32)
    {prepared : PreparedModule} (h : PreparedModule.fromSource order source = .ok prepared) :
    ∃ prepared', PreparedModule.fromSource order' source' = .ok prepared' := by
  obtain ⟨hquiet, hmodule⟩ := fromSource_eq_ok h
  obtain ⟨_, hbody⟩ := parseSource_alike hlex hlex' halike (parseSource_quiet order hquiet)
  have hquiet' := analyzeSource_alike order' hlex hlex' halike hquiet
  have hsize' : irSize (lowerProgram (parseSource source').program) < 2 ^ 32 := by
    rw [← irSize_same hbody]
    exact hsize
  have haccepted := prepared.accepted
  rw [hmodule, compile_accepted_iff _ hsize, verifiable_same hbody] at haccepted
  exact fromSource_of_accepted order' (List.isEmpty_iff.mpr hquiet')
    ((compile_accepted_iff _ hsize').mpr haccepted)

end Sources

section Meaning

variable {ν : Type} [F64 ν]

/-- What can be done with one module can be done with the other, with the same machine at
    the end. -/
structure Interchangeable (prepared prepared' : PreparedModule) (host : HostEnvironment ν) :
    Prop where
  calls : ∀ name args, SameEnds .outOfFuel
    (fun fuel => Interpreter.callFunction prepared.module host fuel name args)
    fun fuel => Interpreter.callFunction prepared'.module host fuel name args
  callsFromHost : ∀ name (args : List (InteropValue ν)) (result : Except Stop (InteropValue ν)),
    result ≠ .error .outOfFuel →
      ((∃ fuel, prepared.callFunction host fuel name args = result) ↔
        ∃ fuel, prepared'.callFunction host fuel name args = result)
  runs : ∀ result : Except Stop (ExecutionOutput ν), result ≠ .error .outOfFuel →
    ((∃ fuel, prepared.executeWithHost host fuel = result) ↔
      ∃ fuel, prepared'.executeWithHost host fuel = result)

/-- Modules whose calls end as those of one program. -/
theorem Interchangeable.of_matches {program program' : Program}
    {prepared prepared' : PreparedModule} {host : HostEnvironment ν} (h : Matches ν program prepared.module)
    (h' : Matches ν program' prepared'.module)
    (hprogram : ∀ fuel, evaluateCall program host fuel = evaluateCall program' host fuel) :
    Interchangeable prepared prepared' host := by
  have hcalls (name : String) (args : List (RuntimeValue ν)) : SameEnds .outOfFuel
      (fun fuel => Interpreter.callFunction prepared.module host fuel name args)
      fun fuel => Interpreter.callFunction prepared'.module host fuel name args := by
    intro s result hresult
    rw [calls_sameEnds h name args s result hresult]
    simp only [hprogram]
    exact (calls_sameEnds h' name args s result hresult).symm
  refine ⟨hcalls, fun name args result hresult => ?_, fun result hresult => ?_⟩
  · exact ((hcalls name _).bind returnToHost).result _ hresult
  · exact ((hcalls "__entry" []).bind finishRun).result .new hresult

/-- What stands between the tokens of a source does not decide whether it is prepared, nor
    what it does. -/
theorem fromSource_layout (order order' : IterationOrder) {source source' : String}
    (hkinds : kindsOf source = kindsOf source')
    (hsize : irSize (lowerProgram (parseSource source).program) < 2 ^ 32) :
    ((∃ prepared, PreparedModule.fromSource order source = .ok prepared) ↔
      ∃ prepared, PreparedModule.fromSource order' source' = .ok prepared) ∧
    ∀ prepared prepared', PreparedModule.fromSource order source = .ok prepared →
      PreparedModule.fromSource order' source' = .ok prepared' →
      ∀ host : HostEnvironment ν, Interchangeable prepared prepared' host := by
  have hsizes (hbody : relocateStatements erase (parseSource source).program.body =
      relocateStatements erase (parseSource source').program.body) :
      irSize (lowerProgram (parseSource source').program) < 2 ^ 32 := by
    rw [← irSize_same hbody]
    exact hsize
  constructor
  · constructor
    · rintro ⟨prepared, h⟩
      obtain ⟨tokens, tokens', hlex, hlex', halike⟩ := lex_alike h hkinds
      exact fromSource_alike order' hlex hlex' halike hsize h
    · rintro ⟨prepared, h⟩
      obtain ⟨tokens', tokens, hlex', hlex, halike⟩ := lex_alike h hkinds.symm
      obtain ⟨_, hbody⟩ := parseSource_alike hlex' hlex halike
        (parseSource_quiet order' (fromSource_eq_ok h).1)
      exact fromSource_alike order hlex' hlex halike (hsizes hbody.symm) h
  · intro prepared prepared' h h' host
    obtain ⟨tokens, tokens', hlex, hlex', halike⟩ := lex_alike h hkinds
    obtain ⟨_, hbody⟩ := parseSource_alike hlex hlex' halike
      (parseSource_quiet order (fromSource_eq_ok h).1)
    refine .of_matches (fromSource_matches order source h hsize)
      (fromSource_matches order' source' h' (hsizes hbody)) fun fuel => ?_
    rw [relocateStatements_eq_map, relocateStatements_eq_map] at hbody
    exact LinkedPrograms.evaluateCall_same hbody fuel

end Meaning

/-- The same tokens, with another layout, a comment and other quotes. -/
theorem greetingSource_layout :
    let source := "function f(n:number):number{return n*2;}let x=f(4);console.log('x',x);"
    let source' := "function f(n: number): number { return n * 2; }\n// twice\nlet x = f(4);
console.log(\"x\" /* name */, x);"
    ∃ prepared prepared', PreparedModule.fromSource .listed source = .ok prepared ∧
      PreparedModule.fromSource .listed source' = .ok prepared' ∧
      Interchangeable prepared prepared' (.new : HostEnvironment Int) := by
  intro source source'
  have hcomputed : (analyzeSource .listed source).diagnostics.isEmpty = true ∧
      SourceChecks.Verifiable (parseSource source).program = true ∧
      irSize (lowerProgram (parseSource source).program) < 2 ^ 32 ∧
      kindsOf source = kindsOf source' := by decide +kernel
  obtain ⟨hquiet, hverifiable, hsize, hkinds⟩ := hcomputed
  obtain ⟨prepared, h⟩ := fromSource_of_accepted .listed hquiet
    ((compile_accepted_iff _ hsize).mpr hverifiable)
  have hlayout := fromSource_layout (ν := Int) .listed .listed hkinds hsize
  obtain ⟨prepared', h'⟩ := hlayout.1.mp ⟨prepared, h⟩
  exact ⟨prepared, prepared', h, h', hlayout.2 prepared prepared' h h' .new⟩

end Tsvm.Layouts
