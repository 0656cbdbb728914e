import Tsvm.PrintedExpressions

set_option autoImplicit false

/-!
# Printed statements

The grammar reads the tokens of a printed statement as what was printed when every
`for` in it has an initializer.
-/
namespace Tsvm.Printing
open Ast Lexing Parsing Grammar

theorem endsExpression_semicolon : EndsExpression (some .semicolon) :=
  ⟨fun h => (nomatch h), fun h => (nomatch h), rfl, rfl⟩

theorem optionalType_printed (ty : Option TypeNode) {w : List Token}
    (h : kinds w = optionalTypeKinds ty) :
    ∃ v, v.map (TypeNode.relocate nowhere) = ty.map (TypeNode.relocate nowhere) ∧
      ∀ next, next ≠ some .colon → next ≠ some .leftBracket → OptionalType w next v := by
  cases ty with
  | none =>
    rw [kinds_nil h]
    exact ⟨none, rfl, fun next hcolon _ => .absent hcolon⟩
  | some ty =>
    obtain ⟨a, w', rfl, hty⟩ := kinds_cons h
    obtain ⟨v, hv, hread⟩ := (type_printed ty hty).type
    refine ⟨some v, ?_, fun next _ hbracket => .present (hread next hbracket)⟩
    rw [Option.map_some, Option.map_some, hv]

theorem optionalInitializer_printed (initializer : Option Expression)
    (hcomplete : completeOption initializer = true) {w : List Token}
    (h : kinds w = optionalInitializerKinds initializer) :
    ∃ v, v.map (Expression.relocate nowhere) = initializer.map (Expression.relocate nowhere) ∧
      OptionalInitializer w (some .semicolon) v := by
  cases initializer with
  | none =>
    rw [kinds_nil h]
    exact ⟨none, rfl, .absent fun heq => nomatch heq⟩
  | some value =>
    obtain ⟨a, w', rfl, hvalue⟩ := kinds_cons h
    obtain ⟨v, hread⟩ := expression_printed value hcomplete hvalue
    refine ⟨some v, ?_, .present (hread.expression _ endsExpression_semicolon)⟩
    rw [Option.map_some, Option.map_some, hread.same]

theorem initializer_follow {initializer : Option Expression} {w : List Token}
    (h : kinds w = optionalInitializerKinds initializer) :
    follow w (some .semicolon) ≠ some .colon ∧ follow w (some .semicolon) ≠ some .leftBracket := by
  cases initializer with
  | none =>
    rw [kinds_nil h]
    exact ⟨fun heq => (nomatch heq), fun heq => (nomatch heq)⟩
  | some value =>
    obtain ⟨a, w', rfl, _⟩ := kinds_cons h
    rw [follow_cons]
    exact ⟨fun heq => (nomatch heq), fun heq => (nomatch heq)⟩

theorem variableKeyword_kind (kind : VariableKind) : variableKind (variableKeyword kind) = kind := by
  cases kind <;> rfl

theorem variable_printed (declaration : VariableDeclaration)
    (hcomplete : completeOption declaration.initializer = true) {w : List Token}
    (h : kinds w = variableKinds declaration) :
    ∃ (token : Token) (w' : List Token) (v : VariableDeclaration), w = token :: w' ∧
      v.relocate nowhere = declaration.relocate nowhere ∧
      VariableTokens (token :: w') (some .semicolon) v := by
  obtain ⟨kind, name, ty, initializer⟩ := declaration
  obtain ⟨a, w₁, rfl, hrest⟩ := kinds_cons h
  obtain ⟨b, w₂, rfl, hparts⟩ := kinds_cons hrest
  obtain ⟨w₃, w₄, rfl, hty, hinitializer⟩ := kinds_append hparts
  obtain ⟨v, hv, htype⟩ := optionalType_printed ty hty
  obtain ⟨value, hvalue, hread⟩ := optionalInitializer_printed initializer hcomplete hinitializer
  obtain ⟨hcolon, hbracket⟩ := initializer_follow hinitializer
  have hkeyword : isVariableKeyword (some (variableKeyword kind)) = true := by
    cases kind <;> rfl
  refine ⟨_, _, _, rfl, ?_, .mk hkeyword (htype _ hcolon hbracket) hread⟩
  rw [variableKeyword_kind, VariableDeclaration.relocate, VariableDeclaration.relocate, hv, hvalue]

section Lists

variable {α : Type} {close : TokenKind} {T : List Token → Next → Option α × Bool → Prop}
  {f : α → List TokenKind} {g : α → α}

/-- Items between commas are read when every item is, with a comma behind it and as the last one. -/
theorem separated_printed (hitem : ∀ item w, kinds w = f item → ∃ v, g v = g item ∧ w ≠ [] ∧
      kindOf w ≠ some close ∧ T w (some close) (some v, false) ∧
      ∀ a next, T (w ++ [⟨.comma, a⟩]) next (some v, true))
    (items : List α) {w : List Token} (h : kinds w = separated (items.map f)) :
    ∃ v, v.map g = items.map g ∧ Listed close T w (some close) v := by
  induction items generalizing w with
  | nil =>
    rw [kinds_nil h]
    exact ⟨[], rfl, .nil⟩
  | cons item items ih =>
    cases items with
    | nil =>
      obtain ⟨v, hv, hne, hclose, hlast, _⟩ := hitem item w h
      refine ⟨[v], ?_, .stop hne hclose hlast⟩
      rw [List.map_cons, List.map_cons, hv, List.map_nil]
    | cons second items =>
      obtain ⟨w₁, w₂, rfl, hfirst, hrest⟩ := kinds_append h
      obtain ⟨a, w₃, rfl, hlist⟩ := kinds_cons hrest
      obtain ⟨v, hv, hne, hclose, _, hmore⟩ := hitem item w₁ hfirst
      obtain ⟨rest, hsame, hlisted⟩ := ih hlist
      have hkind : kindOf (w₁ ++ [⟨.comma, a⟩]) ≠ some close := by
        obtain ⟨token, w', rfl⟩ := List.exists_cons_of_ne_nil hne
        exact hclose
      have hread := Listed.more (List.append_ne_nil_of_left_ne_nil hne _) hkind (hmore a _) hlisted
      rw [List.append_assoc] at hread
      refine ⟨v :: rest, ?_, hread⟩
      rw [List.map_cons, List.map_cons, hv, hsame]

end Lists

theorem names_printed (names : List String) {w : List Token}
    (h : kinds w = separated (names.map fun name => [.identifier name])) :
    Listed .rightBrace ImportTokens w (some .rightBrace) names := by
  have hitem : ∀ (name : String) w, kinds w = [.identifier name] → ∃ v, id v = id name ∧ w ≠ [] ∧
      kindOf w ≠ some .rightBrace ∧ ImportTokens w (some .rightBrace) (some v, false) ∧
      ∀ a next, ImportTokens (w ++ [⟨.comma, a⟩]) next (some v, true) := by
    intro name w hw
    obtain ⟨a, rfl⟩ := kinds_single hw
    exact ⟨name, rfl, List.cons_ne_nil _ _, fun heq => (nomatch heq),
      .last fun heq => (nomatch heq), fun b next => .more⟩
  obtain ⟨v, hv, hlisted⟩ := separated_printed hitem names h
  rw [List.map_id, List.map_id] at hv
  rw [← hv]
  exact hlisted

theorem parameters_printed (params : List Parameter) {w : List Token}
    (h : kinds w = separated (params.map parameterKinds)) :
    ∃ v, v.map (Parameter.relocate nowhere) = params.map (Parameter.relocate nowhere) ∧
      Listed .rightParen ParameterTokens w (some .rightParen) v := by
  refine separated_printed (fun param w hw => ?_) params h
  obtain ⟨name, ty, span⟩ := param
  obtain ⟨a, w', rfl, hty⟩ := kinds_cons hw
  obtain ⟨v, hv, hread⟩ := optionalType_printed ty hty
  refine ⟨⟨name, v, ⟨a.start, lastEnd w' a.end⟩⟩, ?_, List.cons_ne_nil _ _, fun heq => (nomatch heq),
    .last (hread _ (fun heq => (nomatch heq)) fun heq => (nomatch heq)) fun heq => (nomatch heq),
    fun b next => .more (hread _ (fun heq => (nomatch heq)) fun heq => (nomatch heq))⟩
  rw [Parameter.relocate, Parameter.relocate, hv]
  rfl

theorem classMembers_printed (members : List ClassMember)
    (hcomplete : (members.all fun member => completeOption member.initializer) = true)
    {w : List Token} (h : kinds w = classMembersKinds members) :
    ∃ v, v.map (ClassMember.relocate nowhere) = members.map (ClassMember.relocate nowhere) ∧
      Listed .rightBrace ClassMemberTokens w (some .rightBrace) v := by
  induction members generalizing w with
  | nil =>
    rw [kinds_nil h]
    exact ⟨[], rfl, .nil⟩
  | cons member members ih =>
    obtain ⟨name, ty, initializer, span⟩ := member
    rw [List.all_cons, Bool.and_eq_true_iff] at hcomplete
    obtain ⟨x, rest, rfl, hmember, hmembers⟩ := kinds_append h
    obtain ⟨a, w₁, rfl, hparts⟩ := kinds_cons hmember
    obtain ⟨w₂, w₃, rfl, hty, hrest⟩ := kinds_append hparts
    obtain ⟨w₄, w₅, rfl, hinitializer, hsemi⟩ := kinds_append hrest
    obtain ⟨b, rfl⟩ := kinds_single hsemi
    obtain ⟨v, hv, htype⟩ := optionalType_printed ty hty
    obtain ⟨value, hvalue, hread⟩ := optionalInitializer_printed initializer hcomplete.1 hinitializer
    obtain ⟨hcolon, hbracket⟩ := initializer_follow hinitializer
    obtain ⟨vs, hsame, hlisted⟩ := ih hcomplete.2 hmembers
    have hT : ClassMemberTokens (⟨.identifier name, a⟩ :: (w₂ ++ (w₄ ++ [⟨.semicolon, b⟩])))
        (follow rest (some .rightBrace)) (some ⟨name, v, value, ⟨a.start, b.end⟩⟩, true) :=
      .mk (htype _ hcolon hbracket) hread (.present b _)
    have hkind : kindOf (⟨.identifier name, a⟩ :: (w₂ ++ (w₄ ++ [⟨.semicolon, b⟩]))) ≠
        some .rightBrace := by
      rw [kindOf_cons]
      exact fun heq => nomatch heq
    refine ⟨_ :: vs, ?_, .more (List.cons_ne_nil _ _) hkind hT hlisted⟩
    rw [List.map_cons, List.map_cons, hsame, ClassMember.relocate, ClassMember.relocate, hv, hvalue]
    rfl

theorem forPart_printed (part : Option Expression) (hcomplete : completeOption part = true)
    {close : TokenKind} (hclose : EndsExpression (some close)) {w : List Token}
    (h : kinds w = optionalKinds part) :
    ∃ v, v.map (Expression.relocate nowhere) = part.map (Expression.relocate nowhere) ∧
      ForPart close w v := by
  cases part with
  | none =>
    rw [kinds_nil h]
    exact ⟨none, rfl, .absent⟩
  | some value =>
    obtain ⟨v, hread⟩ := expression_printed value hcomplete h
    refine ⟨some v, ?_, .present (hread.expression _ hclose)⟩
    rw [Option.map_some, Option.map_some, hread.same]

theorem forInitializer_printed (initializer : Statement)
    (hcomplete : completeInitializer (some initializer) = true) {w : List Token}
    (h : kinds w = initializerKinds (some initializer)) :
    ∃ v : Statement, v.relocate nowhere = initializer.relocate nowhere ∧
      ForInitializer w (some .semicolon) (some v) := by
  cases initializer with
  | «variable» declaration span =>
    obtain ⟨token, w', v, rfl, hv, hread⟩ := variable_printed declaration hcomplete h
    refine ⟨_, ?_, .declaration hread⟩
    rw [Statement.relocate, Statement.relocate, hv]
    rfl
  | expression value span =>
    obtain ⟨v, hread⟩ := expression_printed value hcomplete h
    refine ⟨_, ?_, .expression (hread.expression _ endsExpression_semicolon)⟩
    rw [Statement.relocate, Statement.relocate, hread.same]
    rfl
  | _ => exact nomatch hcomplete

theorem statement_ne_else {c : StatementForm} {w : List Token} {next : Next} {v : c.Value}
    (h : Statements c w next v) (hc : c = .statement) : kindOf w ≠ some .else := by
  cases h with
  | @«variable» token w semi next declaration hvariable =>
    cases hvariable with
    | @mk kind _ _ _ _ _ _ _ _ hkind =>
      intro heq
      rw [kindOf_cons] at heq
      rw [heq] at hkind
      exact nomatch hkind
  | @expression w semi next value hvalue =>
    have hfirst : kindOf w ≠ some .else := kindOf_ne_of_starts hvalue rfl
    obtain ⟨token, w', rfl, _⟩ := expression_starts hvalue
    exact hfirst
  | nil | cons => exact nomatch hc
  | _ => exact fun heq => nomatch heq

theorem statements_follow {stop : Next} {w : List Token} {body : List Statement}
    (h : Statements (.statements stop) w stop body) (hstop : stop ≠ some .else) :
    follow w stop ≠ some .else := by
  cases h with
  | nil => exact hstop
  | @cons stop w w' next statement body hstatement _ =>
    have hkind := statement_ne_else hstatement rfl
    obtain ⟨token, x, rfl⟩ := List.exists_cons_of_ne_nil (statement_first hstatement rfl).1
    exact hkind

/-- What the tokens of a statement are read as; behind an open `if` there is no `else`. -/
def StatementRead (statement : Statement) (w : List Token) : Prop :=
  ∃ v : Statement, v.relocate nowhere = statement.relocate nowhere ∧
    ∀ next, (opensElse statement = true → next ≠ some .else) → Statements .statement w next v

def StatementsRead (body : List Statement) (w : List Token) : Prop :=
  ∃ v, relocateStatements nowhere v = relocateStatements nowhere body ∧
    ∀ stop, stop ≠ some .else → Statements (.statements stop) w stop v

/-- The expression of a statement does not start with a brace. -/
theorem statementExpression_printed (value : Expression) (hcomplete : complete value = true)
    {w : List Token} (h : kinds w = statementExpressionKinds value) :
    ∃ v : Expression, v.relocate nowhere = value.relocate nowhere ∧ kindOf w ≠ some .leftBrace ∧
      ∀ next, EndsExpression next → Expressions .expression w next v := by
  rw [statementExpressionKinds] at h
  by_cases hbrace : (expressionKinds value).head? = some .leftBrace
  · rw [if_pos hbrace] at h
    obtain ⟨a, w₁, rfl, hrest⟩ := kinds_cons h
    obtain ⟨w₂, w₃, rfl, hvalue, hparen⟩ := kinds_append hrest
    obtain ⟨b, rfl⟩ := kinds_single hparen
    obtain ⟨v, hread⟩ := expression_printed value hcomplete hvalue
    have hgroup := operand_group (a := a) (b := b) (hread.expression _ endsExpression_rightParen)
    exact ⟨v, hread.same, fun heq => (nomatch heq), fun next hnext => hgroup.expression hnext⟩
  · rw [if_neg hbrace] at h
    obtain ⟨v, hread⟩ := expression_printed value hcomplete h
    refine ⟨v, hread.same, ?_, hread.expression⟩
    rw [kindOf_eq_head, h]
    exact hbrace

mutual

theorem statement_printed (statement : Statement) (hcomplete : completeStatement statement = true)
    (hundangling : undangling statement = true) (hinitialized : initialized statement = true)
    {w : List Token} (h : kinds w = statementKinds statement) : StatementRead statement w := by
  cases statement with
  | «import» declaration span =>
    obtain ⟨names, source⟩ := declaration
    obtain ⟨a, w₁, rfl, h₁⟩ := kinds_cons h
    obtain ⟨b, w₂, rfl, h₂⟩ := kinds_cons h₁
    obtain ⟨w₃, w₄, rfl, hnames, h₃⟩ := kinds_append h₂
    obtain ⟨c, w₅, rfl, h₄⟩ := kinds_cons h₃
    obtain ⟨d, w₆, rfl, h₅⟩ := kinds_cons h₄
    obtain ⟨e, w₇, rfl, hsemi⟩ := kinds_cons h₅
    obtain ⟨f, rfl⟩ := kinds_single hsemi
    exact ⟨.import ⟨names, source⟩ ⟨a.start, f.end⟩, rfl,
      fun next _ => .imports (names_printed names hnames) (.present f next)⟩
  | «export» inner span =>
    obtain ⟨a, w', rfl, hinner⟩ := kinds_cons h
    obtain ⟨v, hv, hread⟩ := statement_printed inner hcomplete hundangling hinitialized hinner
    refine ⟨_, ?_, fun next hnext => .export (hread next hnext)⟩
    rw [Statement.relocate, Statement.relocate, hv]
    rfl
  | interface declaration span =>
    obtain ⟨name, members⟩ := declaration
    obtain ⟨a, w₁, rfl, h₁⟩ := kinds_cons h
    obtain ⟨b, w₂, rfl, h₂⟩ := kinds_cons h₁
    obtain ⟨c, w₃, rfl, h₃⟩ := kinds_cons h₂
    obtain ⟨w₄, w₅, rfl, hmembers, hbrace⟩ := kinds_append h₃
    obtain ⟨d, rfl⟩ := kinds_single hbrace
    obtain ⟨v, hv, hread⟩ := members_printed members hmembers
    refine ⟨_, ?_, fun next _ => .interface hread⟩
    rw [Statement.relocate, Statement.relocate, hv]
    rfl
  | typeAlias declaration span =>
    obtain ⟨name, ty⟩ := declaration
    obtain ⟨a, w₁, rfl, h₁⟩ := kinds_cons h
    obtain ⟨b, w₂, rfl, h₂⟩ := kinds_cons h₁
    obtain ⟨c, w₃, rfl, h₃⟩ := kinds_cons h₂
    obtain ⟨w₄, w₅, rfl, hty, hsemi⟩ := kinds_append h₃
    obtain ⟨d, rfl⟩ := kinds_single hsemi
    obtain ⟨v, hv, hread⟩ := (type_printed ty hty).type
    refine ⟨_, ?_, fun next _ => .typeAlias (hread _ fun heq => nomatch heq) (.present d next)⟩
    rw [Statement.relocate, Statement.relocate, hv]
    rfl
  | «class» declaration span =>
    obtain ⟨name, members⟩ := declaration
    obtain ⟨a, w₁, rfl, h₁⟩ := kinds_cons h
    obtain ⟨b, w₂, rfl, h₂⟩ := kinds_cons h₁
    obtain ⟨c, w₃, rfl, h₃⟩ := kinds_cons h₂
    obtain ⟨w₄, w₅, rfl, hmembers, hbrace⟩ := kinds_append h₃
    obtain ⟨d, rfl⟩ := kinds_single hbrace
    obtain ⟨v, hv, hread⟩ := classMembers_printed members hcomplete hmembers
    refine ⟨_, ?_, fun next _ => .class hread⟩
    rw [Statement.relocate, Statement.relocate, hv]
    rfl
  | function declaration span =>
    obtain ⟨name, params, returnType, body⟩ := declaration
    obtain ⟨a, w₁, rfl, h₁⟩ := kinds_cons h
    obtain ⟨b, w₂, rfl, h₂⟩ := kinds_cons h₁
    obtain ⟨c, w₃, rfl, h₃⟩ := kinds_cons h₂
    obtain ⟨w₄, w₅, rfl, hparams, h₄⟩ := kinds_append h₃
    obtain ⟨d, w₆, rfl, h₅⟩ := kinds_cons h₄
    obtain ⟨w₇, w₈, rfl, hty, h₆⟩ := kinds_append h₅
    obtain ⟨e, w₉, rfl, h₇⟩ := kinds_cons h₆
    obtain ⟨x, y, rfl, hbody, hbrace⟩ := kinds_append h₇
    obtain ⟨f, rfl⟩ := kinds_single hbrace
    obtain ⟨v, hv, hparameters⟩ := parameters_printed params hparams
    obtain ⟨ty, hsame, hreturn⟩ := optionalType_printed returnType hty
    obtain ⟨vs, hvs, hread⟩ := statements_printed body hcomplete hundangling hinitialized hbody
    refine ⟨_, ?_, fun next _ => .function hparameters (hreturn _ (fun heq => (nomatch heq))
      fun heq => (nomatch heq)) (hread _ fun heq => (nomatch heq))⟩
    rw [Statement.relocate, Statement.relocate, hv, hsame, hvs]
    rfl
  | «variable» declaration span =>
    obtain ⟨w₁, w₂, rfl, hvariable, hsemi⟩ := kinds_append h
    obtain ⟨a, rfl⟩ := kinds_single hsemi
    obtain ⟨token, w', v, rfl, hv, hread⟩ := variable_printed declaration hcomplete hvariable
    refine ⟨_, ?_, fun next _ => .variable hread (.present a next)⟩
    rw [Statement.relocate, Statement.relocate, hv]
    rfl
  | «return» value span =>
    obtain ⟨a, w₁, rfl, h₁⟩ := kinds_cons h
    obtain ⟨w₂, w₃, rfl, hvalue, hsemi⟩ := kinds_append h₁
    obtain ⟨b, rfl⟩ := kinds_single hsemi
    cases value with
    | none =>
      rw [kinds_nil hvalue]
      exact ⟨.return none ⟨a.start, b.end⟩, rfl,
        fun next _ => .returnNothing (.present b next) (.inl rfl)⟩
    | some value =>
      obtain ⟨v, hread⟩ := expression_printed value hcomplete hvalue
      refine ⟨_, ?_, fun next _ =>
        .return (hread.expression _ endsExpression_semicolon) (.present b next)⟩
      rw [Statement.relocate, Statement.relocate, Option.map_some, Option.map_some, hread.same]
      rfl
  | throw value span =>
    obtain ⟨a, w₁, rfl, h₁⟩ := kinds_cons h
    obtain ⟨w₂, w₃, rfl, hvalue, hsemi⟩ := kinds_append h₁
    obtain ⟨b, rfl⟩ := kinds_single hsemi
    obtain ⟨v, hread⟩ := expression_printed value hcomplete hvalue
    refine ⟨_, ?_, fun next _ =>
      .throw (hread.expression _ endsExpression_semicolon) (.present b next)⟩
    rw [Statement.relocate, Statement.relocate, hread.same]
    rfl
  | «if» test consequent alternate span =>
    obtain ⟨hcomplete, hcomplete'⟩ := Bool.and_eq_true_iff.mp hcomplete
    obtain ⟨htest, hconsequent⟩ := Bool.and_eq_true_iff.mp hcomplete
    obtain ⟨hundangling, hundangling'⟩ := Bool.and_eq_true_iff.mp hundangling
    obtain ⟨hsealed, hundangling⟩ := Bool.and_eq_true_iff.mp hundangling
    obtain ⟨hinitialized, hinitialized'⟩ := Bool.and_eq_true_iff.mp hinitialized
    obtain ⟨a, w₁, rfl, h₁⟩ := kinds_cons h
    obtain ⟨b, w₂, rfl, h₂⟩ := kinds_cons h₁
    obtain ⟨w₃, w₄, rfl, hvalue, h₃⟩ := kinds_append h₂
    obtain ⟨c, w₅, rfl, h₄⟩ := kinds_cons h₃
    obtain ⟨w₆, w₇, rfl, hstatement, halternate⟩ := kinds_append h₄
    obtain ⟨v, hv⟩ := expression_printed test htest hvalue
    have hparen := hv.expression _ endsExpression_rightParen
    obtain ⟨v', hv', hread⟩ :=
      statement_printed consequent hconsequent hundangling hinitialized hstatement
    cases alternate with
    | none =>
      rw [kinds_nil halternate, List.append_nil]
      refine ⟨_, ?_, fun next hnext => .ifThen hparen (hread next fun _ => hnext rfl) (hnext rfl)⟩
      rw [Statement.relocate, Statement.relocate, hv.same, hv']
      rfl
    | some alternate =>
      obtain ⟨d, w₈, rfl, hlast⟩ := kinds_cons halternate
      obtain ⟨v'', hv'', hread'⟩ :=
        statement_printed alternate hcomplete' hundangling' hinitialized' hlast
      have hclosed : opensElse consequent = true → some TokenKind.else ≠ some .else := by
        intro hopens
        rw [hopens] at hsealed
        exact nomatch hsealed
      refine ⟨_, ?_, fun next hnext => .ifElse hparen (hread _ hclosed) (hread' next hnext)⟩
      rw [Statement.relocate, Statement.relocate, hv.same, hv', relocateOption, relocateOption, hv'']
      rfl
  | «while» test body span =>
    obtain ⟨htest, hbody⟩ := Bool.and_eq_true_iff.mp hcomplete
    obtain ⟨a, w₁, rfl, h₁⟩ := kinds_cons h
    obtain ⟨b, w₂, rfl, h₂⟩ := kinds_cons h₁
    obtain ⟨w₃, w₄, rfl, hvalue, h₃⟩ := kinds_append h₂
    obtain ⟨c, w₅, rfl, hstatement⟩ := kinds_cons h₃
    obtain ⟨v, hv⟩ := expression_printed test htest hvalue
    obtain ⟨v', hv', hread⟩ := statement_printed body hbody hundangling hinitialized hstatement
    refine ⟨_, ?_, fun next hnext =>
      .while (hv.expression _ endsExpression_rightParen) (hread next hnext)⟩
    rw [Statement.relocate, Statement.relocate, hv.same, hv']
    rfl
  | «for» initializer test update body span =>
    obtain ⟨hcomplete, hbody⟩ := Bool.and_eq_true_iff.mp hcomplete
    obtain ⟨hcomplete, hupdate⟩ := Bool.and_eq_true_iff.mp hcomplete
    obtain ⟨hinitializer, htest⟩ := Bool.and_eq_true_iff.mp hcomplete
    obtain ⟨hsome, hinitialized⟩ := Bool.and_eq_true_iff.mp hinitialized
    obtain ⟨initializer, rfl⟩ := Option.isSome_iff_exists.mp hsome
    obtain ⟨a, w₁, rfl, h₁⟩ := kinds_cons h
    obtain ⟨b, w₂, rfl, h₂⟩ := kinds_cons h₁
    obtain ⟨w₃, w₄, rfl, hfirst, h₃⟩ := kinds_append h₂
    obtain ⟨c, w₅, rfl, h₄⟩ := kinds_cons h₃
    obtain ⟨w₆, w₇, rfl, hsecond, h₅⟩ := kinds_append h₄
    obtain ⟨d, w₈, rfl, h₆⟩ := kinds_cons h₅
    obtain ⟨w₉, x, rfl, hthird, h₇⟩ := kinds_append h₆
    obtain ⟨e, y, rfl, hstatement⟩ := kinds_cons h₇
    obtain ⟨v, hv, hinit⟩ := forInitializer_printed initializer hinitializer hfirst
    obtain ⟨part, hpart, hread⟩ := forPart_printed test htest endsExpression_semicolon hsecond
    obtain ⟨part', hpart', hread'⟩ := forPart_printed update hupdate endsExpression_rightParen hthird
    obtain ⟨v', hv', hread''⟩ := statement_printed body hbody hundangling hinitialized hstatement
    refine ⟨_, ?_, fun next hnext => .for hinit hread hread' (hread'' next hnext)⟩
    rw [Statement.relocate, Statement.relocate, relocateOption, relocateOption, hv, hpart, hpart', hv']
    rfl
  | block body span =>
    obtain ⟨a, w₁, rfl, h₁⟩ := kinds_cons h
    obtain ⟨w₂, w₃, rfl, hbody, hbrace⟩ := kinds_append h₁
    obtain ⟨b, rfl⟩ := kinds_single hbrace
    obtain ⟨v, hv, hread⟩ := statements_printed body hcomplete hundangling hinitialized hbody
    refine ⟨_, ?_, fun next _ => .block (hread _ fun heq => nomatch heq)⟩
    rw [Statement.relocate, Statement.relocate, hv]
    rfl
  | expression value span =>
    obtain ⟨w₁, w₂, rfl, hvalue, hsemi⟩ := kinds_append h
    obtain ⟨a, rfl⟩ := kinds_single hsemi
    obtain ⟨v, hv, hkind, hread⟩ := statementExpression_printed value hcomplete hvalue
    refine ⟨_, ?_, fun next _ =>
      .expression (hread _ endsExpression_semicolon) hkind (.present a next)⟩
    rw [Statement.relocate, Statement.relocate, hv]
    rfl
  | empty span =>
    obtain ⟨a, rfl⟩ := kinds_single h
    exact ⟨.empty a, rfl, fun next _ => .empty⟩
  | error span => exact nomatch hcomplete

theorem statements_printed (body : List Statement) (hcomplete : completeStatements body = true)
    (hundangling : undanglingStatements body = true)
    (hinitialized : initializedStatements body = true) {w : List Token}
    (h : kinds w = statementsKinds body) : StatementsRead body w := by
  cases body with
  | nil =>
    rw [kinds_nil h]
    exact ⟨[], rfl, fun stop _ => .nil⟩
  | cons statement body =>
    obtain ⟨hcomplete, hcompletes⟩ := Bool.and_eq_true_iff.mp hcomplete
    obtain ⟨hundangling, hundanglings⟩ := Bool.and_eq_true_iff.mp hundangling
    obtain ⟨hinitialized, hinitializeds⟩ := Bool.and_eq_true_iff.mp hinitialized
    obtain ⟨w₁, w₂, rfl, hstatement, hbody⟩ := kinds_append h
    obtain ⟨v, hv, hread⟩ := statement_printed statement hcomplete hundangling hinitialized hstatement
    obtain ⟨vs, hvs, hreads⟩ := statements_printed body hcompletes hundanglings hinitializeds hbody
    refine ⟨v :: vs, ?_, fun stop hstop => ?_⟩
    · rw [relocateStatements, relocateStatements, hv, hvs]
    · exact .cons (hread _ fun _ => statements_follow (hreads stop hstop) hstop) (hreads stop hstop)

end

end Tsvm.Printing
