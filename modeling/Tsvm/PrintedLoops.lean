import Tsvm.PrintedStatements

set_option autoImplicit false

/-!
# Printed loops without an initializer

The parser wants a semicolon of its own for an initializer that is absent. No
statement is read from the tokens of such a loop, nor of anything around it.
-/
namespace Tsvm.Printing
open Ast Lexing Parsing Grammar

theorem reads_of_append (w r : List Token) :
    Parser.Reads ⟨w ++ r, 0, []⟩ w ⟨w ++ r, w.length, []⟩ ∧
      Parser.rest ⟨w ++ r, w.length, []⟩ = r := by
  have hrest : Parser.rest ⟨w ++ r, w.length, []⟩ = r := by
    rw [Parser.rest, List.drop_left]
  refine ⟨⟨?_, rfl, (Nat.zero_add _).symm, rfl⟩, hrest⟩
  rw [hrest]
  rfl

section Unique

variable {w r x z : List Token}

/-- Two readings of one text by the same parser end at the same token. -/
theorem unique_of_run {α : Type} {f : Parse α} {G : List Token → Next → α → Prop} {v v' : α}
    (hrun : ∀ {s t : Parser} {y : List Token} {u : α}, s.Reads y t → G y (kindOf t.rest) u →
      f s = (u, t))
    (h : w ++ r = x ++ z) (hw : G w (kindOf r) v) (hx : G x (kindOf z) v') : w = x ∧ r = z := by
  obtain ⟨hread, hrest⟩ := reads_of_append w r
  obtain ⟨hread', hrest'⟩ := reads_of_append x z
  rw [← hrest] at hw
  rw [← hrest'] at hx
  have hrun₁ := hrun hread hw
  have hrun₂ := hrun hread' hx
  rw [h] at hrun₁
  have hlength := congrArg Parser.cursor (Prod.mk.inj (hrun₁.symm.trans hrun₂)).2
  exact List.append_inj h hlength

theorem expression_unique {v v' : Expression} (h : w ++ r = x ++ z)
    (hw : Expressions .expression w (kindOf r) v) (hx : Expressions .expression x (kindOf z) v') :
    w = x ∧ r = z :=
  unique_of_run (fun hread hy => parseExpression_run hread hy) h hw hx

theorem statement_unique {v v' : Statement} (h : w ++ r = x ++ z)
    (hw : Statements .statement w (kindOf r) v) (hx : Statements .statement x (kindOf z) v') :
    w = x ∧ r = z :=
  unique_of_run (fun hread hy => parseStatement_run hread hy) h hw hx

theorem optionalType_unique {v v' : Option TypeNode} (h : w ++ r = x ++ z)
    (hw : OptionalType w (kindOf r) v) (hx : OptionalType x (kindOf z) v') : w = x ∧ r = z :=
  unique_of_run (fun hread hy => optionalType_run hread hy) h hw hx

theorem parameters_unique {v v' : List Parameter} (h : w ++ r = x ++ z)
    (hw : Listed .rightParen ParameterTokens w (kindOf r) v)
    (hx : Listed .rightParen ParameterTokens x (kindOf z) v') : w = x ∧ r = z :=
  unique_of_run (fun hread hy => listUntil_run_of_turns (fun _ _ _ _ => parameter_run) hread hy)
    h hw hx

theorem forInitializer_unique {v v' : Option Statement} (h : w ++ r = x ++ z)
    (hw : ForInitializer w (kindOf r) v) (hx : ForInitializer x (kindOf z) v') : w = x ∧ r = z :=
  unique_of_run (fun hread hy => forInitializer_run hread hy) h hw hx

theorem forPart_unique {close : TokenKind} {v v' : Option Expression} (h : w ++ r = x ++ z)
    (hstart : startsExpression close = false) (hr : kindOf r = some close)
    (hz : kindOf z = some close) (hw : ForPart close w v) (hx : ForPart close x v') :
    w = x ∧ r = z := by
  refine unique_of_run (f := forPart close)
    (G := fun y next u => next = some close ∧ ForPart close y u) ?_ h ⟨hr, hw⟩ ⟨hz, hx⟩
  rintro s t y u hread ⟨hclose, hpart⟩
  exact forPart_run hread hclose hstart hpart

end Unique

theorem printed_first {statement : Statement} (hcomplete : completeStatement statement = true)
    {w : List Token} (h : kinds w = statementKinds statement) :
    w ≠ [] ∧ kindOf w ≠ some .rightBrace ∧ kindOf w ≠ some .else := by
  have hplain : ∀ {kind rest}, kinds w = kind :: rest → kind ≠ .rightBrace → kind ≠ .else →
      w ≠ [] ∧ kindOf w ≠ some .rightBrace ∧ kindOf w ≠ some .else := by
    intro kind rest hw hbrace helse
    obtain ⟨a, w', rfl, _⟩ := kinds_cons hw
    exact ⟨List.cons_ne_nil _ _, fun heq => hbrace (Option.some_inj.mp heq),
      fun heq => helse (Option.some_inj.mp heq)⟩
  cases statement with
  | function declaration span =>
    exact hplain h (fun heq => by cases heq) fun heq => by cases heq
  | «variable» declaration span =>
    obtain ⟨kind, name, ty, initializer⟩ := declaration
    cases kind <;> exact hplain h (fun heq => by cases heq) fun heq => by cases heq
  | expression value span =>
    obtain ⟨w₁, w₂, rfl, hvalue, _⟩ := kinds_append h
    obtain ⟨v, _, _, hread⟩ := statementExpression_printed value hcomplete hvalue
    have hexpression := hread _ endsExpression_semicolon
    have hbrace : kindOf w₁ ≠ some .rightBrace := kindOf_ne_of_starts hexpression rfl
    have helse : kindOf w₁ ≠ some .else := kindOf_ne_of_starts hexpression rfl
    obtain ⟨token, w', rfl, _⟩ := expression_starts hexpression
    exact ⟨List.cons_ne_nil _ _, hbrace, helse⟩
  | error => cases hcomplete
  | _ => exact hplain h (fun heq => by cases heq) fun heq => by cases heq

theorem printed_follow {body : List Statement} (hcomplete : completeStatements body = true)
    {w : List Token} (h : kinds w = statementsKinds body) {stop : Next} (hstop : stop ≠ some .else) :
    follow w stop ≠ some .else := by
  cases body with
  | nil =>
    rw [kinds_nil h]
    exact hstop
  | cons statement body =>
    obtain ⟨w₁, w₂, rfl, hstatement, _⟩ := kinds_append h
    obtain ⟨hne, _, helse⟩ := printed_first (Bool.and_eq_true_iff.mp hcomplete).1 hstatement
    obtain ⟨token, w', rfl⟩ := List.exists_cons_of_ne_nil hne
    exact helse

theorem variable_first {token : Token} {w : List Token} {next : Next}
    {declaration : VariableDeclaration} (h : VariableTokens (token :: w) next declaration) :
    isVariableKeyword (some token.kind) = true := by
  cases h with
  | mk hkind => exact hkind

theorem expression_first {w semi : List Token} {next : Next} {value : Expression}
    (h : Expressions .expression w next value) {kind : TokenKind}
    (hkind : kindOf (w ++ semi) = some kind) : startsExpression kind = true := by
  obtain ⟨token, w', rfl, hstart⟩ := expression_starts h
  rw [← Option.some_inj.mp (hkind : some token.kind = some kind)]
  exact hstart

section First

variable {x : List Token} {next : Next} {v : Statement}

theorem not_variable_first {token : Token} {w semi : List Token} {kind : TokenKind}
    {declaration : VariableDeclaration} (h : VariableTokens (token :: w) next declaration)
    (hkeyword : isVariableKeyword (some kind) = false) :
    kindOf (token :: (w ++ semi)) ≠ some kind := by
  intro hkind
  have hfirst := variable_first h
  rw [Option.some_inj.mp hkind, hkeyword] at hfirst
  exact nomatch hfirst

theorem not_expression_first {w semi : List Token} {kind : TokenKind} {value : Expression}
    (h : Expressions .expression w next value) (hstart : startsExpression kind = false) :
    kindOf (w ++ semi) ≠ some kind := by
  intro hkind
  have hfirst := expression_first h hkind
  rw [hstart] at hfirst
  exact nomatch hfirst

theorem export_inv (h : Statements .statement x next v) (hkind : kindOf x = some .export) :
    ∃ a w inner, x = ⟨.export, a⟩ :: w ∧ Statements .statement w next inner := by
  cases h with
  | «export» hinner => exact ⟨_, _, _, rfl, hinner⟩
  | «variable» hvariable => exact absurd hkind (not_variable_first hvariable rfl)
  | expression hvalue => exact absurd hkind (not_expression_first hvalue rfl)
  | _ => exact nomatch hkind

theorem function_inv (h : Statements .statement x next v) (hkind : kindOf x = some .function) :
    ∃ a name b c d e f w w' w'' params returnType body,
      x = ⟨.function, a⟩ :: ⟨.identifier name, b⟩ :: ⟨.leftParen, c⟩ :: (w ++ ⟨.rightParen, d⟩ ::
        (w' ++ ⟨.leftBrace, e⟩ :: (w'' ++ [⟨.rightBrace, f⟩]))) ∧
      Listed .rightParen ParameterTokens w (some .rightParen) params ∧
      OptionalType w' (some .leftBrace) returnType ∧
      Statements (.statements (some .rightBrace)) w'' (some .rightBrace) body := by
  cases h with
  | function hparams hreturn hbody =>
    exact ⟨_, _, _, _, _, _, _, _, _, _, _, _, _, rfl, hparams, hreturn, hbody⟩
  | «variable» hvariable => exact absurd hkind (not_variable_first hvariable rfl)
  | expression hvalue => exact absurd hkind (not_expression_first hvalue rfl)
  | _ => exact nomatch hkind

theorem if_inv (h : Statements .statement x next v) (hkind : kindOf x = some .if) :
    ∃ a b c w w' test consequent,
      Expressions .expression w (some .rightParen) test ∧
      ((x = ⟨.if, a⟩ :: ⟨.leftParen, b⟩ :: (w ++ ⟨.rightParen, c⟩ :: w') ∧
        Statements .statement w' next consequent ∧ next ≠ some .else) ∨
      ∃ d w'' alternate, x = ⟨.if, a⟩ :: ⟨.leftParen, b⟩ :: (w ++ ⟨.rightParen, c⟩ ::
          (w' ++ ⟨.else, d⟩ :: w'')) ∧
        Statements .statement w' (some .else) consequent ∧
        Statements .statement w'' next alternate) := by
  cases h with
  | ifThen htest hconsequent helse =>
    exact ⟨_, _, _, _, _, _, _, htest, .inl ⟨rfl, hconsequent, helse⟩⟩
  | ifElse htest hconsequent halternate =>
    exact ⟨_, _, _, _, _, _, _, htest, .inr ⟨_, _, _, rfl, hconsequent, halternate⟩⟩
  | «variable» hvariable => exact absurd hkind (not_variable_first hvariable rfl)
  | expression hvalue => exact absurd hkind (not_expression_first hvalue rfl)
  | _ => exact nomatch hkind

theorem while_inv (h : Statements .statement x next v) (hkind : kindOf x = some .while) :
    ∃ a b c w w' test body, x = ⟨.while, a⟩ :: ⟨.leftParen, b⟩ :: (w ++ ⟨.rightParen, c⟩ :: w') ∧
      Expressions .expression w (some .rightParen) test ∧ Statements .statement w' next body := by
  cases h with
  | «while» htest hbody => exact ⟨_, _, _, _, _, _, _, rfl, htest, hbody⟩
  | «variable» hvariable => exact absurd hkind (not_variable_first hvariable rfl)
  | expression hvalue => exact absurd hkind (not_expression_first hvalue rfl)
  | _ => exact nomatch hkind

theorem for_inv (h : Statements .statement x next v) (hkind : kindOf x = some .for) :
    ∃ a b c d e w₁ w₂ w₃ w₄ initializer test update body,
      x = ⟨.for, a⟩ :: ⟨.leftParen, b⟩ :: (w₁ ++ ⟨.semicolon, c⟩ :: (w₂ ++ ⟨.semicolon, d⟩ ::
        (w₃ ++ ⟨.rightParen, e⟩ :: w₄))) ∧
      ForInitializer w₁ (some .semicolon) initializer ∧ ForPart .semicolon w₂ test ∧
      ForPart .rightParen w₃ update ∧ Statements .statement w₄ next body := by
  cases h with
  | «for» hinitializer htest hupdate hbody =>
    exact ⟨_, _, _, _, _, _, _, _, _, _, _, _, _, rfl, hinitializer, htest, hupdate, hbody⟩
  | «variable» hvariable => exact absurd hkind (not_variable_first hvariable rfl)
  | expression hvalue => exact absurd hkind (not_expression_first hvalue rfl)
  | _ => exact nomatch hkind

theorem block_inv (h : Statements .statement x next v) (hkind : kindOf x = some .leftBrace) :
    ∃ a b w body, x = ⟨.leftBrace, a⟩ :: (w ++ [⟨.rightBrace, b⟩]) ∧
      Statements (.statements (some .rightBrace)) w (some .rightBrace) body := by
  cases h with
  | block hbody => exact ⟨_, _, _, _, rfl, hbody⟩
  | «variable» hvariable => exact absurd hkind (not_variable_first hvariable rfl)
  | @expression w semi _ value hvalue hbrace =>
    obtain ⟨token, w', rfl, _⟩ := expression_starts hvalue
    exact absurd hkind hbrace
  | _ => exact nomatch hkind

end First

/-- No statement is read from the tokens of the statement, whatever is behind them. -/
def Unreadable (statement : Statement) : Prop :=
  ∀ w z x r v, kinds w = statementKinds statement → w ++ z = x ++ r →
    ¬ Statements .statement x (kindOf r) v

/-- What a list of statements may be followed by. -/
def IsStop (stop : Next) : Prop := stop = some .rightBrace ∨ stop = none

theorem IsStop.ne_else {stop : Next} (h : IsStop stop) : stop ≠ some .else := by
  obtain rfl | rfl := h <;> exact fun heq => nomatch heq

def UnreadableStatements (body : List Statement) : Prop :=
  ∀ stop w z x r v, IsStop stop → kinds w = statementsKinds body → w ++ z = x ++ r →
    kindOf z = stop → kindOf r = stop → ¬ Statements (.statements stop) x stop v

theorem kindOf_of_append {w z x r : List Token} (h : w ++ z = x ++ r) (hw : w ≠ []) (hx : x ≠ []) :
    kindOf x = kindOf w := by
  obtain ⟨token, w', rfl⟩ := List.exists_cons_of_ne_nil hw
  obtain ⟨token', x', rfl⟩ := List.exists_cons_of_ne_nil hx
  rw [kindOf_cons, kindOf_cons, (List.cons.inj h).1]

theorem not_starts_of_eq {w x r : List Token} {token : Token} {next : Next} {value : Expression}
    (h : Expressions .expression w next value) (hstart : startsExpression token.kind = false) :
    w ++ r ≠ token :: x := by
  intro heq
  have hfirst := kindOf_ne_of_starts h hstart
  obtain ⟨first, w', rfl, _⟩ := expression_starts h
  rw [(List.cons.inj heq).1] at hfirst
  exact hfirst rfl

/-- The parser takes the semicolon behind an absent initializer for the initializer. -/
theorem unreadable_header {test update : Option Expression} (htest : completeOption test = true)
    (hupdate : completeOption update = true) {w₂ w₃ z x₁ x₂ x₃ : List Token} {a b c d e : Span}
    {initializer : Option Statement} {part : Option Expression}
    (h₂ : kinds w₂ = optionalKinds test) (h₃ : kinds w₃ = optionalKinds update)
    (hinitializer : ForInitializer x₁ (some .semicolon) initializer) (hpart : ForPart .semicolon x₂ part) :
    ⟨.semicolon, a⟩ :: (w₂ ++ ⟨.semicolon, b⟩ :: (w₃ ++ ⟨.rightParen, c⟩ :: z)) ≠
      x₁ ++ ⟨.semicolon, d⟩ :: (x₂ ++ ⟨.semicolon, e⟩ :: x₃) := by
  intro h
  cases hinitializer with
  | absent =>
    have hrest := (List.cons.inj h).2
    cases test with
    | some value =>
      obtain ⟨v, hread⟩ := expression_printed value htest h₂
      exact not_starts_of_eq (hread.expression _ endsExpression_semicolon) rfl hrest
    | none =>
      rw [kinds_nil h₂] at hrest
      have hupdates := (List.cons.inj hrest).2
      cases update with
      | none =>
        rw [kinds_nil h₃] at hupdates
        cases hpart with
        | absent => exact nomatch hupdates
        | present hvalue => exact not_starts_of_eq hvalue rfl hupdates.symm
      | some value =>
        obtain ⟨v, hread⟩ := expression_printed value hupdate h₃
        have hprinted := hread.expression _ endsExpression_rightParen
        cases hpart with
        | absent => exact not_starts_of_eq hprinted rfl hupdates
        | present hvalue => exact nomatch (expression_unique hupdates hprinted hvalue).2
  | declaration hvariable =>
    have hfirst := variable_first hvariable
    rw [← (List.cons.inj h).1] at hfirst
    exact nomatch hfirst
  | expression hvalue => exact not_starts_of_eq hvalue rfl h.symm

mutual

theorem statement_unreadable (statement : Statement)
    (hcomplete : completeStatement statement = true) (hundangling : undangling statement = true)
    (h : initialized statement = false) : Unreadable statement := by
  cases statement with
  | «export» inner span =>
    intro w z x r v hw heq hx
    obtain ⟨a, w', rfl, hinner⟩ := kinds_cons hw
    have hkind := kindOf_of_append heq (List.cons_ne_nil _ _) (statement_first hx rfl).1
    obtain ⟨b, x', inner', rfl, hread⟩ := export_inv hx hkind
    exact statement_unreadable inner hcomplete hundangling h w' z x' r inner' hinner
      (List.cons.inj heq).2 hread
  | function declaration span =>
    obtain ⟨name, params, returnType, body⟩ := declaration
    intro w z x r v hw heq hx
    obtain ⟨a, w₁, rfl, h₁⟩ := kinds_cons hw
    obtain ⟨b, w₂, rfl, h₂⟩ := kinds_cons h₁
    obtain ⟨c, w₃, rfl, h₃⟩ := kinds_cons h₂
    obtain ⟨w₄, w₅, rfl, hparams, h₄⟩ := kinds_append h₃
    obtain ⟨d, w₆, rfl, h₅⟩ := kinds_cons h₄
    obtain ⟨w₇, w₈, rfl, hty, h₆⟩ := kinds_append h₅
    obtain ⟨e, w₉, rfl, h₇⟩ := kinds_cons h₆
    obtain ⟨w₁₀, w₁₁, rfl, hbody, hbrace⟩ := kinds_append h₇
    obtain ⟨f, rfl⟩ := kinds_single hbrace
    have hkind := kindOf_of_append heq (List.cons_ne_nil _ _) (statement_first hx rfl).1
    obtain ⟨a', name', b', c', d', e', f', x₁, x₂, x₃, params', returnType', body', rfl, hparams',
      hreturn', hbody'⟩ := function_inv hx hkind
    simp only [List.append_assoc, List.cons_append, List.nil_append] at heq
    have hrest := (List.cons.inj (List.cons.inj (List.cons.inj heq).2).2).2
    obtain ⟨_, _, hread⟩ := parameters_printed params hparams
    obtain ⟨_, hrest⟩ := parameters_unique hrest hread hparams'
    obtain ⟨_, _, hread'⟩ := optionalType_printed returnType hty
    have hreturn := hread' (some .leftBrace) (fun heq => (nomatch heq)) fun heq => (nomatch heq)
    obtain ⟨_, hrest⟩ := optionalType_unique (List.cons.inj hrest).2 hreturn hreturn'
    exact statements_unreadable body hcomplete hundangling h _ _ _ _ _ _ (.inl rfl) hbody
      (List.cons.inj hrest).2 rfl rfl hbody'
  | «if» test consequent alternate span =>
    obtain ⟨hcomplete, hcomplete'⟩ := Bool.and_eq_true_iff.mp hcomplete
    obtain ⟨htest, hconsequent⟩ := Bool.and_eq_true_iff.mp hcomplete
    obtain ⟨hundangling, hundangling'⟩ := Bool.and_eq_true_iff.mp hundangling
    obtain ⟨hsealed, hconsequents⟩ := Bool.and_eq_true_iff.mp hundangling
    intro w z x r v hw heq hx
    obtain ⟨a, w₁, rfl, h₁⟩ := kinds_cons hw
    obtain ⟨b, w₂, rfl, h₂⟩ := kinds_cons h₁
    obtain ⟨w₃, w₄, rfl, hvalue, h₃⟩ := kinds_append h₂
    obtain ⟨c, w₅, rfl, h₄⟩ := kinds_cons h₃
    obtain ⟨w₆, w₇, rfl, hstatement, halternate⟩ := kinds_append h₄
    have hkind := kindOf_of_append heq (List.cons_ne_nil _ _) (statement_first hx rfl).1
    obtain ⟨a', b', c', x₁, x₂, test', consequent', htest', hcases⟩ := if_inv hx hkind
    obtain ⟨v', hread⟩ := expression_printed test htest hvalue
    have hprinted := hread.expression _ endsExpression_rightParen
    -- Both forms read the same test and the same consequent.
    have hconsequent' : ∃ y, w₆ ++ (w₇ ++ z) = x₂ ++ y ∧
        Statements .statement x₂ (kindOf y) consequent' ∧ (alternate.isSome = true →
          w₆ = x₂ → ∃ d x₃ alternate', y = ⟨.else, d⟩ :: (x₃ ++ r) ∧
            Statements .statement x₃ (kindOf r) alternate') := by
      obtain ⟨rfl, hread', helse⟩ | ⟨d, x₃, alternate', rfl, hread', hread''⟩ := hcases
      · simp only [List.append_assoc, List.cons_append] at heq
        have hrest := (List.cons.inj (List.cons.inj heq).2).2
        obtain ⟨_, hrest⟩ := expression_unique hrest hprinted htest'
        refine ⟨r, (List.cons.inj hrest).2, hread', fun hsome hsame => ?_⟩
        obtain ⟨alternate, rfl⟩ := Option.isSome_iff_exists.mp hsome
        obtain ⟨d, w₈, rfl, _⟩ := kinds_cons halternate
        have hbehind := (List.cons.inj hrest).2
        rw [hsame] at hbehind
        rw [← List.append_cancel_left hbehind] at helse
        exact absurd rfl helse
      · simp only [List.append_assoc, List.cons_append] at heq
        have hrest := (List.cons.inj (List.cons.inj heq).2).2
        obtain ⟨_, hrest⟩ := expression_unique hrest hprinted htest'
        exact ⟨_, (List.cons.inj hrest).2, hread', fun _ _ => ⟨d, x₃, alternate', rfl, hread''⟩⟩
    obtain ⟨y, hrest, hread', helse⟩ := hconsequent'
    by_cases hinitialized : initialized consequent = true
    · rw [initialized, hinitialized, Bool.true_and] at h
      cases alternate with
      | none => exact nomatch h
      | some alternate =>
        obtain ⟨d, w₈, rfl, hlast⟩ := kinds_cons halternate
        have hclosed : opensElse consequent = true → some TokenKind.else ≠ some .else := by
          intro hopens
          rw [hopens] at hsealed
          exact nomatch hsealed
        obtain ⟨v'', _, hconsequent''⟩ :=
          statement_printed consequent hconsequent hconsequents hinitialized hstatement
        obtain ⟨hsame, hrest⟩ := statement_unique hrest (hconsequent'' _ hclosed) hread'
        obtain ⟨d', x₃, alternate', rfl, halternate'⟩ := helse rfl hsame
        exact statement_unreadable alternate hcomplete' hundangling' h _ _ _ _ _ hlast
          (List.cons.inj hrest).2 halternate'
    · exact statement_unreadable consequent hconsequent hconsequents
        (Bool.eq_false_iff.mpr hinitialized) _ _ _ _ _ hstatement hrest hread'
  | «while» test body span =>
    intro w z x r v hw heq hx
    obtain ⟨htest, hbody⟩ := Bool.and_eq_true_iff.mp hcomplete
    obtain ⟨a, w₁, rfl, h₁⟩ := kinds_cons hw
    obtain ⟨b, w₂, rfl, h₂⟩ := kinds_cons h₁
    obtain ⟨w₃, w₄, rfl, hvalue, h₃⟩ := kinds_append h₂
    obtain ⟨c, w₅, rfl, hstatement⟩ := kinds_cons h₃
    have hkind := kindOf_of_append heq (List.cons_ne_nil _ _) (statement_first hx rfl).1
    obtain ⟨a', b', c', x₁, x₂, test', body', rfl, htest', hbody'⟩ := while_inv hx hkind
    obtain ⟨v', hread⟩ := expression_printed test htest hvalue
    simp only [List.append_assoc, List.cons_append] at heq
    have hrest := (List.cons.inj (List.cons.inj heq).2).2
    obtain ⟨_, hbodies⟩ :=
      expression_unique hrest (hread.expression _ endsExpression_rightParen) htest'
    exact statement_unreadable body hbody hundangling h _ _ _ _ _ hstatement
      (List.cons.inj hbodies).2 hbody'
  | «for» initializer test update body span =>
    obtain ⟨hcomplete, hbody⟩ := Bool.and_eq_true_iff.mp hcomplete
    obtain ⟨hcomplete, hupdate⟩ := Bool.and_eq_true_iff.mp hcomplete
    obtain ⟨hinitializer, htest⟩ := Bool.and_eq_true_iff.mp hcomplete
    intro w z x r v hw heq hx
    obtain ⟨a, w₁, rfl, h₁⟩ := kinds_cons hw
    obtain ⟨b, w₂, rfl, h₂⟩ := kinds_cons h₁
    obtain ⟨w₃, w₄, rfl, hfirst, h₃⟩ := kinds_append h₂
    obtain ⟨c, w₅, rfl, h₄⟩ := kinds_cons h₃
    obtain ⟨w₆, w₇, rfl, hsecond, h₅⟩ := kinds_append h₄
    obtain ⟨d, w₈, rfl, h₆⟩ := kinds_cons h₅
    obtain ⟨w₉, w₁₀, rfl, hthird, h₇⟩ := kinds_append h₆
    obtain ⟨e, w₁₁, rfl, hstatement⟩ := kinds_cons h₇
    have hkind := kindOf_of_append heq (List.cons_ne_nil _ _) (statement_first hx rfl).1
    obtain ⟨a', b', c', d', e', x₁, x₂, x₃, x₄, initializer', test', update', body', rfl,
      hinitializer', htest', hupdate', hbody'⟩ := for_inv hx hkind
    simp only [List.append_assoc, List.cons_append] at heq
    have hrest := (List.cons.inj (List.cons.inj heq).2).2
    cases initializer with
    | none =>
      rw [kinds_nil hfirst, List.nil_append] at hrest
      exact unreadable_header htest hupdate hsecond hthird hinitializer' htest' hrest
    | some initializer =>
      obtain ⟨_, _, hinit⟩ := forInitializer_printed initializer hinitializer hfirst
      obtain ⟨_, _, hpart⟩ := forPart_printed test htest endsExpression_semicolon hsecond
      obtain ⟨_, _, hpart'⟩ := forPart_printed update hupdate endsExpression_rightParen hthird
      obtain ⟨_, hrest⟩ := forInitializer_unique hrest hinit hinitializer'
      obtain ⟨_, hrest⟩ := forPart_unique (List.cons.inj hrest).2 rfl rfl rfl hpart htest'
      obtain ⟨_, hrest⟩ := forPart_unique (List.cons.inj hrest).2 rfl rfl rfl hpart' hupdate'
      exact statement_unreadable body hbody hundangling h _ _ _ _ _ hstatement
        (List.cons.inj hrest).2 hbody'
  | block body span =>
    intro w z x r v hw heq hx
    obtain ⟨a, w₁, rfl, h₁⟩ := kinds_cons hw
    obtain ⟨w₂, w₃, rfl, hbody, hbrace⟩ := kinds_append h₁
    obtain ⟨b, rfl⟩ := kinds_single hbrace
    have hkind := kindOf_of_append heq (List.cons_ne_nil _ _) (statement_first hx rfl).1
    obtain ⟨a', b', x₁, body', rfl, hbody'⟩ := block_inv hx hkind
    simp only [List.append_assoc, List.cons_append, List.nil_append] at heq
    exact statements_unreadable body hcomplete hundangling h _ _ _ _ _ _ (.inl rfl) hbody
      (List.cons.inj heq).2 rfl rfl hbody'
  | _ => exact nomatch h

theorem statements_unreadable (body : List Statement) (hcomplete : completeStatements body = true)
    (hundangling : undanglingStatements body = true) (h : initializedStatements body = false) :
    UnreadableStatements body := by
  cases body with
  | nil => exact nomatch h
  | cons statement body =>
    obtain ⟨hcomplete, hcompletes⟩ := Bool.and_eq_true_iff.mp hcomplete
    obtain ⟨hundangling, hundanglings⟩ := Bool.and_eq_true_iff.mp hundangling
    intro stop w z x r v hstop hw heq hz hr hx
    obtain ⟨w₁, w₂, rfl, hstatement, hbody⟩ := kinds_append hw
    obtain ⟨hne, hbrace, _⟩ := printed_first hcomplete hstatement
    obtain ⟨token, w', rfl⟩ := List.exists_cons_of_ne_nil hne
    cases hx with
    | nil =>
      rw [List.nil_append] at heq
      rw [← heq] at hr
      obtain rfl | rfl := hstop
      · exact hbrace hr
      · exact nomatch hr
    | @cons _ x₁ x₂ _ first rest hfirst hrest =>
      rw [List.append_assoc, List.append_assoc] at heq
      rw [← hr, ← kindOf_append] at hfirst
      by_cases hinitialized : initialized statement = true
      · obtain ⟨v', _, hread⟩ :=
          statement_printed statement hcomplete hundangling hinitialized hstatement
        have hnext : kindOf (w₂ ++ z) ≠ some .else := by
          rw [kindOf_append, hz]
          exact printed_follow hcompletes hbody hstop.ne_else
        obtain ⟨_, heq'⟩ := statement_unique heq (hread _ fun _ => hnext) hfirst
        have hrest' : initializedStatements body = false := by
          rw [initializedStatements, hinitialized, Bool.true_and] at h
          exact h
        exact statements_unreadable body hcompletes hundanglings hrest' stop w₂ z x₂ r rest hstop
          hbody heq' hz hr hrest
      · exact statement_unreadable statement hcomplete hundangling
          (Bool.eq_false_iff.mpr hinitialized) _ _ _ _ _ hstatement heq hfirst

end

end Tsvm.Printing
