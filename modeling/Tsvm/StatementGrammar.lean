import Tsvm.ExpressionGrammar

set_option autoImplicit false

/-!
# The grammar of statements

As for expressions. A statement that may be closed by a semicolon has it whenever
the next token is one.
-/
namespace Tsvm.Grammar
open Ast Lexing Parsing

inductive OptionalType : List Token → Next → Option TypeNode → Prop where
  | absent {next : Next} : next ≠ some .colon → OptionalType [] next none
  | present {a w next} {ty : TypeNode} : Types .type w next ty →
    OptionalType (⟨.colon, a⟩ :: w) next (some ty)

inductive OptionalInitializer : List Token → Next → Option Expression → Prop where
  | absent {next : Next} : next ≠ some .equals → OptionalInitializer [] next none
  | present {a w next} {value : Expression} : Expressions .expression w next value →
    OptionalInitializer (⟨.equals, a⟩ :: w) next (some value)

inductive ImportTokens : List Token → Next → Option String × Bool → Prop where
  | last {name a next} : next ≠ some .comma →
    ImportTokens [⟨.identifier name, a⟩] next (some name, false)
  | more {name a b next} :
    ImportTokens [⟨.identifier name, a⟩, ⟨.comma, b⟩] next (some name, true)

inductive ParameterTokens : List Token → Next → Option Parameter × Bool → Prop where
  | last {name a w next ty} : OptionalType w next ty → next ≠ some .comma →
    ParameterTokens (⟨.identifier name, a⟩ :: w) next
      (some ⟨name, ty, ⟨a.start, lastEnd w a.end⟩⟩, false)
  | more {name a w b next ty} : OptionalType w (some .comma) ty →
    ParameterTokens (⟨.identifier name, a⟩ :: (w ++ [⟨.comma, b⟩])) next
      (some ⟨name, ty, ⟨a.start, lastEnd w a.end⟩⟩, true)

inductive ClassMemberTokens : List Token → Next → Option ClassMember × Bool → Prop where
  | mk {name a w w' semi next ty initializer} : OptionalType w (follow w' (follow semi next)) ty →
    OptionalInitializer w' (follow semi next) initializer → Semicolon semi next →
    ClassMemberTokens (⟨.identifier name, a⟩ :: (w ++ (w' ++ semi))) next
      (some ⟨name, ty, initializer, ⟨a.start, lastEnd semi (lastEnd w' (lastEnd w a.end))⟩⟩, true)

/-- A variable declaration without its semicolon. -/
inductive VariableTokens : List Token → Next → VariableDeclaration → Prop where
  | mk {kind a name b w w' next ty initializer} : isVariableKeyword (some kind) = true →
    OptionalType w (follow w' next) ty → OptionalInitializer w' next initializer →
    VariableTokens (⟨kind, a⟩ :: ⟨.identifier name, b⟩ :: (w ++ w')) next
      ⟨variableKind kind, name, ty, initializer⟩

/-- The initializer of a `for`; an absent one takes a semicolon of its own. -/
inductive ForInitializer : List Token → Next → Option Statement → Prop where
  | absent {a next} : ForInitializer [⟨.semicolon, a⟩] next none
  | declaration {token : Token} {w next declaration} : VariableTokens (token :: w) next declaration →
    ForInitializer (token :: w) next
      (some (.variable declaration ⟨token.span.start, lastEnd w token.span.end⟩))
  | expression {w next} {value : Expression} : Expressions .expression w next value →
    ForInitializer w next (some (.expression value value.span))

inductive ForPart (close : TokenKind) : List Token → Option Expression → Prop where
  | absent : ForPart close [] none
  | present {w} {value : Expression} : Expressions .expression w (some close) value →
    ForPart close w (some value)

/-- A statement, or statements up to a next token. -/
inductive StatementForm where
  | statement
  | statements (stop : Next)

abbrev StatementForm.Value : StatementForm → Type
  | .statement => Statement
  | .statements _ => List Statement

inductive Statements : (c : StatementForm) → List Token → Next → c.Value → Prop where
  | imports {a b : Span} {w c d e names value semi next} :
    Listed .rightBrace ImportTokens w (some .rightBrace) names → Semicolon semi next →
    Statements .statement
      (⟨.import, a⟩ :: ⟨.leftBrace, b⟩ :: (w ++ ⟨.rightBrace, c⟩ :: ⟨.from, d⟩ ::
        ⟨.stringLiteral value, e⟩ :: semi)) next
      (.import ⟨names, value⟩ ⟨a.start, lastEnd semi e.end⟩)
  | importDefault {a b d e : Span} {name value semi next} : Semicolon semi next →
    Statements .statement
      (⟨.import, a⟩ :: ⟨.identifier name, b⟩ :: ⟨.from, d⟩ :: ⟨.stringLiteral value, e⟩ :: semi) next
      (.import ⟨[name], value⟩ ⟨a.start, lastEnd semi e.end⟩)
  | export {a : Span} {w next} {inner : Statement} : Statements .statement w next inner →
    Statements .statement (⟨.export, a⟩ :: w) next (.export inner ⟨a.start, inner.span.end⟩)
  | interface {a b c d : Span} {name w next members} : Types .members w (some .rightBrace) members →
    Statements .statement
      (⟨.interface, a⟩ :: ⟨.identifier name, b⟩ :: ⟨.leftBrace, c⟩ :: (w ++ [⟨.rightBrace, d⟩])) next
      (.interface ⟨name, members⟩ ⟨a.start, d.end⟩)
  | typeAlias {a b c : Span} {name w semi next} {ty : TypeNode} :
    Types .type w (follow semi next) ty → Semicolon semi next →
    Statements .statement
      (⟨.type, a⟩ :: ⟨.identifier name, b⟩ :: ⟨.equals, c⟩ :: (w ++ semi)) next
      (.typeAlias ⟨name, ty⟩ ⟨a.start, lastEnd semi (lastEnd w c.end)⟩)
  | «class» {a b c d : Span} {name w next members} :
    Listed .rightBrace ClassMemberTokens w (some .rightBrace) members →
    Statements .statement
      (⟨.class, a⟩ :: ⟨.identifier name, b⟩ :: ⟨.leftBrace, c⟩ :: (w ++ [⟨.rightBrace, d⟩])) next
      (.class ⟨name, members⟩ ⟨a.start, d.end⟩)
  | function {a b c d e f : Span} {name w w' w'' next params returnType body} :
    Listed .rightParen ParameterTokens w (some .rightParen) params →
    OptionalType w' (some .leftBrace) returnType →
    Statements (.statements (some .rightBrace)) w'' (some .rightBrace) body →
    Statements .statement
      (⟨.function, a⟩ :: ⟨.identifier name, b⟩ :: ⟨.leftParen, c⟩ :: (w ++ ⟨.rightParen, d⟩ ::
        (w' ++ ⟨.leftBrace, e⟩ :: (w'' ++ [⟨.rightBrace, f⟩])))) next
      (.function ⟨name, params, returnType, body⟩ ⟨a.start, f.end⟩)
  | variable {token : Token} {w semi next declaration} :
    VariableTokens (token :: w) (follow semi next) declaration → Semicolon semi next →
    Statements .statement (token :: (w ++ semi)) next
      (.variable declaration ⟨token.span.start, lastEnd semi (lastEnd w token.span.end)⟩)
  | returnNothing {a : Span} {semi next} : Semicolon semi next →
    follow semi next = some .semicolon ∨ follow semi next = some .rightBrace →
    Statements .statement (⟨.return, a⟩ :: semi) next (.return none ⟨a.start, lastEnd semi a.end⟩)
  | return {a : Span} {w semi next} {value : Expression} :
    Expressions .expression w (follow semi next) value → Semicolon semi next →
    Statements .statement (⟨.return, a⟩ :: (w ++ semi)) next
      (.return (some value) ⟨a.start, lastEnd semi (lastEnd w a.end)⟩)
  | throw {a : Span} {w semi next} {value : Expression} :
    Expressions .expression w (follow semi next) value → Semicolon semi next →
    Statements .statement (⟨.throw, a⟩ :: (w ++ semi)) next
      (.throw value ⟨a.start, lastEnd semi (lastEnd w a.end)⟩)
  | ifThen {a b c : Span} {w w' next} {test : Expression} {consequent : Statement} :
    Expressions .expression w (some .rightParen) test → Statements .statement w' next consequent →
    next ≠ some .else →
    Statements .statement (⟨.if, a⟩ :: ⟨.leftParen, b⟩ :: (w ++ ⟨.rightParen, c⟩ :: w')) next
      (.if test consequent none ⟨a.start, consequent.span.end⟩)
  | ifElse {a b c d : Span} {w w' w'' next} {test : Expression} {consequent alternate : Statement} :
    Expressions .expression w (some .rightParen) test →
    Statements .statement w' (some .else) consequent → Statements .statement w'' next alternate →
    Statements .statement
      (⟨.if, a⟩ :: ⟨.leftParen, b⟩ :: (w ++ ⟨.rightParen, c⟩ :: (w' ++ ⟨.else, d⟩ :: w''))) next
      (.if test consequent (some alternate) ⟨a.start, alternate.span.end⟩)
  | while {a b c : Span} {w w' next} {test : Expression} {body : Statement} :
    Expressions .expression w (some .rightParen) test → Statements .statement w' next body →
    Statements .statement (⟨.while, a⟩ :: ⟨.leftParen, b⟩ :: (w ++ ⟨.rightParen, c⟩ :: w')) next
      (.while test body ⟨a.start, body.span.end⟩)
  | for {a b c d e : Span} {w₁ w₂ w₃ w₄ next initializer test update} {body : Statement} :
    ForInitializer w₁ (some .semicolon) initializer → ForPart .semicolon w₂ test →
    ForPart .rightParen w₃ update → Statements .statement w₄ next body →
    Statements .statement
      (⟨.for, a⟩ :: ⟨.leftParen, b⟩ :: (w₁ ++ ⟨.semicolon, c⟩ :: (w₂ ++ ⟨.semicolon, d⟩ ::
        (w₃ ++ ⟨.rightParen, e⟩ :: w₄)))) next
      (.for initializer test update body ⟨a.start, body.span.end⟩)
  | block {a b : Span} {w next body} :
    Statements (.statements (some .rightBrace)) w (some .rightBrace) body →
    Statements .statement (⟨.leftBrace, a⟩ :: (w ++ [⟨.rightBrace, b⟩])) next
      (.block body ⟨a.start, b.end⟩)
  | empty {a next} : Statements .statement [⟨.semicolon, a⟩] next (.empty a)
  | expression {w semi next} {value : Expression} :
    Expressions .expression w (follow semi next) value → kindOf w ≠ some .leftBrace →
    Semicolon semi next →
    Statements .statement (w ++ semi) next (.expression value value.span)
  | nil {stop} : Statements (.statements stop) [] stop []
  | cons {stop w w' next} {statement : Statement} {body} :
    Statements .statement w (follow w' next) statement → Statements (.statements stop) w' next body →
    Statements (.statements stop) (w ++ w') next (statement :: body)

/-- A statement of a block on its own. -/
inductive BlockTokens : List Token → Next → Option Statement × Bool → Prop where
  | mk {w next} {statement : Statement} : Statements .statement w next statement →
    BlockTokens w next (some statement, true)

theorem statements_of_listed {w : List Token} {next : Next} {body : List Statement}
    (h : Listed .rightBrace BlockTokens w next body) :
    Statements (.statements (some .rightBrace)) w next body := by
  induction h with
  | nil => exact .nil
  | stop _ _ hstatement => exact nomatch hstatement
  | more _ _ hstatement _ ih =>
    cases hstatement with
    | mk hstatement => exact .cons hstatement ih

theorem statement_first {c : StatementForm} {w : List Token} {next : Next} {v : c.Value}
    (h : Statements c w next v) (hc : c = .statement) : w ≠ [] ∧ kindOf w ≠ some .rightBrace := by
  cases h with
  | @«variable» token w semi next declaration hvariable =>
    cases hvariable with
    | @mk kind _ _ _ _ _ _ _ _ hkind =>
      refine ⟨List.cons_ne_nil _ _, fun heq => ?_⟩
      rw [kindOf_cons] at heq
      rw [heq] at hkind
      exact nomatch hkind
  | @expression w semi next value hvalue =>
    have hfirst : kindOf w ≠ some .rightBrace := kindOf_ne_of_starts hvalue rfl
    obtain ⟨token, w', rfl, _⟩ := expression_starts hvalue
    exact ⟨List.cons_ne_nil _ _, hfirst⟩
  | nil | cons => exact nomatch hc
  | _ => exact ⟨List.cons_ne_nil _ _, fun heq => nomatch heq⟩

theorem optionalType_sound (s : Parser) :
    Sound s optionalType fun w v t => OptionalType w (kindOf t.rest) v := by
  refine .matchKind_bind (fun a t => ?_) fun hcolon => .pure (.absent hcolon)
  refine (parseAnyType_sound t).bind fun ty t₁ => .pure fun w hw hty ha => ?_
  rw [List.append_nil]
  exact .present hty

theorem optionalInitializer_sound (s : Parser) :
    Sound s optionalInitializer fun w v t => OptionalInitializer w (kindOf t.rest) v := by
  refine .matchKind_bind (fun a t => ?_) fun hequals => .pure (.absent hequals)
  refine (parseExpression_sound t).bind fun value t₁ => .pure fun w hw hvalue ha => ?_
  rw [List.append_nil]
  exact .present hvalue

theorem parameter_sound (s : Parser) :
    Sound s parameter fun w v t => w ≠ [] ∧ ParameterTokens w (kindOf t.rest) v := by
  refine .get_bind (.consumeIdentifier_bind fun name t => (optionalType_sound t).bind fun ty t₁ => ?_)
  refine .get_bind (.matchKind_bind (fun b t₂ => .pure ?_) fun hcomma => .pure ?_)
  · intro hb w hw hty name' a hname ha
    rw [hb.first] at hty
    subst hname
    rw [ha.currentStart, hw.previousEnd, ha.previousEnd]
    exact ⟨List.cons_ne_nil _ _, .more hty⟩
  · intro w hw hty name' a hname ha
    subst hname
    rw [ha.currentStart, hw.previousEnd, ha.previousEnd, List.append_nil]
    exact ⟨List.cons_ne_nil _ _, .last hty hcomma⟩

theorem synchronizeMember_sound (turns : ℕ) (s : Parser) :
    Sound s (synchronizeMember turns) fun _ _ _ => True := by
  induction turns generalizing s with
  | zero => exact .pure trivial
  | succ turns ih =>
    refine .get_bind ?_
    by_cases hend : s.isAtEnd = true
    · rw [if_pos hend]
      exact .pure trivial
    · rw [if_neg hend]
      refine .matchKind_bind (fun a t => .pure fun _ => trivial) fun _ => ?_
      refine .matchKind_bind (fun a t => .pure fun _ => trivial) fun _ => .get_bind ?_
      by_cases hbrace : s.check .rightBrace = true
      · rw [if_pos hbrace]
        exact .pure trivial
      · rw [if_neg hbrace]
        have hfirst : s.rest ≠ [] := fun hnil => hend (Parser.isAtEnd_iff.mpr hnil)
        obtain ⟨token, r, hrest⟩ := List.exists_cons_of_ne_nil hfirst
        have hread := Parser.reads_of_rest hrest
        exact .step (advance_run hread) hread ((ih _).mono fun _ _ _ _ _ _ => trivial)

theorem classMember_sound (s : Parser) :
    Sound s classMember fun w v t => w ≠ [] ∧ ClassMemberTokens w (kindOf t.rest) v := by
  refine .get_bind (.consumeIdentifier_bind fun name t => ?_)
  cases name with
  | none =>
    refine .get_bind ((synchronizeMember_sound _ t).bind fun _ t₁ => .pure ?_)
    exact fun _ _ _ _ _ hname => nomatch hname
  | some name =>
    refine (optionalType_sound t).bind fun ty t₁ => (optionalInitializer_sound t₁).bind
      fun initializer t₂ => .closing_bind fun «end» t₃ => .pure ?_
    intro semi hsemi hsemicolon hend w' hw' hinitializer w hw hty name' a hname ha
    rw [hw'.follow, hsemi.follow] at hty
    rw [hsemi.follow] at hinitializer
    rw [hw'.previousEnd, hw.previousEnd, ha.previousEnd] at hend
    rw [Option.some_inj.mp hname, hend, ha.currentStart, List.append_nil]
    exact ⟨List.cons_ne_nil _ _, .mk hty hinitializer hsemicolon⟩

theorem importName_sound (s : Parser) :
    Sound s (do
      let name ← consumeIdentifier "import binding"
      let goOn ← matchKind .comma
      pure (name, goOn)) fun w v t => w ≠ [] ∧ ImportTokens w (kindOf t.rest) v := by
  refine .consumeIdentifier_bind fun name t => .matchKind_bind (fun b t₁ => .pure ?_)
    fun hcomma => .pure ?_
  · intro hb name' a hname ha
    subst hname
    exact ⟨List.cons_ne_nil _ _, .more⟩
  · intro name' a hname ha
    subst hname
    exact ⟨List.cons_ne_nil _ _, .last hcomma⟩

/-- The source of an import behind its names. -/
theorem importSource_sound (start : Position) (names : List String) (s : Parser) :
    Sound s (do
      expect .from "`from` in import declaration"
      let «from» ←
        match ← advance with
        | some ⟨.stringLiteral value, _⟩ => pure value
        | some token => do
          errorAt token.span "expected string module specifier"
          pure ""
        | none => do
          errorHere "expected string module specifier"
          pure ""
      let «end» ← endOrPrevious (← consumeOptionalSemicolon) start
      pure (Statement.import ⟨names, «from»⟩ ⟨start, «end»⟩)) fun w v t =>
        ∃ d value e semi, w = ⟨.from, d⟩ :: ⟨.stringLiteral value, e⟩ :: semi ∧
          Semicolon semi (kindOf t.rest) ∧
          v = .import ⟨names, value⟩ ⟨start, lastEnd semi e.end⟩ := by
  refine .expect_bind fun d t => .advance_bind ?_ fun token t₁ => ?_
  · refine .errorHere_bind fun t => .pure_bind (.closing_bind fun «end» t₁ => .pure ?_)
    exact fun _ _ _ _ => trivial
  · obtain ⟨kind, e⟩ := token
    cases kind with
    | stringLiteral value =>
      refine .pure_bind (.closing_bind fun «end» t₂ => .pure ?_)
      intro semi hsemi hsemicolon hend he hd
      rw [he.previousEnd] at hend
      refine ⟨d, value, e, semi, by rw [List.append_nil], hsemicolon, ?_⟩
      rw [hend]
      rfl
    | _ =>
      refine .errorAt_bind fun t => .pure_bind (.closing_bind fun «end» t₁ => .pure ?_)
      exact fun _ _ _ _ => trivial

theorem parseImport_sound {s : Parser} (hkind : kindOf s.rest = some .import) :
    Sound s parseImport fun w v t => Statements .statement w (kindOf t.rest) v := by
  refine .expectAny_bind_of_kind hkind fun a t => .matchKind_bind (fun b t₁ => ?_) fun _ => ?_
  · refine (listUntil_sound_of_turns importName_sound t₁).bind fun names t₂ => ?_
    refine .expect_bind fun c t₃ => .pure_bind ((importSource_sound _ _ t₃).mono ?_)
    intro w v u _ hsource hc x hx hnames hb ha
    obtain ⟨d, value, e, semi, rfl, hsemicolon, rfl⟩ := hsource
    have hlist := hnames hc.first
    rw [hc.first] at hlist
    exact .imports hlist hsemicolon
  · refine .consumeIdentifier_bind fun name t₁ => .pure_bind ((importSource_sound _ _ t₁).mono ?_)
    intro w v u _ hsource name' b hname hb ha
    obtain ⟨d, value, e, semi, rfl, hsemicolon, rfl⟩ := hsource
    subst hname
    exact .importDefault hsemicolon

theorem parseTypeMembers_sound (s : Parser) : Sound s parseTypeMembers fun w v _ =>
    ∃ c w' d, w = ⟨.leftBrace, c⟩ :: (w' ++ [⟨.rightBrace, d⟩]) ∧
      Types .members w' (some .rightBrace) v := by
  have hmember : ∀ s, Sound s (typeMember parseAnyType) fun w v t =>
      w ≠ [] ∧ MemberTokens w (kindOf t.rest) v := fun s =>
    (typeMember_sound (n := s.remaining + 1)
      (fun s => (parseAnyType_sound s).mono fun _ _ _ _ hw _ => hw) s).mono
      fun _ _ _ _ hw => hw (by omega)
  refine .expect_bind fun c t => (listUntil_sound_of_turns hmember t).bind fun members t₁ => ?_
  refine .expect_bind fun d t₂ => .pure fun hd w hw hmembers hc => ?_
  have hlist := hmembers hd.first
  rw [hd.first] at hlist
  exact ⟨c, w, d, rfl, types_of_listed hlist⟩

theorem parseInterface_sound {s : Parser} (hkind : kindOf s.rest = some .interface) :
    Sound s parseInterface fun w v t => Statements .statement w (kindOf t.rest) v := by
  refine .expectAny_bind_of_kind hkind fun a t => .consumeIdentifier_bind fun name t₁ => ?_
  refine (parseTypeMembers_sound t₁).bind fun members t₂ => .get_bind (.pure ?_)
  intro w hw hmembers name' b hname hb ha
  obtain ⟨c, w', d, rfl, hmembers⟩ := hmembers
  subst hname
  rw [hw.previousEnd, List.append_nil]
  simpa using Statements.interface hmembers

theorem parseTypeAlias_sound {s : Parser} (hkind : kindOf s.rest = some .type) :
    Sound s parseTypeAlias fun w v t => Statements .statement w (kindOf t.rest) v := by
  refine .expectAny_bind_of_kind hkind fun a t => .consumeIdentifier_bind fun name t₁ => ?_
  refine .expect_bind fun c t₂ => (parseAnyType_sound t₂).bind fun ty t₃ => ?_
  refine .closing_bind fun «end» t₄ => .pure ?_
  intro semi hsemi hsemicolon hend w hw hty hc name' b hname hb ha
  subst hname
  rw [hsemi.follow] at hty
  rw [hend, hw.previousEnd, hc.previousEnd, List.append_nil]
  exact .typeAlias hty hsemicolon

theorem parseClass_sound {s : Parser} (hkind : kindOf s.rest = some .class) :
    Sound s parseClass fun w v t => Statements .statement w (kindOf t.rest) v := by
  refine .expectAny_bind_of_kind hkind fun a t => .consumeIdentifier_bind fun name t₁ => ?_
  refine .expect_bind fun c t₂ => (listUntil_sound_of_turns classMember_sound t₂).bind
    fun members t₃ => .expect_bind fun d t₄ => .get_bind (.pure ?_)
  intro hd w hw hmembers hc name' b hname hb ha
  have hlist := hmembers hd.first
  rw [hd.first] at hlist
  subst hname
  rw [hd.previousEnd]
  exact .class hlist

theorem parseVariable_sound {s : Parser} {kind : TokenKind} (hfirst : kindOf s.rest = some kind)
    (hkind : isVariableKeyword (some kind) = true) (consumeSemicolon : Bool) :
    Sound s (parseVariable consumeSemicolon) fun w v t => ∃ token w' semi declaration,
      w = token :: (w' ++ semi) ∧ VariableTokens (token :: w') (follow semi (kindOf t.rest)) declaration ∧
      (if consumeSemicolon then Semicolon semi (kindOf t.rest) else semi = []) ∧
      v = .variable declaration ⟨token.span.start, lastEnd semi (lastEnd w' token.span.end)⟩ := by
  refine .expectAny_bind_of_kind hfirst fun a t => .consumeIdentifier_bind fun name t₁ => ?_
  refine (optionalType_sound t₁).bind fun ty t₂ => (optionalInitializer_sound t₂).bind
    fun initializer t₃ => ?_
  cases consumeSemicolon with
  | true =>
    refine .closing_bind fun «end» t₄ => .pure ?_
    intro semi hsemi hsemicolon hend w' hw' hinitializer w hw hty name' b hname hb ha
    subst hname
    rw [hw'.follow, hsemi.follow] at hty
    rw [hsemi.follow] at hinitializer
    rw [hw'.previousEnd, hw.previousEnd, hb.previousEnd] at hend
    refine ⟨⟨kind, a⟩, ⟨.identifier name', b⟩ :: (w ++ w'), semi, _, ?_, .mk hkind hty hinitializer,
      hsemicolon, ?_⟩
    · simp
    · rw [hend]
      simp
  | false =>
    refine .pure_bind (.get_bind (.pure_bind (.pure ?_)))
    intro w' hw' hinitializer w hw hty name' b hname hb ha
    subst hname
    rw [hw'.follow] at hty
    refine ⟨⟨kind, a⟩, ⟨.identifier name', b⟩ :: (w ++ w'), [], _, ?_, .mk hkind hty hinitializer, rfl, ?_⟩
    · simp
    · rw [hw'.previousEnd, hw.previousEnd, hb.previousEnd]
      simp

theorem parseReturn_sound {s : Parser} (hkind : kindOf s.rest = some .return) :
    Sound s parseReturn fun w v t => Statements .statement w (kindOf t.rest) v := by
  refine .expectAny_bind_of_kind hkind fun a t => .get_bind ?_
  by_cases hstop : (t.check .semicolon || t.check .rightBrace) = true
  · rw [if_pos hstop]
    refine .pure_bind (.closing_bind fun «end» t₁ => .pure ?_)
    intro semi hsemi hsemicolon hend ha
    rw [Bool.or_eq_true_iff, Parser.check_iff, Parser.check_iff, hsemi.follow] at hstop
    rw [hend, ha.previousEnd, List.append_nil]
    exact .returnNothing hsemicolon hstop
  · rw [if_neg hstop]
    refine (parseExpression_sound t).bind fun value t₁ => .pure_bind (.closing_bind fun «end» t₂ =>
      .pure ?_)
    intro semi hsemi hsemicolon hend w hw hvalue ha
    rw [hsemi.follow] at hvalue
    rw [hend, hw.previousEnd, ha.previousEnd, List.append_nil]
    exact .return hvalue hsemicolon

theorem parseThrow_sound {s : Parser} (hkind : kindOf s.rest = some .throw) :
    Sound s parseThrow fun w v t => Statements .statement w (kindOf t.rest) v := by
  refine .expectAny_bind_of_kind hkind fun a t => ?_
  refine (parseExpression_sound t).bind fun value t₁ => .closing_bind fun «end» t₂ => .pure ?_
  intro semi hsemi hsemicolon hend w hw hvalue ha
  rw [hsemi.follow] at hvalue
  rw [hend, hw.previousEnd, ha.previousEnd, List.append_nil]
  exact .throw hvalue hsemicolon

theorem parseExpressionStatement_sound (s : Parser) : Sound s parseExpressionStatement fun w v t =>
    kindOf s.rest ≠ some .leftBrace → Statements .statement w (kindOf t.rest) v := by
  have hvalue : Sound s parseExpressionStatementWithoutSemicolon fun w v t =>
      ∃ value, v = .expression value value.span ∧ Expressions .expression w (kindOf t.rest) value := by
    refine (parseExpression_sound s).bind fun value t => .pure fun w hw hvalue => ⟨value, rfl, ?_⟩
    rw [List.append_nil]
    exact hvalue
  refine hvalue.bind fun statement t => Sound.consumeOptionalSemicolon.bind fun closed t₁ => .pure ?_
  intro semi hsemi hsemicolon w hw hvalue hfirst
  obtain ⟨value, rfl, hvalue⟩ := hvalue
  have hbrace : kindOf w ≠ some .leftBrace := by
    obtain ⟨token, w', rfl, _⟩ := expression_starts hvalue
    rw [hw.first] at hfirst
    exact hfirst
  rw [hsemi.follow] at hvalue
  rw [List.append_nil]
  exact .expression hvalue hbrace hsemicolon.1

theorem forInitializer_sound (s : Parser) :
    Sound s forInitializer fun w v t => ForInitializer w (kindOf t.rest) v := by
  refine .matchKind_bind (fun a t => .pure fun ha => .absent) fun hsemicolon => .get_bind ?_
  by_cases hkeyword : isVariableKeyword s.peekKind = true
  · rw [if_pos hkeyword]
    obtain ⟨kind, hkind⟩ : ∃ kind, kindOf s.rest = some kind := by
      cases hrest : kindOf s.rest with
      | none =>
        rw [Parser.peekKind_eq, hrest] at hkeyword
        exact nomatch hkeyword
      | some kind => exact ⟨kind, rfl⟩
    rw [Parser.peekKind_eq, hkind] at hkeyword
    refine (parseVariable_sound hkind hkeyword false).bind fun declaration t => .pure ?_
    intro w hw hvariable
    obtain ⟨token, w', semi, declaration, rfl, htokens, hsemi, rfl⟩ := hvariable
    rw [if_neg Bool.false_ne_true] at hsemi
    subst hsemi
    simpa using ForInitializer.declaration htokens
  · rw [if_neg hkeyword]
    have hvalue : Sound s parseExpressionStatementWithoutSemicolon fun w v t =>
        ForInitializer w (kindOf t.rest) (some v) := by
      refine (parseExpression_sound s).bind fun value t => .pure fun w hw hvalue => ?_
      rw [List.append_nil]
      exact .expression hvalue
    refine hvalue.bind fun value t => .pure fun w hw hvalue => ?_
    rw [List.append_nil]
    exact hvalue

theorem forPart_sound (close : TokenKind) (s : Parser) : Sound s (forPart close) fun w v t =>
    kindOf t.rest = some close → ForPart close w v := by
  refine .get_bind ?_
  by_cases hcheck : s.check close = true
  · rw [if_pos hcheck]
    exact .pure fun _ => .absent
  · rw [if_neg hcheck]
    refine (parseExpression_sound s).bind fun value t => .pure fun w hw hvalue hclose => ?_
    rw [hclose] at hvalue
    rw [List.append_nil]
    exact .present hvalue

theorem parseEmpty_sound {s : Parser} (hkind : kindOf s.rest = some .semicolon) :
    Sound s parseEmpty fun w v t => Statements .statement w (kindOf t.rest) v :=
  .advance_bind_of_kind hkind fun _ _ => .pure fun _ => .empty

/-- The keyword of a statement and its condition in parentheses. -/
theorem header_sound {s : Parser} {label opening closing : String} {kind : TokenKind}
    (hkind : kindOf s.rest = some kind) {β : Type} {k : Token → Expression → Parse β}
    {Q : List Token → β → Parser → Prop}
    (h : ∀ a test t, Sound t (k ⟨kind, a⟩ test) fun y u t' => ∀ b w c,
      Expressions .expression w (some .rightParen) test → t.remaining < s.remaining →
      Q (⟨kind, a⟩ :: ⟨.leftParen, b⟩ :: (w ++ ⟨.rightParen, c⟩ :: y)) u t') :
    Sound s (expectAny label >>= fun token => expect .leftParen opening >>= fun _ =>
      parseExpression >>= fun test => expect .rightParen closing >>= fun _ => k token test) Q := by
  refine .expectAny_bind_of_kind hkind fun a t => .expect_bind fun b t₁ => ?_
  refine (parseExpression_sound t₁).bind fun test t₂ => .expect_bind fun c t₃ => (h a test t₃).mono ?_
  intro y u t' _ hQ hc w hw htest hb ha
  have hlt := ha.lt
  have hle := hb.le
  have hle' := hw.le
  have hle'' := hc.le
  rw [hc.first] at htest
  exact hQ b w c htest (by omega)

section Sound

variable {statement : Parse Statement} {n : ℕ} (hstatement : ∀ s, Sound s statement
  fun w v t => s.remaining < n → Statements .statement w (kindOf t.rest) v)

include hstatement

theorem parseExport_sound {s : Parser} (hkind : kindOf s.rest = some .export) :
    Sound s (parseExport statement) fun w v t =>
      s.remaining < n + 1 → Statements .statement w (kindOf t.rest) v := by
  refine .expectAny_bind_of_kind hkind fun a t => (hstatement t).bind fun inner t₁ => .pure ?_
  intro w hw hinner ha hn
  have hlt := ha.lt
  rw [List.append_nil]
  exact .export (hinner (by omega))

theorem blockBody_sound (s : Parser) : Sound s (parseBlockBody statement) fun w v _ =>
    s.remaining < n + 1 → ∃ a w' b, w = ⟨.leftBrace, a⟩ :: (w' ++ [⟨.rightBrace, b⟩]) ∧
      Statements (.statements (some .rightBrace)) w' (some .rightBrace) v.1 ∧
      v.2 = ⟨a.start, b.end⟩ := by
  have hturn : ∀ s, Sound s (do
      let inner ← statement
      pure (some inner, true)) fun w v t => s.remaining < n → w ≠ [] ∧ BlockTokens w (kindOf t.rest) v :=
    fun s => (hstatement s).bind fun inner t => .pure fun w hw hinner hn => by
      rw [List.append_nil]
      exact ⟨(statement_first (hinner hn) rfl).1, .mk (hinner hn)⟩
  refine .get_bind (.expect_bind fun a t => (listUntil_sound hturn t).bind fun body t₁ => ?_)
  refine .expect_bind fun b t₂ => .get_bind (.pure ?_)
  intro hb w hw hbody ha hn
  have hlt := ha.lt
  have hlist := hbody (by omega) hb.first
  rw [hb.first] at hlist
  rw [ha.currentStart, hb.previousEnd]
  exact ⟨a, w, b, rfl, statements_of_listed hlist, rfl⟩

theorem parseBlockStatement_sound (s : Parser) : Sound s (parseBlockStatement statement)
    fun w v t => s.remaining < n + 1 → Statements .statement w (kindOf t.rest) v := by
  refine (blockBody_sound hstatement s).bind fun block t => .pure fun w hw hblock hn => ?_
  obtain ⟨a, w', b, rfl, hbody, hspan⟩ := hblock hn
  rw [hspan, List.append_nil]
  exact .block hbody

theorem parseFunction_sound {s : Parser} (hkind : kindOf s.rest = some .function) :
    Sound s (parseFunction statement) fun w v t =>
      s.remaining < n + 1 → Statements .statement w (kindOf t.rest) v := by
  have hparams : ∀ s, Sound s parseParameters fun w v _ => ∃ c w' d,
      w = ⟨.leftParen, c⟩ :: (w' ++ [⟨.rightParen, d⟩]) ∧
        Listed .rightParen ParameterTokens w' (some .rightParen) v := fun s => by
    refine .expect_bind fun c t => (listUntil_sound_of_turns parameter_sound t).bind fun params t₁ => ?_
    refine .expect_bind fun d t₂ => .pure fun hd w hw hlist hc => ⟨c, w, d, rfl, ?_⟩
    have hlisted := hlist hd.first
    rw [hd.first] at hlisted
    exact hlisted
  refine .expectAny_bind_of_kind hkind fun a t => .consumeIdentifier_bind fun name t₁ => ?_
  refine (hparams t₁).bind fun params t₂ => (optionalType_sound t₂).bind fun returnType t₃ => ?_
  refine (blockBody_sound hstatement t₃).bind fun block t₄ => .pure ?_
  intro x hx hblock w' hw' hreturn y hy hparams name' b hname hb ha hn
  have hlt := ha.lt
  have hle := hb.le
  have hle' := hy.le
  have hle'' := hw'.le
  obtain ⟨e, w'', f, rfl, hbody, hspan⟩ := hblock (by omega)
  obtain ⟨c, w, d, rfl, hlist⟩ := hparams
  subst hname
  rw [hx.first] at hreturn
  rw [hspan]
  simpa using Statements.function hlist hreturn hbody

theorem parseIf_sound {s : Parser} (hkind : kindOf s.rest = some .if) :
    Sound s (parseIf statement) fun w v t =>
      s.remaining < n + 1 → Statements .statement w (kindOf t.rest) v := by
  refine header_sound hkind fun a test t => (hstatement t).bind fun consequent t₁ => ?_
  refine .matchKind_bind (fun d t₂ => ?_) fun helse => .pure_bind (.pure ?_)
  · refine (hstatement t₂).bind fun alternate t₃ => .pure_bind (.pure ?_)
    intro w'' hw'' halternate hd w' hw' hconsequent b w c htest hlt hn
    have hle := hw'.le
    have hlt' := hd.lt
    have hfirst := hconsequent (by omega)
    rw [hd.first] at hfirst
    rw [List.append_nil]
    exact .ifElse htest hfirst (halternate (by omega))
  · intro w' hw' hconsequent b w c htest hlt hn
    rw [List.append_nil]
    exact .ifThen htest (hconsequent (by omega)) helse

theorem parseWhile_sound {s : Parser} (hkind : kindOf s.rest = some .while) :
    Sound s (parseWhile statement) fun w v t =>
      s.remaining < n + 1 → Statements .statement w (kindOf t.rest) v := by
  refine header_sound hkind fun a test t => (hstatement t).bind fun body t₁ => .pure ?_
  intro w' hw' hbody b w c htest hlt hn
  rw [List.append_nil]
  exact .while htest (hbody (by omega))

theorem parseFor_sound {s : Parser} (hkind : kindOf s.rest = some .for) :
    Sound s (parseFor statement) fun w v t =>
      s.remaining < n + 1 → Statements .statement w (kindOf t.rest) v := by
  refine .expectAny_bind_of_kind hkind fun a t => .expect_bind fun b t₁ => ?_
  refine (forInitializer_sound t₁).bind fun initializer t₂ => .expect_bind fun c t₃ => ?_
  refine (forPart_sound .semicolon t₃).bind fun test t₄ => .expect_bind fun d t₅ => ?_
  refine (forPart_sound .rightParen t₅).bind fun update t₆ => .expect_bind fun e t₇ => ?_
  refine (hstatement t₇).bind fun body t₈ => .pure ?_
  intro w₄ hw₄ hbody he w₃ hw₃ hupdate hd w₂ hw₂ htest hc w₁ hw₁ hinitializer hb ha hn
  have hlt := ha.lt
  have hle := (hb.trans (hw₁.trans (hc.trans (hw₂.trans (hd.trans (hw₃.trans he)))))).le
  rw [hc.first] at hinitializer
  rw [List.append_nil]
  exact .for hinitializer (htest hd.first) (hupdate he.first) (hbody (by omega))

theorem parseStatementWith_sound (s : Parser) : Sound s (parseStatementWith statement)
    fun w v t => s.remaining < n + 1 → Statements .statement w (kindOf t.rest) v := by
  have hvariable : ∀ kind, kindOf s.rest = some kind → isVariableKeyword (some kind) = true →
      Sound s (parseVariable true) fun w v t => s.remaining < n + 1 →
        Statements .statement w (kindOf t.rest) v := by
    intro kind hfirst hkind
    refine (parseVariable_sound hfirst hkind true).mono fun w v t _ htokens _ => ?_
    obtain ⟨token, w', semi, declaration, rfl, htokens, hsemi, rfl⟩ := htokens
    exact .variable htokens hsemi
  have hexpression : kindOf s.rest ≠ some .leftBrace → Sound s parseExpressionStatement
      fun w v t => s.remaining < n + 1 → Statements .statement w (kindOf t.rest) v :=
    fun hfirst => (parseExpressionStatement_sound s).mono fun _ _ _ _ hw _ => hw hfirst
  refine .get_bind ?_
  rw [Parser.peekKind_eq]
  cases hfirst : kindOf s.rest with
  | none => exact hexpression (fun heq => by rw [hfirst] at heq; exact nomatch heq)
  | some kind =>
    cases kind with
    | «import» => exact (parseImport_sound hfirst).mono fun _ _ _ _ hw _ => hw
    | «export» => exact parseExport_sound hstatement hfirst
    | interface => exact (parseInterface_sound hfirst).mono fun _ _ _ _ hw _ => hw
    | type => exact (parseTypeAlias_sound hfirst).mono fun _ _ _ _ hw _ => hw
    | «class» => exact (parseClass_sound hfirst).mono fun _ _ _ _ hw _ => hw
    | function => exact parseFunction_sound hstatement hfirst
    | «let» | const | var => exact hvariable _ hfirst rfl
    | «return» => exact (parseReturn_sound hfirst).mono fun _ _ _ _ hw _ => hw
    | throw => exact (parseThrow_sound hfirst).mono fun _ _ _ _ hw _ => hw
    | «if» => exact parseIf_sound hstatement hfirst
    | «while» => exact parseWhile_sound hstatement hfirst
    | «for» => exact parseFor_sound hstatement hfirst
    | leftBrace => exact parseBlockStatement_sound hstatement s
    | semicolon => exact (parseEmpty_sound hfirst).mono fun _ _ _ _ hw _ => hw
    | _ => exact hexpression (fun heq => by rw [hfirst] at heq; exact nomatch heq)

end Sound

theorem parseStatementWithin_sound (fuel : ℕ) (s : Parser) : Sound s (parseStatementWithin fuel)
    fun w v t => s.remaining < fuel → Statements .statement w (kindOf t.rest) v := by
  induction fuel generalizing s with
  | zero => exact (parseExpressionStatement_sound s).mono fun _ _ _ _ _ hn => absurd hn (Nat.not_lt_zero _)
  | succ fuel ih => exact parseStatementWith_sound ih s

theorem parseStatement_sound (s : Parser) :
    Sound s parseStatement fun w v t => Statements .statement w (kindOf t.rest) v :=
  .get_bind ((parseStatementWithin_sound _ s).mono fun _ _ _ _ hw => hw (Nat.lt_succ_self _))

theorem programLoop_sound (turns : ℕ) (body : List Statement) (s : Parser) :
    Sound s (programLoop turns body) fun w v t => s.remaining < turns →
      t.rest = [] ∧ ∃ new, v = body ++ new ∧ Statements (.statements none) w none new := by
  induction turns generalizing body s with
  | zero => exact .pure fun hturns => absurd hturns (Nat.not_lt_zero _)
  | succ turns ih =>
    refine .get_bind ?_
    by_cases hend : s.isAtEnd = true
    · rw [if_pos hend]
      exact .pure fun _ => ⟨Parser.isAtEnd_iff.mp hend, [], (List.append_nil _).symm, .nil⟩
    · rw [if_neg hend]
      refine (parseStatement_sound s).bind fun statement t => .get_bind ?_
      by_cases hcursor : t.cursor = s.cursor
      · simp only [if_pos hcursor]
        refine .errorHere_bind fun t => Sound.advance.bind fun _ t₁ => ?_
        exact (ih _ t₁).mono fun _ _ _ _ _ _ _ _ => trivial
      · simp only [if_neg hcursor]
        refine (ih _ t).mono fun w v u hread hw x hx hstatement hturns => ?_
        have hpos := List.length_pos_iff.mpr (statement_first hstatement rfl).1
        have hremaining := hx.remaining
        obtain ⟨hrest, new, rfl, hnew⟩ := hw (by omega)
        refine ⟨hrest, statement :: new, by simp, .cons ?_ hnew⟩
        have hfollow := hread.follow
        rw [hrest] at hfollow
        rw [hfollow] at hstatement
        exact hstatement

section PartRuns

variable {s t : Parser} {w : List Token}

theorem optionalType_run {ty : Option TypeNode} (hread : s.Reads w t)
    (h : OptionalType w (kindOf t.rest) ty) : optionalType s = (ty, t) := by
  cases h with
  | absent hcolon =>
    rw [hread.nil_eq] at hcolon ⊢
    exact run_bind (matchKind_run_false hcolon) rfl
  | present hty =>
    obtain ⟨t₁, ha, hw⟩ := hread.uncons
    exact run_bind (matchKind_run ha) (run_bind (parseAnyType_run hw hty) rfl)

theorem optionalInitializer_run {initializer : Option Expression} (hread : s.Reads w t)
    (h : OptionalInitializer w (kindOf t.rest) initializer) :
    optionalInitializer s = (initializer, t) := by
  cases h with
  | absent hequals =>
    rw [hread.nil_eq] at hequals ⊢
    exact run_bind (matchKind_run_false hequals) rfl
  | present hvalue =>
    obtain ⟨t₁, ha, hw⟩ := hread.uncons
    exact run_bind (matchKind_run ha) (run_bind (parseExpression_run hw hvalue) rfl)

theorem parameter_run {v : Option Parameter × Bool} (hread : s.Reads w t)
    (h : ParameterTokens w (kindOf t.rest) v) : parameter s = (v, t) := by
  cases h with
  | last hty hcomma =>
    obtain ⟨t₁, ha, hw⟩ := hread.uncons
    refine run_get (run_bind (consumeIdentifier_run _ ha) ?_)
    refine run_bind (optionalType_run hw hty) (run_get ?_)
    rw [ha.currentStart, hw.previousEnd, ha.previousEnd]
    exact run_bind (matchKind_run_false hcomma) rfl
  | more hty =>
    obtain ⟨t₁, ha, hread⟩ := hread.uncons
    obtain ⟨t₂, hw, hb⟩ := hread.split
    refine run_get (run_bind (consumeIdentifier_run _ ha) ?_)
    refine run_bind (optionalType_run hw (hb.first ▸ hty)) (run_get ?_)
    rw [ha.currentStart, hw.previousEnd, ha.previousEnd]
    exact run_bind (matchKind_run hb) rfl

theorem classMember_run {v : Option ClassMember × Bool} (hread : s.Reads w t)
    (h : ClassMemberTokens w (kindOf t.rest) v) : classMember s = (v, t) := by
  cases h with
  | mk hty hinitializer hsemicolon =>
    obtain ⟨t₁, ha, hread⟩ := hread.uncons
    obtain ⟨t₂, hw, hread⟩ := hread.split
    obtain ⟨t₃, hw', hsemi⟩ := hread.split
    rw [← hsemi.follow] at hty hinitializer
    rw [← hw'.follow] at hty
    refine run_get (run_bind (consumeIdentifier_run _ ha) ?_)
    refine run_bind (optionalType_run hw hty) (run_bind (optionalInitializer_run hw' hinitializer) ?_)
    refine closing_run hsemi hsemicolon ?_
    rw [ha.currentStart, hw'.previousEnd, hw.previousEnd, ha.previousEnd]
    rfl

theorem importName_run {v : Option String × Bool} (hread : s.Reads w t)
    (h : ImportTokens w (kindOf t.rest) v) : (do
      let name ← consumeIdentifier "import binding"
      let goOn ← matchKind .comma
      pure (name, goOn) : Parse (Option String × Bool)) s = (v, t) := by
  cases h with
  | last hcomma =>
    exact run_bind (consumeIdentifier_run _ hread) (run_bind (matchKind_run_false hcomma) rfl)
  | more =>
    obtain ⟨t₁, ha, hb⟩ := hread.uncons
    exact run_bind (consumeIdentifier_run _ ha) (run_bind (matchKind_run hb) rfl)

theorem parseTypeMembers_run {c d : Span} {members : List TypeMember}
    (hread : s.Reads (⟨.leftBrace, c⟩ :: (w ++ [⟨.rightBrace, d⟩])) t)
    (h : Types .members w (some .rightBrace) members) : parseTypeMembers s = (members, t) := by
  obtain ⟨t₁, hc, hread⟩ := hread.uncons
  obtain ⟨t₂, hw, hd⟩ := hread.split
  have hlisted : Listed .rightBrace MemberTokens w (some .rightBrace) members := typeLoop h
  rw [← hd.first] at hlisted
  have hturn := typeMember_run (n := t₁.remaining) fun s w v t _ hread hty =>
    parseAnyType_run hread hty
  refine run_bind (expect_run _ hc) ?_
  refine run_bind (listUntil_run hturn hw (Nat.lt_succ_self _) hlisted) ?_
  exact run_bind (expect_run _ hd) rfl

theorem parseVariable_run (consumeSemicolon : Bool) {token : Token} {semi : List Token}
    {declaration : VariableDeclaration} (hread : s.Reads (token :: (w ++ semi)) t)
    (hvariable : VariableTokens (token :: w) (follow semi (kindOf t.rest)) declaration)
    (hsemi : if consumeSemicolon then Semicolon semi (kindOf t.rest) else semi = []) :
    parseVariable consumeSemicolon s =
      (.variable declaration ⟨token.span.start, lastEnd semi (lastEnd w token.span.end)⟩, t) := by
  cases hvariable with
  | @mk kind a name b w w' next ty initializer hkind hty hinitializer =>
    obtain ⟨t₁, ha, hread⟩ := hread.uncons
    obtain ⟨t₂, hww', hend⟩ := hread.split
    obtain ⟨t₃, hb, hww'⟩ := hww'.uncons
    obtain ⟨t₄, hw, hw'⟩ := hww'.split
    rw [← hend.follow] at hty hinitializer
    rw [← hw'.follow] at hty
    refine run_bind (expectAny_run _ ha) (run_bind (consumeIdentifier_run _ hb) ?_)
    refine run_bind (optionalType_run hw hty) (run_bind (optionalInitializer_run hw' hinitializer) ?_)
    cases consumeSemicolon with
    | true =>
      refine closing_run hend hsemi ?_
      rw [hw'.previousEnd, hw.previousEnd, hb.previousEnd]
      simp
      rfl
    | false =>
      rw [if_neg Bool.false_ne_true] at hsemi
      subst hsemi
      rw [hend.nil_eq]
      refine run_pure (run_bind (v := t₂.previousEnd a.start) rfl ?_)
      rw [hw'.previousEnd, hw.previousEnd, hb.previousEnd]
      simp
      rfl

theorem kindOf_rest_ne_of_starts {next : Next} {value : Expression} {kind : TokenKind}
    (hread : s.Reads w t) (h : Expressions .expression w next value)
    (hkind : startsExpression kind = false) : kindOf s.rest ≠ some kind := by
  have hfirst := kindOf_ne_of_starts h hkind
  obtain ⟨token, w', rfl, _⟩ := expression_starts h
  rw [hread.first]
  exact hfirst

theorem forInitializer_run {initializer : Option Statement} (hread : s.Reads w t)
    (h : ForInitializer w (kindOf t.rest) initializer) : forInitializer s = (initializer, t) := by
  cases h with
  | absent => exact run_bind (matchKind_run hread) rfl
  | @declaration token w _ declaration hvariable =>
    have hkeyword : isVariableKeyword s.peekKind = true := by
      rw [Parser.peekKind_eq, hread.first]
      cases hvariable with
      | mk hkind => exact hkind
    have hsemicolon : kindOf s.rest ≠ some .semicolon := by
      rw [← Parser.peekKind_eq]
      intro heq
      rw [heq] at hkeyword
      exact nomatch hkeyword
    have hread' : s.Reads (token :: (w ++ [])) t := by
      rw [List.append_nil]
      exact hread
    have hdeclaration := parseVariable_run false hread' hvariable rfl
    refine run_bind (matchKind_run_false hsemicolon) (run_get ?_)
    rw [if_pos hkeyword]
    exact run_bind hdeclaration rfl
  | expression hvalue =>
    have hkeyword : ¬ isVariableKeyword s.peekKind = true := by
      rw [Parser.peekKind_eq, isVariableKeyword, Bool.or_eq_true_iff, Bool.or_eq_true_iff,
        decide_eq_true_iff, decide_eq_true_iff, decide_eq_true_iff]
      rintro ((hlet | hconst) | hvar)
      · exact kindOf_rest_ne_of_starts hread hvalue rfl hlet
      · exact kindOf_rest_ne_of_starts hread hvalue rfl hconst
      · exact kindOf_rest_ne_of_starts hread hvalue rfl hvar
    have hsemicolon : kindOf s.rest ≠ some .semicolon := kindOf_rest_ne_of_starts hread hvalue rfl
    refine run_bind (matchKind_run_false hsemicolon) (run_get ?_)
    rw [if_neg hkeyword]
    exact run_bind (run_bind (parseExpression_run hread hvalue) rfl) rfl

theorem forPart_run {close : TokenKind} {part : Option Expression} (hread : s.Reads w t)
    (hclose : kindOf t.rest = some close) (hstart : startsExpression close = false)
    (h : ForPart close w part) : forPart close s = (part, t) := by
  cases h with
  | absent =>
    rw [hread.nil_eq] at hclose ⊢
    refine run_get ?_
    rw [if_pos (Parser.check_iff.mpr hclose)]
    rfl
  | present hvalue =>
    have hcheck : ¬ s.check close = true := by
      rw [Parser.check_iff]
      exact kindOf_rest_ne_of_starts hread hvalue hstart
    refine run_get ?_
    rw [if_neg hcheck]
    exact run_bind (parseExpression_run hread (hclose ▸ hvalue)) rfl

end PartRuns

/-- The statements of a block as turns of its loop. -/
def StatementLoop : (c : StatementForm) → List Token → Next → c.Value → Prop
  | .statement, _, _, _ => True
  | .statements stop, w, next, body => stop = some .rightBrace →
    Listed .rightBrace BlockTokens w next body

theorem statementLoop {c : StatementForm} {w : List Token} {next : Next} {v : c.Value}
    (h : Statements c w next v) : StatementLoop c w next v := by
  induction h with
  | nil =>
    intro hstop
    rw [hstop]
    exact .nil
  | cons hstatement _ _ ih =>
    intro hstop
    obtain ⟨hne, hclose⟩ := statement_first hstatement rfl
    exact .more hne hclose (BlockTokens.mk hstatement) (ih hstop)
  | _ => trivial

section Runs

variable {statement : Parse Statement} {n : ℕ} (hstatement : ∀ s w v t, s.remaining < n →
  s.Reads w t → Statements .statement w (kindOf t.rest) v → statement s = (v, t))

include hstatement

theorem blockBody_run {s t : Parser} {a b : Span} {w : List Token} {body : List Statement}
    (hn : s.remaining < n + 1) (hread : s.Reads (⟨.leftBrace, a⟩ :: (w ++ [⟨.rightBrace, b⟩])) t)
    (h : Statements (.statements (some .rightBrace)) w (some .rightBrace) body) :
    parseBlockBody statement s = ((body, ⟨a.start, b.end⟩), t) := by
  obtain ⟨t₁, ha, hread⟩ := hread.uncons
  obtain ⟨t₂, hw, hb⟩ := hread.split
  have hlt := ha.lt
  have hlisted := statementLoop h rfl
  rw [← hb.first] at hlisted
  refine run_get (run_bind (expect_run _ ha) ?_)
  refine run_bind (listUntil_run (n := n) (fun s w v t hn hread hblock => ?_) hw (by omega) hlisted) ?_
  · cases hblock with
    | mk hinner => exact run_bind (hstatement s w _ t hn hread hinner) rfl
  · refine run_bind (expect_run _ hb) (run_get ?_)
    rw [ha.currentStart, hb.previousEnd]
    rfl

theorem parseStatementWith_run {s t : Parser} {w : List Token} {v : Statement}
    (hn : s.remaining < n + 1) (hread : s.Reads w t)
    (h : Statements .statement w (kindOf t.rest) v) : parseStatementWith statement s = (v, t) := by
  have hdispatch : ∀ {kind}, kindOf s.rest = some kind → s.peekKind = some kind := fun hkind => by
    rw [Parser.peekKind_eq, hkind]
  cases h with
  | imports hnames hsemicolon =>
    refine run_get ?_
    rw [hdispatch hread.first]
    obtain ⟨t₁, ha, hread⟩ := hread.uncons
    obtain ⟨t₂, hb, hread⟩ := hread.uncons
    obtain ⟨t₃, hw, hread⟩ := hread.split
    obtain ⟨t₄, hc, hread⟩ := hread.uncons
    obtain ⟨t₅, hd, hread⟩ := hread.uncons
    obtain ⟨t₆, he, hsemi⟩ := hread.uncons
    rw [← hc.first] at hnames
    refine run_bind (expectAny_run _ ha) (run_bind (matchKind_run hb) ?_)
    refine run_bind (listUntil_run_of_turns (fun _ _ _ _ => importName_run) hw hnames) ?_
    refine run_bind (expect_run _ hc) (run_pure (run_bind (expect_run _ hd) ?_))
    refine run_bind (advance_run he) (run_pure (closing_run hsemi hsemicolon ?_))
    rw [he.previousEnd]
    rfl
  | importDefault hsemicolon =>
    refine run_get ?_
    rw [hdispatch hread.first]
    obtain ⟨t₁, ha, hread⟩ := hread.uncons
    obtain ⟨t₂, hb, hread⟩ := hread.uncons
    obtain ⟨t₃, hd, hread⟩ := hread.uncons
    obtain ⟨t₄, he, hsemi⟩ := hread.uncons
    have hbrace : kindOf t₁.rest ≠ some .leftBrace := by
      rw [hb.first]
      exact fun heq => nomatch heq
    refine run_bind (expectAny_run _ ha) (run_bind (matchKind_run_false hbrace) ?_)
    refine run_bind (consumeIdentifier_run _ hb) (run_pure (run_bind (expect_run _ hd) ?_))
    refine run_bind (advance_run he) (run_pure (closing_run hsemi hsemicolon ?_))
    rw [he.previousEnd]
    rfl
  | «export» hinner =>
    refine run_get ?_
    rw [hdispatch hread.first]
    obtain ⟨t₁, ha, hw⟩ := hread.uncons
    have hlt := ha.lt
    refine run_bind (expectAny_run _ ha) ?_
    exact run_bind (hstatement t₁ _ _ t (by omega) hw hinner) rfl
  | interface hmembers =>
    refine run_get ?_
    rw [hdispatch hread.first]
    obtain ⟨t₁, ha, hread⟩ := hread.uncons
    obtain ⟨t₂, hb, hw⟩ := hread.uncons
    refine run_bind (expectAny_run _ ha) (run_bind (consumeIdentifier_run _ hb) ?_)
    refine run_bind (parseTypeMembers_run hw hmembers) (run_get ?_)
    rw [hw.previousEnd]
    simp
    rfl
  | typeAlias hty hsemicolon =>
    refine run_get ?_
    rw [hdispatch hread.first]
    obtain ⟨t₁, ha, hread⟩ := hread.uncons
    obtain ⟨t₂, hb, hread⟩ := hread.uncons
    obtain ⟨t₃, hc, hread⟩ := hread.uncons
    obtain ⟨t₄, hw, hsemi⟩ := hread.split
    refine run_bind (expectAny_run _ ha) (run_bind (consumeIdentifier_run _ hb) ?_)
    refine run_bind (expect_run _ hc) (run_bind (parseAnyType_run hw (hsemi.follow ▸ hty)) ?_)
    refine closing_run hsemi hsemicolon ?_
    rw [hw.previousEnd, hc.previousEnd]
    rfl
  | «class» hmembers =>
    refine run_get ?_
    rw [hdispatch hread.first]
    obtain ⟨t₁, ha, hread⟩ := hread.uncons
    obtain ⟨t₂, hb, hread⟩ := hread.uncons
    obtain ⟨t₃, hc, hread⟩ := hread.uncons
    obtain ⟨t₄, hw, hd⟩ := hread.split
    rw [← hd.first] at hmembers
    refine run_bind (expectAny_run _ ha) (run_bind (consumeIdentifier_run _ hb) ?_)
    refine run_bind (expect_run _ hc) ?_
    refine run_bind (listUntil_run_of_turns (fun _ _ _ _ => classMember_run) hw hmembers) ?_
    refine run_bind (expect_run _ hd) (run_get ?_)
    rw [hd.previousEnd]
    rfl
  | @function a b c d e f name w w' w'' _ params returnType body hparams hreturn hbody =>
    refine run_get ?_
    rw [hdispatch hread.first]
    obtain ⟨t₁, ha, hread⟩ := hread.uncons
    obtain ⟨t₂, hb, hread⟩ := hread.uncons
    obtain ⟨t₃, hc, hread⟩ := hread.uncons
    obtain ⟨t₄, hw, hread⟩ := hread.split
    obtain ⟨t₅, hd, hread⟩ := hread.uncons
    obtain ⟨t₆, hw', hblock⟩ := hread.split
    have hlt := ha.lt
    have hle := (hb.trans (hc.trans (hw.trans (hd.trans hw')))).le
    have hparameters : parseParameters t₂ = (params, t₅) := by
      rw [← hd.first] at hparams
      refine run_bind (expect_run _ hc) ?_
      refine run_bind (listUntil_run_of_turns (fun _ _ _ _ => parameter_run) hw hparams) ?_
      exact run_bind (expect_run _ hd) rfl
    refine run_bind (expectAny_run _ ha) (run_bind (consumeIdentifier_run _ hb) ?_)
    refine run_bind hparameters (run_bind (optionalType_run hw' (hblock.first ▸ hreturn)) ?_)
    exact run_bind (blockBody_run hstatement (by omega) hblock hbody) rfl
  | @«variable» token w semi _ declaration hvariable hsemicolon =>
    have hkeyword : isVariableKeyword (some token.kind) = true := by
      cases hvariable with
      | mk hkind => exact hkind
    refine run_get ?_
    rw [hdispatch hread.first]
    have hrun := parseVariable_run true hread hvariable hsemicolon
    cases hkind : token.kind with
    | «let» | const | var => exact hrun
    | _ =>
      rw [hkind] at hkeyword
      exact nomatch hkeyword
  | returnNothing hsemicolon hstop =>
    refine run_get ?_
    rw [hdispatch hread.first]
    obtain ⟨t₁, ha, hsemi⟩ := hread.uncons
    have hcheck : (t₁.check .semicolon || t₁.check .rightBrace) = true := by
      rw [Bool.or_eq_true_iff, Parser.check_iff, Parser.check_iff, hsemi.follow]
      exact hstop
    refine run_bind (expectAny_run _ ha) (run_get ?_)
    rw [if_pos hcheck]
    refine run_pure (closing_run hsemi hsemicolon ?_)
    rw [ha.previousEnd]
    rfl
  | «return» hvalue hsemicolon =>
    refine run_get ?_
    rw [hdispatch hread.first]
    obtain ⟨t₁, ha, hread⟩ := hread.uncons
    obtain ⟨t₂, hw, hsemi⟩ := hread.split
    have hcheck : ¬ (t₁.check .semicolon || t₁.check .rightBrace) = true := by
      rw [Bool.or_eq_true_iff, Parser.check_iff, Parser.check_iff]
      rintro (hstop | hstop)
      · exact kindOf_rest_ne_of_starts hw hvalue rfl hstop
      · exact kindOf_rest_ne_of_starts hw hvalue rfl hstop
    refine run_bind (expectAny_run _ ha) (run_get ?_)
    rw [if_neg hcheck]
    refine run_bind (parseExpression_run hw (hsemi.follow ▸ hvalue)) (run_pure ?_)
    refine closing_run hsemi hsemicolon ?_
    rw [hw.previousEnd, ha.previousEnd]
    rfl
  | throw hvalue hsemicolon =>
    refine run_get ?_
    rw [hdispatch hread.first]
    obtain ⟨t₁, ha, hread⟩ := hread.uncons
    obtain ⟨t₂, hw, hsemi⟩ := hread.split
    refine run_bind (expectAny_run _ ha) ?_
    refine run_bind (parseExpression_run hw (hsemi.follow ▸ hvalue)) ?_
    refine closing_run hsemi hsemicolon ?_
    rw [hw.previousEnd, ha.previousEnd]
    rfl
  | ifThen htest hconsequent helse =>
    refine run_get ?_
    rw [hdispatch hread.first]
    obtain ⟨t₁, ha, hread⟩ := hread.uncons
    obtain ⟨t₂, hb, hread⟩ := hread.uncons
    obtain ⟨t₃, hw, hread⟩ := hread.split
    obtain ⟨t₄, hc, hw'⟩ := hread.uncons
    have hlt := ha.lt
    have hle := (hb.trans (hw.trans hc)).le
    refine run_bind (expectAny_run _ ha) (run_bind (expect_run _ hb) ?_)
    refine run_bind (parseExpression_run hw (hc.first ▸ htest)) (run_bind (expect_run _ hc) ?_)
    refine run_bind (hstatement t₄ _ _ t (by omega) hw' hconsequent) ?_
    exact run_bind (matchKind_run_false helse) rfl
  | ifElse htest hconsequent halternate =>
    refine run_get ?_
    rw [hdispatch hread.first]
    obtain ⟨t₁, ha, hread⟩ := hread.uncons
    obtain ⟨t₂, hb, hread⟩ := hread.uncons
    obtain ⟨t₃, hw, hread⟩ := hread.split
    obtain ⟨t₄, hc, hread⟩ := hread.uncons
    obtain ⟨t₅, hw', hread⟩ := hread.split
    obtain ⟨t₆, hd, hw''⟩ := hread.uncons
    have hlt := ha.lt
    have hle := (hb.trans (hw.trans hc)).le
    have hle' := (hw'.trans hd).le
    refine run_bind (expectAny_run _ ha) (run_bind (expect_run _ hb) ?_)
    refine run_bind (parseExpression_run hw (hc.first ▸ htest)) (run_bind (expect_run _ hc) ?_)
    refine run_bind (hstatement t₄ _ _ t₅ (by omega) hw' (hd.first ▸ hconsequent)) ?_
    refine run_bind (matchKind_run hd) ?_
    exact run_bind (hstatement t₆ _ _ t (by omega) hw'' halternate) rfl
  | «while» htest hbody =>
    refine run_get ?_
    rw [hdispatch hread.first]
    obtain ⟨t₁, ha, hread⟩ := hread.uncons
    obtain ⟨t₂, hb, hread⟩ := hread.uncons
    obtain ⟨t₃, hw, hread⟩ := hread.split
    obtain ⟨t₄, hc, hw'⟩ := hread.uncons
    have hlt := ha.lt
    have hle := (hb.trans (hw.trans hc)).le
    refine run_bind (expectAny_run _ ha) (run_bind (expect_run _ hb) ?_)
    refine run_bind (parseExpression_run hw (hc.first ▸ htest)) (run_bind (expect_run _ hc) ?_)
    exact run_bind (hstatement t₄ _ _ t (by omega) hw' hbody) rfl
  | «for» hinitializer htest hupdate hbody =>
    refine run_get ?_
    rw [hdispatch hread.first]
    obtain ⟨t₁, ha, hread⟩ := hread.uncons
    obtain ⟨t₂, hb, hread⟩ := hread.uncons
    obtain ⟨t₃, hw₁, hread⟩ := hread.split
    obtain ⟨t₄, hc, hread⟩ := hread.uncons
    obtain ⟨t₅, hw₂, hread⟩ := hread.split
    obtain ⟨t₆, hd, hread⟩ := hread.uncons
    obtain ⟨t₇, hw₃, hread⟩ := hread.split
    obtain ⟨t₈, he, hw₄⟩ := hread.uncons
    have hlt := ha.lt
    have hle := (hb.trans (hw₁.trans (hc.trans (hw₂.trans (hd.trans (hw₃.trans he)))))).le
    refine run_bind (expectAny_run _ ha) (run_bind (expect_run _ hb) ?_)
    refine run_bind (forInitializer_run hw₁ (hc.first ▸ hinitializer)) (run_bind (expect_run _ hc) ?_)
    refine run_bind (forPart_run hw₂ hd.first rfl htest) (run_bind (expect_run _ hd) ?_)
    refine run_bind (forPart_run hw₃ he.first rfl hupdate) (run_bind (expect_run _ he) ?_)
    exact run_bind (hstatement t₈ _ _ t (by omega) hw₄ hbody) rfl
  | block hbody =>
    refine run_get ?_
    rw [hdispatch hread.first]
    exact run_bind (blockBody_run hstatement hn hread hbody) rfl
  | empty =>
    refine run_get ?_
    rw [hdispatch hread.first]
    exact run_bind (advance_run hread) rfl
  | @expression w semi _ value hvalue hbrace hsemicolon =>
    obtain ⟨t₁, hw, hsemi⟩ := hread.split
    have hrun : parseExpressionStatement s = (.expression value value.span, t) := by
      obtain ⟨closed, hclosed⟩ := semicolon_run hsemi hsemicolon
      refine run_bind (run_bind (parseExpression_run hw (hsemi.follow ▸ hvalue)) rfl) ?_
      exact run_bind hclosed rfl
    refine run_get ?_
    rw [Parser.peekKind_eq]
    cases hfirst : kindOf s.rest with
    | none => exact hrun
    | some kind =>
      cases kind with
      | «import» | «export» | interface | type | «class» | function | «let» | const | var | «return»
      | throw | «if» | «while» | «for» | semicolon =>
        exact absurd hfirst (kindOf_rest_ne_of_starts hw hvalue rfl)
      | leftBrace =>
        obtain ⟨token, w', rfl, _⟩ := expression_starts hvalue
        rw [hw.first] at hfirst
        exact absurd hfirst hbrace
      | _ => exact hrun

end Runs

theorem parseStatementWithin_run (fuel : ℕ) (s : Parser) (w : List Token) (v : Statement) (t : Parser)
    (hfuel : s.remaining < fuel) (hread : s.Reads w t)
    (h : Statements .statement w (kindOf t.rest) v) : parseStatementWithin fuel s = (v, t) := by
  induction fuel generalizing s w v t with
  | zero => exact absurd hfuel (Nat.not_lt_zero _)
  | succ fuel ih => exact parseStatementWith_run ih hfuel hread h

theorem parseStatement_run {s t : Parser} {w : List Token} {v : Statement} (hread : s.Reads w t)
    (h : Statements .statement w (kindOf t.rest) v) : parseStatement s = (v, t) :=
  run_get (parseStatementWithin_run _ s w v t (Nat.lt_succ_self _) hread h)

/-- What the loop over a program does on statements up to the end of the tokens. -/
def ProgramLoop : (c : StatementForm) → List Token → Next → c.Value → Prop
  | .statement, _, _, _ => True
  | .statements stop, w, next, new => stop = none → ∀ turns body s t, s.remaining < turns →
    s.Reads w t → kindOf t.rest = next → programLoop turns body s = (body ++ new, t)

theorem kindOf_eq_none {w : List Token} (h : kindOf w = none) : w = [] := by
  rw [kindOf, Option.map_eq_none_iff, List.head?_eq_none_iff] at h
  exact h

theorem programLoop_run {c : StatementForm} {w : List Token} {next : Next} {v : c.Value}
    (h : Statements c w next v) : ProgramLoop c w next v := by
  induction h with
  | nil =>
    intro hstop turns body s t hturns hread hnext
    obtain ⟨turns, rfl⟩ := Nat.exists_eq_add_of_lt hturns
    rw [hread.nil_eq] at hnext ⊢
    refine run_get ?_
    rw [if_pos (Parser.isAtEnd_iff.mpr (kindOf_eq_none (hnext.trans hstop))), List.append_nil]
    rfl
  | @cons stop w w' next statement new hstatement hbody _ ih =>
    intro hstop turns body s t hturns hread hnext
    obtain ⟨turns, rfl⟩ := Nat.exists_eq_add_of_le' (show 1 ≤ turns by omega)
    obtain ⟨t₁, hw, hread⟩ := hread.split
    have hne := (statement_first hstatement rfl).1
    have hpos := List.length_pos_iff.mpr hne
    have hremaining := hw.remaining
    have hcursor : t₁.cursor ≠ s.cursor := by
      rw [hw.cursor]
      omega
    have hend : ¬ s.isAtEnd = true := by
      intro hend
      have hrest := hw.rest
      rw [Parser.isAtEnd_iff.mp hend] at hrest
      exact hne (List.append_eq_nil_iff.mp hrest.symm).1
    rw [← hnext, ← hread.follow] at hstatement
    refine run_get ?_
    rw [if_neg hend]
    refine run_bind (parseStatement_run hw hstatement) (run_get ?_)
    simp only [if_neg hcursor]
    have hloop := ih hstop turns (body ++ [statement]) t₁ t (by omega) hread hnext
    rw [List.append_assoc] at hloop
    exact hloop
  | _ => trivial

/-- A program is parsed without diagnostics exactly to the statements its tokens derive. -/
theorem parseProgram_iff (tokens : List Token) (body : List Statement) :
    ((parseProgram tokens).diagnostics = [] ∧ (parseProgram tokens).program.body = body) ↔
      Statements (.statements none) tokens none body := by
  have hsound := programLoop_sound (tokens.length + 1) [] ⟨tokens, 0, []⟩
  constructor
  · rintro ⟨hclean, hbody⟩
    obtain ⟨w, hread⟩ := hsound.advances.reads hclean
    obtain ⟨hrest, new, hnew, hstatements⟩ := hsound.clean w hread (Nat.lt_succ_self _)
    have htokens : tokens = w := by
      have hread := hread.rest
      rw [hrest, List.append_nil] at hread
      exact hread
    subst htokens
    rw [← hbody]
    change Statements (.statements none) tokens none (programLoop (tokens.length + 1) [] ⟨tokens, 0, []⟩).1
    rw [hnew]
    exact hstatements
  · intro h
    have hread : Parser.Reads ⟨tokens, 0, []⟩ tokens ⟨tokens, tokens.length, []⟩ := by
      refine ⟨?_, rfl, (Nat.zero_add _).symm, rfl⟩
      rw [Parser.rest, Parser.rest, List.drop_length, List.append_nil]
      rfl
    have hend : kindOf (Parser.rest ⟨tokens, tokens.length, []⟩) = none := by
      rw [Parser.rest, List.drop_length]
      rfl
    have hrun := programLoop_run h rfl (tokens.length + 1) [] _ _ (Nat.lt_succ_self _) hread hend
    have hstate : (programLoop (tokens.length + 1) []).run ⟨tokens, 0, []⟩ =
        (body, ⟨tokens, tokens.length, []⟩) := hrun
    rw [parseProgram]
    simp only [hstate]
    exact ⟨trivial, trivial⟩

end Tsvm.Grammar
