import Tsvm.ParserProgress

set_option autoImplicit false

/-!
# The parser ends

The statements' part of the parser's progress, and the program's. Every recursion and every
loop of the parser goes down in the tokens that are left, so that each ends.
-/
namespace Tsvm.Parsing
open Ast Lexing MeasuredRecursion

variable {α β : Type} {k : ℕ}

def importBinding : Parse (Option String × Bool) := do
  let name ← consumeIdentifier "import binding"
  let goOn ← matchKind .comma
  pure (name, goOn)

theorem importBinding_consumes : Consumes course k importBinding importBinding :=
  (consumeIdentifier_consumes _).bind fun _ => (agree_matchKind _).bind fun _ => agree_pure _

theorem closing_agree {f' g' : Position → Parse β} (start : Position)
    (h : ∀ position, Agree course k (f' position) (g' position)) : Agree course k
      (do f' (← endOrPrevious (← consumeOptionalSemicolon) start))
      (do g' (← endOrPrevious (← consumeOptionalSemicolon) start)) :=
  agree_consumeOptionalSemicolon.bind fun found => (agree_endOrPrevious found start).bind h

theorem parseImport_consumes : Consumes course k parseImport parseImport := by
  refine (expectAny_consumes _).bind fun token => (agree_matchKind _).bind fun found => ?_
  extract_lets rest
  have hspecifier : ∀ names specifier, Agree course k
      (do pure (Statement.import ⟨names, specifier⟩ ⟨token.span.start,
        ← endOrPrevious (← consumeOptionalSemicolon) token.span.start⟩))
      (do pure (Statement.import ⟨names, specifier⟩ ⟨token.span.start,
        ← endOrPrevious (← consumeOptionalSemicolon) token.span.start⟩)) := fun names specifier =>
    closing_agree _ fun _ => agree_pure _
  have hrest : ∀ names, Agree course k (rest names) (rest names) := by
    intro names
    refine (agree_expect _ _).bind fun _ => agree_advance.bind fun found => ?_
    split
    · exact hspecifier names _
    · exact (agree_errorAt _ _).bind fun _ => hspecifier names _
    · exact (agree_errorHere _).bind fun _ => hspecifier names _
  refine Agree.ite ?_ ?_
  · exact (listUntil_agree importBinding_consumes.agree).bind fun names =>
      (agree_expect _ _).bind fun _ => hrest names
  · exact (consumeIdentifier_consumes _).agree.bind fun name => hrest name.toList

theorem parseInterface_consumes : Consumes course k parseInterface parseInterface :=
  (expectAny_consumes _).bind fun _ => (consumeIdentifier_consumes _).agree.bind fun _ =>
    parseTypeMembers_agree.bind fun _ => agree_get_bind fun _ => agree_pure _

theorem parseTypeAlias_consumes : Consumes course k parseTypeAlias parseTypeAlias :=
  (expectAny_consumes _).bind fun _ => (consumeIdentifier_consumes _).agree.bind fun _ =>
    (agree_expect _ _).bind fun _ => parseAnyType_agree.bind fun _ =>
      closing_agree _ fun _ => agree_pure _

def synchronizeStep (again : Unit → Parse Unit) (_ : Unit) : Parse Unit := do
  if (← get).isAtEnd then pure ()
  else if ← matchKind .semicolon then pure ()
  else if ← matchKind .comma then pure ()
  else if (← get).check .rightBrace then pure ()
  else do
    let _ ← advance
    again ()

theorem synchronizeStep_shrinks : Shrinks course synchronizeStep := by
  intro k again again' hagain i s hs
  change (if s.isAtEnd = true then _ else _ : Parse Unit) s =
      (if s.isAtEnd = true then _ else _ : Parse Unit) s ∧
    s.Advances ((if s.isAtEnd = true then _ else _ : Parse Unit) s).2
  have hpure : ∀ t, (pure () : Parse Unit) t = (pure () : Parse Unit) t ∧
      t.Advances ((pure () : Parse Unit) t).2 := fun t => ⟨rfl, Parser.Advances.refl t⟩
  by_cases hend : s.isAtEnd = true
  · rw [if_pos hend, if_pos hend]
    exact hpure s
  · rw [if_neg hend, if_neg hend]
    have hpos := (left_pos_iff s).mpr (Bool.eq_false_iff.mpr hend)
    refine matchKind_at (fun t _ => hpure t) (matchKind_at (fun t _ => hpure t) ?_)
    change (if s.check .rightBrace = true then _ else _ : Parse Unit) s =
        (if s.check .rightBrace = true then _ else _ : Parse Unit) s ∧
      s.Advances ((if s.check .rightBrace = true then _ else _ : Parse Unit) s).2
    by_cases hbrace : s.check .rightBrace = true
    · rw [if_pos hbrace, if_pos hbrace]
      exact hpure s
    · rw [if_neg hbrace, if_neg hbrace]
      obtain ⟨hsame, hbefore, _⟩ := @takes_advance_bind _ k (fun _ => again ()) (fun _ => again' ())
        (fun _ => hagain ()) s hpos (Nat.le_of_lt_succ hs)
      exact ⟨hsame, hbefore⟩

theorem synchronize_descends : Descends course synchronizeStep
    fun _ s => synchronizeMember (s.remaining + 1) s :=
  @descends_of_budget _ _ _ course _ (fun n (_ : Unit) => synchronizeMember n)
    synchronizeStep_shrinks fun _ _ => rfl

theorem synchronizeMember_agree (n : ℕ) :
    Agree course k (synchronizeMember n) (synchronizeMember n) := by
  induction n generalizing k with
  | zero => exact agree_pure ()
  | succ n ih => exact (synchronizeStep_shrinks k _ _ (fun _ => ih) ()).mono (Nat.le_succ k)

theorem classMember_consumes : Consumes course k classMember classMember := by
  refine consumes_get_bind fun s => (consumeIdentifier_consumes _).bind fun name => ?_
  cases name with
  | none => exact agree_get_bind fun t => (synchronizeMember_agree _).bind fun _ => agree_pure _
  | some name =>
    exact optionalType_agree.bind fun _ => optionalInitializer_agree.bind fun _ =>
      closing_agree _ fun _ => agree_pure _

theorem parseClass_consumes : Consumes course k parseClass parseClass :=
  (expectAny_consumes _).bind fun _ => (consumeIdentifier_consumes _).agree.bind fun _ =>
    (agree_expect _ _).bind fun _ => (listUntil_agree classMember_consumes.agree).bind fun _ =>
      (agree_expect _ _).bind fun _ => agree_get_bind fun _ => agree_pure _

theorem parameter_consumes : Consumes course k parameter parameter :=
  consumes_get_bind fun _ => (consumeIdentifier_consumes _).bind fun _ =>
    optionalType_agree.bind fun _ => agree_get_bind fun _ => (agree_matchKind _).bind fun _ =>
      agree_pure _

theorem parseParameters_agree : Agree course k parseParameters parseParameters :=
  (agree_expect _ _).bind fun _ => (listUntil_agree parameter_consumes.agree).bind fun _ =>
    (agree_expect _ _).bind fun _ => agree_pure _

theorem parseVariable_consumes (consumeSemicolon : Bool) :
    Consumes course k (parseVariable consumeSemicolon) (parseVariable consumeSemicolon) := by
  refine (expectAny_consumes _).bind fun token => (consumeIdentifier_consumes _).agree.bind fun _ =>
    optionalType_agree.bind fun _ => optionalInitializer_agree.bind fun _ => Agree.ite ?_ ?_
  · exact closing_agree _ fun _ => agree_pure _
  · exact (agree_pure none).bind fun found => (agree_endOrPrevious found _).bind fun _ => agree_pure _

theorem parseReturn_consumes : Consumes course k parseReturn parseReturn := by
  refine (expectAny_consumes _).bind fun _ => agree_get_bind fun s => Agree.ite ?_ ?_
  · exact (agree_pure none).bind fun _ => closing_agree _ fun _ => agree_pure _
  · exact (parseExpression_agree k).bind fun value => (agree_pure (some value)).bind fun _ =>
      closing_agree _ fun _ => agree_pure _

theorem parseThrow_consumes : Consumes course k parseThrow parseThrow :=
  (expectAny_consumes _).bind fun _ => (parseExpression_agree k).bind fun _ =>
    closing_agree _ fun _ => agree_pure _

theorem parseExpressionStatementWithoutSemicolon_consumes :
    Consumes course k parseExpressionStatementWithoutSemicolon
      parseExpressionStatementWithoutSemicolon :=
  (parseExpression_consumes k).bind fun _ => agree_pure _

theorem parseExpressionStatement_consumes :
    Consumes course k parseExpressionStatement parseExpressionStatement :=
  parseExpressionStatementWithoutSemicolon_consumes.bind fun _ =>
    agree_consumeOptionalSemicolon.bind fun _ => agree_pure _

section Statements

variable {statement statement' : Parse Statement}

theorem parseExport_takes (h : Agree course k statement statement') :
    Takes course k (parseExport statement) (parseExport statement') :=
  (expectAny_consumes _).takes.bind fun _ => h.bind fun _ => agree_pure _

def blockTurn (statement : Parse Statement) : Parse (Option Statement × Bool) := do
  let inner ← statement
  pure (some inner, true)

theorem blockTurn_agree (h : Agree course k statement statement') :
    Agree course k (blockTurn statement) (blockTurn statement') := h.bind fun _ => agree_pure _

theorem blockTurn_takes (h : Takes course k statement statement') :
    Takes course k (blockTurn statement) (blockTurn statement') := h.bind fun _ => agree_pure _

theorem afterBrace_agree (h : Agree course k statement statement') (start : Position) :
    Agree course k
      (do
        let body ← listUntil .rightBrace (blockTurn statement)
        expect .rightBrace "block end"
        pure (body, (⟨start, (← get).previousEnd start⟩ : Span)))
      (do
        let body ← listUntil .rightBrace (blockTurn statement')
        expect .rightBrace "block end"
        pure (body, (⟨start, (← get).previousEnd start⟩ : Span))) :=
  (listUntil_agree (blockTurn_agree h)).bind fun _ => (agree_expect _ _).bind fun _ =>
    agree_get_bind fun _ => agree_pure _

theorem parseBlockBody_agree (h : Agree course k statement statement') :
    Agree course k (parseBlockBody statement) (parseBlockBody statement') :=
  agree_get_bind fun s => (agree_expect _ _).bind fun _ => afterBrace_agree h s.currentStart

theorem parseFunction_takes (h : Agree course k statement statement') :
    Takes course k (parseFunction statement) (parseFunction statement') :=
  (expectAny_consumes _).takes.bind fun _ => (consumeIdentifier_consumes _).agree.bind fun _ =>
    parseParameters_agree.bind fun _ => optionalType_agree.bind fun _ =>
      (parseBlockBody_agree h).bind fun _ => agree_pure _

theorem parseIf_takes (h : Agree course k statement statement') :
    Takes course k (parseIf statement) (parseIf statement') := by
  refine (expectAny_consumes _).takes.bind fun _ => (agree_expect _ _).bind fun _ =>
    (parseExpression_agree k).bind fun _ => (agree_expect _ _).bind fun _ => h.bind fun _ =>
      (agree_matchKind _).bind fun _ => Agree.ite ?_ ?_
  · exact h.bind fun _ => agree_pure _
  · exact (agree_pure none).bind fun _ => agree_pure _

theorem parseWhile_takes (h : Agree course k statement statement') :
    Takes course k (parseWhile statement) (parseWhile statement') :=
  (expectAny_consumes _).takes.bind fun _ => (agree_expect _ _).bind fun _ =>
    (parseExpression_agree k).bind fun _ => (agree_expect _ _).bind fun _ => h.bind fun _ =>
      agree_pure _

theorem forInitializer_agree : Agree course k forInitializer forInitializer := by
  refine (agree_matchKind _).bind fun _ => Agree.ite (agree_pure none) ?_
  refine agree_get_bind fun s => Agree.ite ?_ ?_
  · exact (parseVariable_consumes false).agree.bind fun _ => agree_pure _
  · exact parseExpressionStatementWithoutSemicolon_consumes.agree.bind fun _ => agree_pure _

theorem forPart_agree (close : TokenKind) : Agree course k (forPart close) (forPart close) := by
  refine agree_get_bind fun s => Agree.ite (agree_pure none) ?_
  exact (parseExpression_agree k).bind fun _ => agree_pure _

theorem parseFor_takes (h : Agree course k statement statement') :
    Takes course k (parseFor statement) (parseFor statement') :=
  (expectAny_consumes _).takes.bind fun _ => (agree_expect _ _).bind fun _ =>
    forInitializer_agree.bind fun _ => (agree_expect _ _).bind fun _ =>
      (forPart_agree _).bind fun _ => (agree_expect _ _).bind fun _ =>
        (forPart_agree _).bind fun _ => (agree_expect _ _).bind fun _ => h.bind fun _ =>
          agree_pure _

theorem parseBlockBody_takesAt (h : Agree course k statement statement') {s : Parser}
    (hkind : s.peekKind = some .leftBrace) (hs : course.left s ≤ k) :
    TakesAt course s (parseBlockBody statement) (parseBlockBody statement') :=
  (expect_takesAt "block start" hkind).bind hs fun _ => afterBrace_agree h s.currentStart

theorem parseBlockStatement_takesAt (h : Agree course k statement statement') {s : Parser}
    (hkind : s.peekKind = some .leftBrace) (hs : course.left s ≤ k) :
    TakesAt course s (parseBlockStatement statement) (parseBlockStatement statement') :=
  (parseBlockBody_takesAt h hkind hs).bind hs fun _ => agree_pure _

theorem parseEmpty_consumes : Consumes course k parseEmpty parseEmpty := by
  refine consumes_advance_bind fun token => ?_
  cases token with
  | none => exact agree_get_bind fun _ => agree_get_bind fun _ => agree_pure _
  | some token => exact agree_pure _

/-- The function that `parse_statement` calls. -/
def statementOfKind (statement : Parse Statement) : Option TokenKind → Parse Statement
  | some .import => parseImport
  | some .export => parseExport statement
  | some .interface => parseInterface
  | some .type => parseTypeAlias
  | some .class => parseClass
  | some .function => parseFunction statement
  | some .let | some .const | some .var => parseVariable true
  | some .return => parseReturn
  | some .throw => parseThrow
  | some .if => parseIf statement
  | some .while => parseWhile statement
  | some .for => parseFor statement
  | some .leftBrace => parseBlockStatement statement
  | some .semicolon => parseEmpty
  | _ => parseExpressionStatement

theorem statementOfKind_takesAt (h : Agree course k statement statement') {s : Parser}
    {kind : TokenKind} (hkind : s.peekKind = some kind) (hs : course.left s ≤ k) :
    TakesAt course s (statementOfKind statement (some kind))
      (statementOfKind statement' (some kind)) := by
  have hpos := left_pos hkind
  cases kind with
  | «import» => exact parseImport_consumes.takes s hpos hs
  | «export» => exact parseExport_takes h s hpos hs
  | interface => exact parseInterface_consumes.takes s hpos hs
  | type => exact parseTypeAlias_consumes.takes s hpos hs
  | «class» => exact parseClass_consumes.takes s hpos hs
  | function => exact parseFunction_takes h s hpos hs
  | «let» => exact (parseVariable_consumes true).takes s hpos hs
  | const => exact (parseVariable_consumes true).takes s hpos hs
  | var => exact (parseVariable_consumes true).takes s hpos hs
  | «return» => exact parseReturn_consumes.takes s hpos hs
  | throw => exact parseThrow_consumes.takes s hpos hs
  | «if» => exact parseIf_takes h s hpos hs
  | «while» => exact parseWhile_takes h s hpos hs
  | «for» => exact parseFor_takes h s hpos hs
  | leftBrace => exact parseBlockStatement_takesAt h hkind hs
  | semicolon => exact parseEmpty_consumes.takes s hpos hs
  | _ => exact parseExpressionStatement_consumes.takes s hpos hs

theorem peekKind_of_pos {s : Parser} (h : 0 < course.left s) : ∃ kind, s.peekKind = some kind := by
  cases hrest : s.rest with
  | nil =>
    change 0 < s.remaining at h
    rw [Parser.remaining_eq, hrest] at h
    exact absurd h (Nat.lt_irrefl 0)
  | cons token rest => exact ⟨token.kind, by rw [Parser.peekKind_eq, hrest]; rfl⟩

/-- With a token left, a statement takes one. -/
theorem parseStatementWith_takes (h : Agree course k statement statement') :
    Takes course k (parseStatementWith statement) (parseStatementWith statement') := by
  intro s hpos hs
  obtain ⟨kind, hkind⟩ := peekKind_of_pos hpos
  have htakes := statementOfKind_takesAt h hkind hs
  rw [← hkind] at htakes
  exact htakes

theorem parseStatementWith_agree (h : Agree course k statement statement') :
    Agree course (k + 1) (parseStatementWith statement) (parseStatementWith statement') := by
  refine (parseStatementWith_takes h).agree fun s hs => ?_
  cases hkind : s.peekKind with
  | none =>
    have hexpression := (@parseExpressionStatement_consumes 1).agree s (by omega)
    change statementOfKind statement s.peekKind s = statementOfKind statement' s.peekKind s ∧
      s.Advances (statementOfKind statement s.peekKind s).2
    rw [hkind]
    exact hexpression
  | some kind =>
    have hpos := left_pos hkind
    omega

end Statements

theorem statements_descend : Descends course
    (fun statement (_ : Unit) => parseStatementWith (statement ())) fun _ => parseStatement :=
  @descends_of_budget _ _ _ course _ (fun n (_ : Unit) => parseStatementWithin n)
    (fun _ _ _ h _ => parseStatementWith_agree (h ())) fun _ _ => rfl

theorem parseStatement_agree (k : ℕ) : Agree course k parseStatement parseStatement :=
  statements_descend.agree statements_descend.solution k ()

theorem parseStatement_eq : parseStatement = parseStatementWith parseStatement :=
  funext fun s => statements_descend.solution () s

theorem parseStatement_takes (k : ℕ) : Takes course k parseStatement parseStatement := by
  rw [parseStatement_eq]
  exact parseStatementWith_takes (parseStatement_agree k)

/-- A turn of `parse_program`'s loop, with its guard against a statement without tokens. -/
def programStepOr (guard : Parse Unit) (again : List Statement → Parse (List Statement))
    (body : List Statement) : Parse (List Statement) := do
  let s ← get
  if s.isAtEnd then pure body
  else do
    let statement ← parseStatement
    if (← get).cursor = s.cursor then guard
    again (body ++ [statement])

def noProgress : Parse Unit := do
  errorHere "parser made no progress"
  let _ ← advance

def programStep : (List Statement → Parse (List Statement)) → List Statement →
    Parse (List Statement) := programStepOr noProgress

theorem programLoop_succ (n : ℕ) (body : List Statement) :
    programLoop (n + 1) body = programStep (programLoop n) body := rfl

section Program

variable (guard : Parse Unit) (again : List Statement → Parse (List Statement))
  (body : List Statement) {s : Parser}

theorem programStepOr_end (hend : s.isAtEnd = true) :
    programStepOr guard again body s = (body, s) := by
  change (if s.isAtEnd = true then _ else _ : Parse (List Statement)) s = _
  rw [if_pos hend]
  rfl

/-- A statement has taken a token, so the guard is not met. -/
theorem programStepOr_statement (hend : s.isAtEnd = false) : programStepOr guard again body s =
    again (body ++ [(parseStatement s).1]) (parseStatement s).2 := by
  obtain ⟨_, hbefore, hless⟩ := parseStatement_takes (course.left s) s ((left_pos_iff s).mpr hend)
    (Nat.le_refl _)
  have hcursor : (parseStatement s).2.cursor ≠ s.cursor := by
    intro heq
    change (parseStatement s).2.remaining < s.remaining at hless
    rw [Parser.remaining, Parser.remaining, hbefore.tokens, heq] at hless
    exact absurd hless (Nat.lt_irrefl _)
  change (if s.isAtEnd = true then _ else _ : Parse (List Statement)) s = _
  rw [if_neg (by rw [hend]; exact Bool.false_ne_true)]
  change (if (parseStatement s).2.cursor = s.cursor then _ else _ : Parse (List Statement))
    (parseStatement s).2 = _
  rw [if_neg hcursor]
  rfl

end Program

theorem programStepOr_eq (guard : Parse Unit) : programStepOr guard = programStep := by
  funext again body s
  by_cases hend : s.isAtEnd = true
  · rw [programStep, programStepOr_end _ _ _ hend, programStepOr_end _ _ _ hend]
  · have hend' := Bool.eq_false_iff.mpr hend
    rw [programStep, programStepOr_statement _ _ _ hend', programStepOr_statement _ _ _ hend']

theorem parseStatement_advances {s : Parser} (hend : s.isAtEnd = false) :
    s.Advances (parseStatement s).2 ∧ (parseStatement s).2.remaining < s.remaining := by
  obtain ⟨_, hbefore, hless⟩ := parseStatement_takes (course.left s) s ((left_pos_iff s).mpr hend)
    (Nat.le_refl _)
  exact ⟨hbefore, hless⟩

theorem parseStatement_cursor {s : Parser} (hend : s.isAtEnd = false) :
    s.cursor < (parseStatement s).2.cursor := by
  obtain ⟨hadvances, hless⟩ := parseStatement_advances hend
  rw [Parser.remaining, Parser.remaining, hadvances.tokens] at hless
  omega

theorem programs_descend : Descends course programStep
    fun body s => programLoop (s.remaining + 1) body s := by
  refine descends_of_budget (fun k again again' hagain body s hs => ?_) programLoop_succ
  by_cases hend : s.isAtEnd = true
  · rw [programStep, programStepOr_end _ _ _ hend, programStepOr_end _ _ _ hend]
    exact ⟨rfl, Parser.Advances.refl s⟩
  · have hend' := Bool.eq_false_iff.mpr hend
    obtain ⟨hbefore, hless⟩ := parseStatement_advances hend'
    obtain ⟨hsame, hbefore'⟩ := hagain (body ++ [(parseStatement s).1]) (parseStatement s).2
      (Nat.lt_of_lt_of_le hless (Nat.le_of_lt_succ hs))
    rw [programStep, programStepOr_statement _ _ _ hend', programStepOr_statement _ _ _ hend']
    exact ⟨hsame, course.trans hbefore hbefore'⟩

/-- The program's loop reads all the tokens. -/
theorem programLoop_end (n : ℕ) (body : List Statement) (s : Parser) (hn : s.remaining < n) :
    (programLoop n body s).2.isAtEnd = true ∧ s.Advances (programLoop n body s).2 := by
  induction n generalizing body s with
  | zero => exact absurd hn (Nat.not_lt_zero _)
  | succ n ih =>
    rw [programLoop_succ]
    by_cases hend : s.isAtEnd = true
    · rw [programStep, programStepOr_end _ _ _ hend]
      exact ⟨hend, Parser.Advances.refl s⟩
    · have hend' := Bool.eq_false_iff.mpr hend
      obtain ⟨hbefore, hless⟩ := parseStatement_advances hend'
      obtain ⟨hstop, hbefore'⟩ := ih (body ++ [(parseStatement s).1]) (parseStatement s).2 (by omega)
      rw [programStep, programStepOr_statement _ _ _ hend']
      exact ⟨hstop, course.trans hbefore hbefore'⟩

theorem parseProgram_cursor (tokens : List Token) :
    (programLoop (tokens.length + 1) [] ⟨tokens, 0, []⟩).2.cursor = tokens.length := by
  obtain ⟨hend, hadvances⟩ := programLoop_end (tokens.length + 1) [] ⟨tokens, 0, []⟩
    (Nat.lt_succ_self _)
  have hwithin := hadvances.within
  rw [Parser.isAtEnd, decide_eq_true_eq, hadvances.tokens] at hend
  simp only at hwithin hend
  omega

/-- `parse_variable`, whose `unreachable!` is met without one of its keywords. -/
def parseVariableOr (unreachable : Parse Statement) (consumeSemicolon : Bool) :
    Parse Statement := do
  if isVariableKeyword (← get).peekKind then parseVariable consumeSemicolon else unreachable

/-- The empty statement, whose `expect` fails without its semicolon. -/
def parseEmptyOr (unreachable : Parse Statement) : Parse Statement := do
  if (← get).check .semicolon then parseEmpty else unreachable

def forInitializerOr (unreachable : Parse Statement) : Parse (Option Statement) := do
  if ← matchKind .semicolon then pure none
  else if isVariableKeyword (← get).peekKind then do
    let declaration ← parseVariableOr unreachable false
    pure (some declaration)
  else do
    let value ← parseExpressionStatementWithoutSemicolon
    pure (some value)

def parseForOr (unreachable statement : Parse Statement) : Parse Statement := do
  let start := (← expectAny "for statement start").span.start
  expect .leftParen "for header"
  let initializer ← forInitializerOr unreachable
  expect .semicolon "semicolon after for initializer"
  let test ← forPart .semicolon
  expect .semicolon "semicolon after for test"
  let update ← forPart .rightParen
  expect .rightParen "closing for header"
  let body ← statement
  pure (.for initializer test update body ⟨start, body.span.end⟩)

def statementOrOfKind (unreachable statement : Parse Statement) :
    Option TokenKind → Parse Statement
  | some .let | some .const | some .var => parseVariableOr unreachable true
  | some .for => parseForOr unreachable statement
  | some .semicolon => parseEmptyOr unreachable
  | kind => statementOfKind statement kind

def parseStatementOr (unreachable statement : Parse Statement) : Parse Statement := do
  statementOrOfKind unreachable statement (← get).peekKind

theorem parseVariableOr_run (unreachable : Parse Statement) (consumeSemicolon : Bool) {s : Parser}
    (h : isVariableKeyword s.peekKind = true) :
    parseVariableOr unreachable consumeSemicolon s = parseVariable consumeSemicolon s := by
  change (if isVariableKeyword s.peekKind = true then _ else _ : Parse Statement) s = _
  rw [if_pos h]

theorem forInitializerOr_eq (unreachable : Parse Statement) :
    forInitializerOr unreachable = forInitializer := by
  refine congrArg (matchKind .semicolon >>= ·) (funext fun found => ?_)
  cases found with
  | true => rfl
  | false =>
    funext s
    change (if isVariableKeyword s.peekKind = true then _ else _ : Parse (Option Statement)) s =
      (if isVariableKeyword s.peekKind = true then _ else _ : Parse (Option Statement)) s
    by_cases hkeyword : isVariableKeyword s.peekKind = true
    · rw [if_pos hkeyword, if_pos hkeyword]
      change (some (parseVariableOr unreachable false s).1, (parseVariableOr unreachable false s).2) = _
      rw [parseVariableOr_run unreachable false hkeyword]
      rfl
    · rw [if_neg hkeyword, if_neg hkeyword]

theorem parseForOr_eq (unreachable statement : Parse Statement) :
    parseForOr unreachable statement = parseFor statement := by
  rw [parseForOr, forInitializerOr_eq]
  rfl

theorem parseEmptyOr_run (unreachable : Parse Statement) {s : Parser}
    (h : s.peekKind = some .semicolon) : parseEmptyOr unreachable s = parseEmpty s := by
  have hcheck : s.check .semicolon = true := decide_eq_true h
  change (if s.check .semicolon = true then _ else _ : Parse Statement) s = _
  rw [if_pos hcheck]

/-- Where the source would panic, anything may stand. -/
theorem parseStatementOr_eq (unreachable : Parse Statement) :
    parseStatementOr unreachable = parseStatementWith := by
  funext statement s
  change statementOrOfKind unreachable statement s.peekKind s = statementOfKind statement s.peekKind s
  have hvariable : isVariableKeyword s.peekKind = true →
      parseVariableOr unreachable true s = parseVariable true s :=
    parseVariableOr_run unreachable true
  cases hkind : s.peekKind with
  | none => rfl
  | some kind =>
    rw [hkind] at hvariable
    cases kind with
    | «let» => exact hvariable rfl
    | const => exact hvariable rfl
    | var => exact hvariable rfl
    | «for» => exact congrFun (parseForOr_eq unreachable statement) s
    | semicolon => exact parseEmptyOr_run unreachable hkind
    | _ => rfl

structure ParserProgress : Prop where
  /-- The program's tokens are all read. -/
  program : ∀ tokens : List Token,
    (programLoop (tokens.length + 1) [] ⟨tokens, 0, []⟩).2.cursor = tokens.length
  statement : ∀ s : Parser, s.isAtEnd = false → s.cursor < (parseStatement s).2.cursor
  guard : ∀ guard, programStepOr guard = programStep
  panics : ∀ unreachable, parseStatementOr unreachable = parseStatementWith
  /-- The recursions of the source. -/
  statements : Descends course (fun statement (_ : Unit) => parseStatementWith (statement ()))
    fun _ => parseStatement
  expressions : Descends course (fun expression (_ : Unit) => parseAssignment (expression ()))
    fun _ => parseExpression
  types : Descends course (fun type (_ : Unit) => typeBody (type ())) fun _ => parseAnyType
  unary : Descends course (unaryStep parseExpression)
    fun _ s => parseUnary parseExpression (s.remaining + 1) s
  /-- The loops of the source. -/
  programs : Descends course programStep fun body s => programLoop (s.remaining + 1) body s
  blocks : Descends course (listStep .rightBrace (blockTurn parseStatement))
    (listLoop .rightBrace (blockTurn parseStatement))
  classes : Descends course (listStep .rightBrace classMember) (listLoop .rightBrace classMember)
  synchronization : Descends course synchronizeStep
    fun _ s => synchronizeMember (s.remaining + 1) s
  parameters : Descends course (listStep .rightParen parameter) (listLoop .rightParen parameter)
  imports : Descends course (listStep .rightBrace importBinding)
    (listLoop .rightBrace importBinding)
  typeMembers : Descends course (listStep .rightBrace (typeMember parseAnyType))
    (listLoop .rightBrace (typeMember parseAnyType))
  arraySuffixes : ∀ start, Descends course (suffixStep start)
    fun ty s => arraySuffixes start (s.remaining + 1) ty s
  objects : Descends course (listStep .rightBrace (objectProperty parseExpression))
    (listLoop .rightBrace (objectProperty parseExpression))
  arrays : Descends course (listStep .rightBracket (argument parseExpression))
    (listLoop .rightBracket (argument parseExpression))
  arguments : Descends course (listStep .rightParen (argument parseExpression))
    (listLoop .rightParen (argument parseExpression))
  members : Descends course (callMemberStep parseExpression)
    fun value s => callMemberLoop parseExpression (s.remaining + 1) value s
  operators : Descends course
    (fun again => chainStep (operandWith parseExpression again) again)
    fun chain s => binaryLoop parseExpression (2 * s.remaining + 1) chain.1 chain.2 s

/-- The parser ends and goes on, whatever the tokens are. -/
theorem parser_progress : ParserProgress where
  program := parseProgram_cursor
  statement _ hend := parseStatement_cursor hend
  guard := programStepOr_eq
  panics := parseStatementOr_eq
  statements := statements_descend
  expressions := expressions_descend
  types := types_descend
  unary := unary_descends parseExpression_agree
  programs := programs_descend
  blocks := list_descends fun k => blockTurn_takes (parseStatement_takes k)
  classes := list_descends fun _ => classMember_consumes.takes
  synchronization := synchronize_descends
  parameters := list_descends fun _ => parameter_consumes.takes
  imports := list_descends fun _ => importBinding_consumes.takes
  typeMembers := list_descends fun _ => (typeMember_consumes parseAnyType_agree).takes
  arraySuffixes := suffixes_descend
  objects := list_descends fun k => (objectProperty_consumes (parseExpression_agree k)).takes
  arrays := list_descends fun k => argument_takes (parseExpression_consumes k).takes
  arguments := list_descends fun k => argument_takes (parseExpression_consumes k).takes
  members := members_descend parseExpression_agree
  operators := chain_descends parseExpression_agree

end Tsvm.Parsing
