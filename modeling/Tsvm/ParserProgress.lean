import Tsvm.MeasuredRecursion
import Tsvm.ParserRuns

set_option autoImplicit false

/-!
# The parser goes on

What the functions for lists, types and expressions do to the cursor, whatever the tokens are,
and what their recursions and loops depend on: they go on only with fewer tokens left.
-/
namespace Tsvm.Parsing
open Ast Lexing MeasuredRecursion

theorem Parser.Advances.remaining_le {s t : Parser} (h : s.Advances t) : t.remaining ≤ s.remaining := by
  have hcursor := h.cursor
  rw [Parser.remaining, Parser.remaining, h.tokens]
  omega

/-- The parser moves on in its tokens. -/
def course : Course Parser where
  left := Parser.remaining
  before := Parser.Advances
  refl := Parser.Advances.refl
  trans := Parser.Advances.trans
  left_le := Parser.Advances.remaining_le

variable {α β : Type} {k : ℕ}

theorem left_pos {s : Parser} {kind : TokenKind} (h : s.peekKind = some kind) :
    0 < course.left s := by
  rw [Parser.peekKind_eq] at h
  obtain ⟨a, t, hread⟩ := Parser.reads_of_kind h
  exact Nat.lt_of_le_of_lt (Nat.zero_le _) hread.lt

theorem left_pos_of_peek {s : Parser} {token : Token} (h : s.peek = some token) :
    0 < course.left s := by
  refine @left_pos s token.kind ?_
  rw [Parser.peekKind, h]
  rfl

theorem left_pos_iff (s : Parser) : 0 < course.left s ↔ s.isAtEnd = false := by
  change 0 < s.tokens.length - s.cursor ↔ _
  rw [Parser.isAtEnd, decide_eq_false_iff_not]
  omega

theorem advance_run_of_pos {s : Parser} (h : 0 < course.left s) :
    ∃ token t, advance s = (some token, t) ∧ s.Advances t ∧ course.left t < course.left s := by
  cases hrest : s.rest with
  | nil =>
    change 0 < s.remaining at h
    rw [Parser.remaining_eq, hrest] at h
    exact absurd h (Nat.lt_irrefl 0)
  | cons token rest =>
    have hread := Parser.reads_of_rest hrest
    exact ⟨token, _, advance_run hread, hread.advances, hread.lt⟩

theorem advance_run_of_zero {s : Parser} (h : course.left s = 0) : advance s = (none, s) := by
  refine advance_run_none (List.eq_nil_of_length_eq_zero ?_)
  rw [← Parser.remaining_eq]
  exact h

/-- A token is taken, or there is none. -/
theorem agree_advance_bind {f' g' : Option Token → Parse β}
    (hsome : ∀ token, Agree course k (f' (some token)) (g' (some token)))
    (hnone : Agree course (k + 1) (f' none) (g' none)) :
    Agree course (k + 1) (advance >>= f') (advance >>= g') := by
  intro s hs
  change f' (advance s).1 (advance s).2 = g' (advance s).1 (advance s).2 ∧
    s.Advances (f' (advance s).1 (advance s).2).2
  by_cases hpos : 0 < course.left s
  · obtain ⟨token, t, hrun, hadvances, hless⟩ := advance_run_of_pos hpos
    rw [hrun]
    obtain ⟨hsame, hbefore⟩ := hsome token t (by omega)
    exact ⟨hsame, hadvances.trans hbefore⟩
  · rw [advance_run_of_zero (by omega)]
    exact hnone s hs

theorem takes_advance_bind {f' g' : Option Token → Parse β}
    (hsome : ∀ token, Agree course k (f' (some token)) (g' (some token))) :
    Takes course k (advance >>= f') (advance >>= g') := by
  intro s hpos hs
  change f' (advance s).1 (advance s).2 = g' (advance s).1 (advance s).2 ∧
    s.Advances (f' (advance s).1 (advance s).2).2 ∧
    course.left (f' (advance s).1 (advance s).2).2 < course.left s
  obtain ⟨token, t, hrun, hadvances, hless⟩ := advance_run_of_pos hpos
  rw [hrun]
  obtain ⟨hsame, hbefore⟩ := hsome token t (by omega)
  exact ⟨hsame, hadvances.trans hbefore, Nat.lt_of_le_of_lt (course.left_le hbefore) hless⟩

theorem agree_advance : Agree course k advance advance := by
  intro s _
  by_cases hpos : 0 < course.left s
  · obtain ⟨token, t, hrun, hadvances, _⟩ := advance_run_of_pos hpos
    rw [hrun]
    exact ⟨rfl, hadvances⟩
  · rw [advance_run_of_zero (by omega)]
    exact ⟨rfl, Parser.Advances.refl s⟩

theorem consumes_advance_bind {f' g' : Option Token → Parse β}
    (h : ∀ token, Agree course k (f' token) (g' token)) :
    Consumes course k (advance >>= f') (advance >>= g') :=
  ⟨agree_advance.bind h, takes_advance_bind fun token => h (some token)⟩

theorem agree_errorAt (span : Span) (message : String) :
    Agree course k (errorAt span message) (errorAt span message) := by
  intro s _
  exact ⟨rfl, rfl, Nat.le_refl _, Nat.le_max_left _ _, List.prefix_append _ _⟩

theorem agree_errorHere (message : String) :
    Agree course k (errorHere message) (errorHere message) :=
  agree_get_bind fun _ => agree_errorAt _ message

theorem agree_errorExpression : Agree course k errorExpression errorExpression :=
  agree_get_bind fun _ => (agree_errorAt _ _).bind fun _ => agree_pure _

/-- The token is taken, or it is another one. -/
theorem matchKind_at {kind : TokenKind} {f' g' : Bool → Parse β} {s : Parser}
    (htrue : ∀ t, course.left t < course.left s → f' true t = g' true t ∧ t.Advances (f' true t).2)
    (hfalse : f' false s = g' false s ∧ s.Advances (f' false s).2) :
    (matchKind kind >>= f') s = (matchKind kind >>= g') s ∧
      s.Advances ((matchKind kind >>= f') s).2 := by
  change f' (matchKind kind s).1 (matchKind kind s).2 = g' (matchKind kind s).1 (matchKind kind s).2 ∧
    s.Advances (f' (matchKind kind s).1 (matchKind kind s).2).2
  by_cases hkind : kindOf s.rest = some kind
  · obtain ⟨a, t, hread⟩ := Parser.reads_of_kind hkind
    rw [matchKind_run hread]
    obtain ⟨hsame, hbefore⟩ := htrue t hread.lt
    exact ⟨hsame, hread.advances.trans hbefore⟩
  · rw [matchKind_run_false hkind]
    exact hfalse

theorem agree_matchKind_bind {kind : TokenKind} {f' g' : Bool → Parse β}
    (htrue : Agree course k (f' true) (g' true))
    (hfalse : Agree course (k + 1) (f' false) (g' false)) :
    Agree course (k + 1) (matchKind kind >>= f') (matchKind kind >>= g') :=
  fun s hs => matchKind_at (fun t ht => htrue t (by omega)) (hfalse s hs)

theorem agree_matchKind (kind : TokenKind) :
    Agree course k (matchKind kind) (matchKind kind) := by
  refine agree_get_bind fun s => Agree.ite ?_ (agree_pure _)
  exact agree_advance.bind fun _ => agree_pure _

theorem agree_expect (kind : TokenKind) (label : String) :
    Agree course k (expect kind label) (expect kind label) := by
  refine agree_get_bind fun s => Agree.ite ?_ (agree_errorHere _)
  exact agree_advance.bind fun _ => agree_pure _

/-- A token that is there is taken. -/
theorem expect_takesAt {kind : TokenKind} {s : Parser} (label : String)
    (hkind : s.peekKind = some kind) :
    TakesAt course s (expect kind label) (expect kind label) := by
  rw [Parser.peekKind_eq] at hkind
  obtain ⟨a, t, hread⟩ := Parser.reads_of_kind hkind
  rw [TakesAt, expect_run label hread]
  exact ⟨rfl, hread.advances, hread.lt⟩

theorem expectAny_consumes (label : String) :
    Consumes course k (expectAny label) (expectAny label) := by
  refine consumes_advance_bind fun token => ?_
  cases token with
  | none => exact agree_get_bind fun _ => (agree_errorAt _ _).bind fun _ => agree_pure _
  | some token => exact agree_pure token

theorem consumeIdentifier_consumes (expected : String) :
    Consumes course k (consumeIdentifier expected) (consumeIdentifier expected) := by
  refine consumes_advance_bind fun token => ?_
  split
  · exact agree_pure _
  · exact (agree_errorAt _ _).bind fun _ => agree_pure _
  · exact (agree_errorHere _).bind fun _ => agree_pure _

theorem consumePropertyName_consumes (expected : String) :
    Consumes course k (consumePropertyName expected) (consumePropertyName expected) := by
  refine consumes_advance_bind fun token => ?_
  split
  · exact agree_pure _
  · exact agree_pure _
  · exact agree_pure _
  · exact (agree_errorAt _ _).bind fun _ => agree_pure _
  · exact (agree_errorHere _).bind fun _ => agree_pure _

theorem agree_consumeOptionalSemicolon :
    Agree course k consumeOptionalSemicolon consumeOptionalSemicolon := by
  refine (agree_matchKind _).bind fun found => Agree.ite ?_ (agree_pure _)
  exact agree_get_bind fun _ => agree_pure _

theorem agree_endOrPrevious («end» : Option Position) (start : Position) :
    Agree course k (endOrPrevious «end» start) (endOrPrevious «end» start) := by
  cases «end» with
  | none => exact agree_get_bind fun _ => agree_pure _
  | some position => exact agree_pure _

/-- A turn of a list's loop, with the loop again behind it. -/
def listStep (close : TokenKind) (turn : Parse (Option α × Bool))
    (again : List α → Parse (List α)) (items : List α) : Parse (List α) := do
  let s ← get
  if s.check close || s.isAtEnd then pure items
  else do
    let (item, goOn) ← turn
    let items := items ++ item.toList
    if goOn then again items else pure items

theorem loopUntil_succ (close : TokenKind) (turn : Parse (Option α × Bool)) (n : ℕ)
    (items : List α) :
    loopUntil close turn (n + 1) items = listStep close turn (loopUntil close turn n) items := rfl

/-- The loop from the tokens that are left. -/
def listLoop (close : TokenKind) (turn : Parse (Option α × Bool)) (items : List α) :
    Parse (List α) := do loopUntil close turn ((← get).remaining + 1) items

theorem listUntil_eq (close : TokenKind) (turn : Parse (Option α × Bool)) :
    listUntil close turn = listLoop close turn [] := rfl

section Lists

variable {close : TokenKind} {turn turn' : Parse (Option α × Bool)}
  {again again' : List α → Parse (List α)}

theorem afterItem_agree (hagain : ∀ items, Agree course k (again items) (again' items))
    (items : List α) (result : Option α × Bool) : Agree course k
      (if result.2 then again (items ++ result.1.toList) else pure (items ++ result.1.toList))
      (if result.2 then again' (items ++ result.1.toList) else pure (items ++ result.1.toList)) :=
  Agree.ite (hagain _) (agree_pure _)

theorem listStep_agree (hturn : Agree course k turn turn')
    (hagain : ∀ items, Agree course k (again items) (again' items)) (items : List α) :
    Agree course k (listStep close turn again items) (listStep close turn' again' items) :=
  agree_get_bind fun _ => Agree.ite (agree_pure _) (hturn.bind (afterItem_agree hagain items))

/-- A turn that takes a token leaves fewer to the loop. -/
theorem listStep_shrinks (hturn : ∀ k, Takes course k turn turn) :
    Shrinks course (listStep close turn) := by
  intro k again again' hagain items s hs
  change (if (s.check close || s.isAtEnd) = true then _ else _ : Parse (List α)) s =
      (if (s.check close || s.isAtEnd) = true then _ else _ : Parse (List α)) s ∧
    s.Advances ((if (s.check close || s.isAtEnd) = true then _ else _ : Parse (List α)) s).2
  by_cases hstop : (s.check close || s.isAtEnd) = true
  · rw [if_pos hstop, if_pos hstop]
    exact ⟨rfl, Parser.Advances.refl s⟩
  · rw [if_neg hstop, if_neg hstop]
    simp only [Bool.or_eq_true, not_or, Bool.not_eq_true] at hstop
    obtain ⟨hsame, hbefore, _⟩ := (hturn k).bind (afterItem_agree hagain items) s
      ((left_pos_iff s).mpr hstop.2) (Nat.le_of_lt_succ hs)
    exact ⟨hsame, hbefore⟩

theorem loopUntil_agree (hturn : Agree course k turn turn') (n : ℕ) (items : List α) :
    Agree course k (loopUntil close turn n items) (loopUntil close turn' n items) := by
  induction n generalizing items with
  | zero => exact agree_pure items
  | succ n ih => exact listStep_agree hturn ih items

theorem listUntil_agree (hturn : Agree course k turn turn') :
    Agree course k (listUntil close turn) (listUntil close turn') := by
  rw [listUntil_eq, listUntil_eq]
  exact agree_get_bind fun s => loopUntil_agree hturn (s.remaining + 1) []

theorem list_descends (hturn : ∀ k, Takes course k turn turn) :
    Descends course (listStep close turn) (listLoop close turn) :=
  descends_of_budget (listStep_shrinks hturn) (loopUntil_succ close turn)

end Lists

theorem typeMember_consumes {type type' : Parse TypeNode} (h : Agree course k type type') :
    Consumes course k (typeMember type) (typeMember type') := by
  refine consumes_get_bind fun s => (consumePropertyName_consumes _).bind fun name => ?_
  refine (agree_expect _ _).bind fun _ => h.bind fun ty => ?_
  refine agree_consumeOptionalSemicolon.bind fun found => ?_
  cases found with
  | none =>
    exact (agree_matchKind _).bind fun _ => agree_get_bind fun _ => agree_pure _
  | some position => exact agree_pure _

def suffixStep (start : Position) (again : TypeNode → Parse TypeNode) (ty : TypeNode) :
    Parse TypeNode := do
  if ← matchKind .leftBracket then do
    expect .rightBracket "closing array type suffix"
    let «end» := (← get).previousEnd start
    again (.array ty ⟨start, «end»⟩)
  else pure ty

theorem suffixStep_shrinks (start : Position) : Shrinks course (suffixStep start) := by
  intro k again again' hagain ty
  refine agree_matchKind_bind ?_ (agree_pure ty)
  exact (agree_expect _ _).bind fun _ => agree_get_bind fun _ => hagain _

theorem suffixes_descend (start : Position) : Descends course (suffixStep start)
    fun ty s => arraySuffixes start (s.remaining + 1) ty s :=
  descends_of_budget (suffixStep_shrinks start) fun _ _ => rfl

theorem arraySuffixes_agree (start : Position) (n : ℕ) (ty : TypeNode) :
    Agree course k (arraySuffixes start n ty) (arraySuffixes start n ty) := by
  induction n generalizing ty k with
  | zero => exact agree_pure ty
  | succ n ih =>
    exact (suffixStep_shrinks start k _ _ (fun ty => ih ty) ty).mono (Nat.le_succ k)

/-- The type that a token begins. -/
def typeOfToken (type : Parse TypeNode) (start : Position) (token : Token) : Parse TypeNode :=
  match token.kind with
  | .numberType => pure (.number token.span)
  | .stringType => pure (.string token.span)
  | .booleanType => pure (.boolean token.span)
  | .null => pure (.null token.span)
  | .undefined => pure (.undefined token.span)
  | .identifier name => pure (.named name token.span)
  | .leftBrace => do
    let members ← listUntil .rightBrace (typeMember type)
    expect .rightBrace "closing object type"
    pure (.object members ⟨start, (← get).previousEnd start⟩)
  | unexpected => do
    errorAt token.span ("expected type, found " ++ debugKind unexpected)
    pure (errorType token.span.start)

/-- The body of `parse_type`. -/
def typeBody (type : Parse TypeNode) : Parse TypeNode := do
  let start := (← get).currentStart
  match ← advance with
  | none => do
    errorHere "expected type"
    pure (errorType start)
  | some token => do
    let ty ← typeOfToken type start token
    arraySuffixes start ((← get).remaining + 1) ty

theorem parseType_succ (n : ℕ) : parseType (n + 1) = typeBody (parseType n) := by
  rw [parseType, typeBody]
  refine congrArg (get >>= ·) (funext fun s => congrArg (advance >>= ·) (funext fun token => ?_))
  cases token with
  | none => rfl
  | some token =>
    obtain ⟨kind, span⟩ := token
    cases kind <;> rfl

theorem typeOfToken_agree {type type' : Parse TypeNode} (h : Agree course k type type')
    (start : Position) (token : Token) :
    Agree course k (typeOfToken type start token) (typeOfToken type' start token) := by
  rw [typeOfToken, typeOfToken]
  split
  case h_7 =>
    have hmembers : Agree course k (listUntil .rightBrace (typeMember type))
        (listUntil .rightBrace (typeMember type')) := listUntil_agree (typeMember_consumes h).agree
    exact hmembers.bind fun _ => (agree_expect _ _).bind fun _ => agree_get_bind fun _ => agree_pure _
  case h_8 => exact (agree_errorAt _ _).bind fun _ => agree_pure _
  all_goals exact agree_pure _

theorem afterType_agree {type type' : Parse TypeNode} (h : Agree course k type type')
    (start : Position) (token : Token) : Agree course k
      (do let ty ← typeOfToken type start token; arraySuffixes start ((← get).remaining + 1) ty)
      (do let ty ← typeOfToken type' start token; arraySuffixes start ((← get).remaining + 1) ty) :=
  (typeOfToken_agree h start token).bind fun ty =>
    agree_get_bind fun s => arraySuffixes_agree start (s.remaining + 1) ty

theorem typeBody_shrinks : Shrinks course fun type (_ : Unit) => typeBody (type ()) := by
  intro k type type' h _
  refine agree_get_bind fun s => agree_advance_bind (fun token => ?_) ?_
  · exact afterType_agree (h ()) s.currentStart token
  · exact (agree_errorHere _).bind fun _ => agree_pure _

theorem types_descend : Descends course (fun type (_ : Unit) => typeBody (type ()))
    fun _ => parseAnyType :=
  @descends_of_budget _ _ _ course _ (fun n (_ : Unit) => parseType n) typeBody_shrinks
    fun n _ => parseType_succ n

theorem parseAnyType_agree : Agree course k parseAnyType parseAnyType :=
  types_descend.agree types_descend.solution k ()

theorem optionalType_agree : Agree course k optionalType optionalType := by
  refine (agree_matchKind _).bind fun found => Agree.ite ?_ (agree_pure _)
  exact parseAnyType_agree.bind fun _ => agree_pure _

theorem parseTypeMembers_agree : Agree course k parseTypeMembers parseTypeMembers := by
  refine (agree_expect _ _).bind fun _ => ?_
  have hmembers : Agree course k (listUntil .rightBrace (typeMember parseAnyType))
      (listUntil .rightBrace (typeMember parseAnyType)) :=
    listUntil_agree (typeMember_consumes parseAnyType_agree).agree
  exact hmembers.bind fun _ => (agree_expect _ _).bind fun _ => agree_pure _

section Expressions

variable {expression expression' : Parse Expression}

theorem argument_agree (h : Agree course k expression expression') :
    Agree course k (argument expression) (argument expression') :=
  h.bind fun _ => (agree_matchKind _).bind fun _ => agree_pure _

theorem argument_takes (h : Takes course k expression expression') :
    Takes course k (argument expression) (argument expression') :=
  h.bind fun _ => (agree_matchKind _).bind fun _ => agree_pure _

theorem objectProperty_consumes (h : Agree course k expression expression') :
    Consumes course k (objectProperty expression) (objectProperty expression') := by
  refine consumes_get_bind fun s => (consumePropertyName_consumes _).bind fun name => ?_
  exact (agree_expect _ _).bind fun _ => h.bind fun value => (agree_matchKind _).bind fun _ =>
    agree_pure _

theorem finishObjectExpression_agree (h : Agree course k expression expression')
    (start : Position) : Agree course k (finishObjectExpression expression start)
      (finishObjectExpression expression' start) :=
  (listUntil_agree (objectProperty_consumes h).agree).bind fun _ => (agree_expect _ _).bind fun _ =>
    agree_get_bind fun _ => agree_pure _

theorem finishArrayExpression_agree (h : Agree course k expression expression')
    (start : Position) : Agree course k (finishArrayExpression expression start)
      (finishArrayExpression expression' start) :=
  (listUntil_agree (argument_agree h)).bind fun _ => (agree_expect _ _).bind fun _ =>
    agree_get_bind fun _ => agree_pure _

/-- The expression that a token begins. -/
def primaryOfToken (expression : Parse Expression) (token : Token) : Parse Expression :=
  match token.kind with
  | .identifier name => pure (.identifier name token.span)
  | .numberLiteral value => pure (.number value token.span)
  | .stringLiteral value => pure (.string value token.span)
  | .booleanLiteral value => pure (.boolean value token.span)
  | .null => pure (.null token.span)
  | .undefined => pure (.undefined token.span)
  | .leftParen => do
    let inner ← expression
    expect .rightParen "closing parenthesized expression"
    pure inner
  | .leftBrace => finishObjectExpression expression token.span.start
  | .leftBracket => finishArrayExpression expression token.span.start
  | unexpected => do
    errorAt token.span ("expected expression, found " ++ debugKind unexpected)
    pure (.error token.span)

theorem primaryOfToken_agree (h : Agree course k expression expression') (token : Token) :
    Agree course k (primaryOfToken expression token) (primaryOfToken expression' token) := by
  rw [primaryOfToken, primaryOfToken]
  split
  case h_7 => exact h.bind fun _ => (agree_expect _ _).bind fun _ => agree_pure _
  case h_8 => exact finishObjectExpression_agree h _
  case h_9 => exact finishArrayExpression_agree h _
  case h_10 => exact (agree_errorAt _ _).bind fun _ => agree_pure _
  all_goals exact agree_pure _

theorem parsePrimary_takes (h : Agree course k expression expression') :
    Takes course k (parsePrimary expression) (parsePrimary expression') :=
  takes_advance_bind (primaryOfToken_agree h)

/-- A turn of the loop over members and calls. -/
def callMemberStep (expression : Parse Expression) (again : Expression → Parse Expression)
    (value : Expression) : Parse Expression := do
  let start := value.span.start
  if ← matchKind .dot then do
    let property ← consumeIdentifier "member property name"
    let «end» := (← get).previousEnd start
    again (.member value (property.getD "<error>") ⟨start, «end»⟩)
  else if ← matchKind .leftParen then do
    let arguments ← listUntil .rightParen (argument expression)
    expect .rightParen "closing call arguments"
    let «end» := (← get).previousEnd start
    again (.call value arguments ⟨start, «end»⟩)
  else pure value

theorem callMemberStep_agree {again again' : Expression → Parse Expression}
    (h : Agree course k expression expression') (hagain : ∀ value, Agree course k (again value) (again' value))
    (value : Expression) : Agree course (k + 1) (callMemberStep expression again value)
      (callMemberStep expression' again' value) := by
  refine agree_matchKind_bind ?_ (agree_matchKind_bind ?_ (agree_pure value))
  · exact (consumeIdentifier_consumes _).agree.bind fun _ => agree_get_bind fun _ => hagain _
  · exact (listUntil_agree (argument_agree h)).bind fun _ => (agree_expect _ _).bind fun _ =>
      agree_get_bind fun _ => hagain _

theorem callMemberLoop_agree (h : Agree course k expression expression') (n : ℕ)
    (value : Expression) : Agree course (k + 1) (callMemberLoop expression n value)
      (callMemberLoop expression' n value) := by
  induction n generalizing value with
  | zero => exact agree_pure value
  | succ n ih => exact callMemberStep_agree h (fun value => (ih value).mono (Nat.le_succ k)) value

theorem members_descend (h : ∀ k, Agree course k expression expression) :
    Descends course (callMemberStep expression)
      fun value s => callMemberLoop expression (s.remaining + 1) value s :=
  descends_of_budget (fun k _ _ => callMemberStep_agree (h k)) fun _ _ => rfl

theorem afterPrimary_agree (h : Agree course k expression expression') (value : Expression) :
    Agree course (k + 1) (do callMemberLoop expression ((← get).remaining + 1) value)
      (do callMemberLoop expression' ((← get).remaining + 1) value) :=
  agree_get_bind fun s => callMemberLoop_agree h (s.remaining + 1) value

theorem parseCallMember_takes (h : Agree course k expression expression') :
    Takes course k (parseCallMember expression) (parseCallMember expression') :=
  (parsePrimary_takes h).bind fun value => (afterPrimary_agree h value).mono (Nat.le_succ k)

def unaryOfToken (expression : Parse Expression) (again : Unit → Parse Expression) :
    Option Token → Parse Expression
  | none => errorExpression
  | some token =>
    match unaryOperator token.kind with
    | some operator => do
      let _ ← advance
      let argument ← again ()
      pure (.unary operator argument ⟨token.span.start, argument.span.end⟩)
    | none => parseCallMember expression

/-- The body of `parse_unary`. -/
def unaryStep (expression : Parse Expression) (again : Unit → Parse Expression) (_ : Unit) :
    Parse Expression := do unaryOfToken expression again (← get).peek

theorem parseUnary_succ (expression : Parse Expression) (n : ℕ) (i : Unit) :
    parseUnary expression (n + 1) = unaryStep expression (fun _ => parseUnary expression n) i := rfl

section Unary

variable {again again' : Unit → Parse Expression}

theorem unaryOfToken_takes (h : Agree course k expression expression')
    (hagain : ∀ i, Agree course k (again i) (again' i)) (token : Token) :
    Takes course k (unaryOfToken expression again (some token))
      (unaryOfToken expression' again' (some token)) := by
  rw [unaryOfToken, unaryOfToken]
  split
  · exact takes_advance_bind fun _ => (hagain ()).bind fun _ => agree_pure _
  · exact parseCallMember_takes h

theorem unaryStep_takes (h : Agree course k expression expression')
    (hagain : ∀ i, Agree course k (again i) (again' i)) (i : Unit) :
    Takes course k (unaryStep expression again i) (unaryStep expression' again' i) := by
  intro s hpos hs
  obtain ⟨token, t, hrun, _⟩ := advance_run_of_pos hpos
  cases hpeek : s.peek with
  | none =>
    rw [Parser.peek_eq, List.head?_eq_none_iff] at hpeek
    rw [advance_run_none hpeek] at hrun
    cases hrun
  | some token =>
    have htakes := unaryOfToken_takes h hagain token s hpos hs
    rw [← hpeek] at htakes
    exact htakes

theorem unaryStep_agree (h : Agree course k expression expression')
    (hagain : ∀ i, Agree course k (again i) (again' i)) (i : Unit) :
    Agree course (k + 1) (unaryStep expression again i) (unaryStep expression' again' i) := by
  refine (unaryStep_takes h hagain i).agree fun s hs => ?_
  cases hpeek : s.peek with
  | none =>
    have herror := @agree_errorExpression 1 s (by omega)
    change (unaryOfToken expression again s.peek) s = (unaryOfToken expression' again' s.peek) s ∧
      s.Advances ((unaryOfToken expression again s.peek) s).2
    rw [hpeek]
    exact herror
  | some token =>
    have hpos := left_pos_of_peek hpeek
    omega

end Unary

theorem parseUnary_agree (h : Agree course k expression expression') (n : ℕ) :
    Agree course (k + 1) (parseUnary expression n) (parseUnary expression' n) := by
  induction n with
  | zero => exact agree_errorExpression
  | succ n ih => exact unaryStep_agree h (fun _ => ih.mono (Nat.le_succ k)) ()

theorem parseUnary_takes (h : Agree course k expression expression') (n : ℕ) :
    Takes course k (parseUnary expression (n + 1)) (parseUnary expression' (n + 1)) :=
  unaryStep_takes h (fun _ => (parseUnary_agree h n).mono (Nat.le_succ k)) ()

theorem unary_descends (h : ∀ k, Agree course k expression expression) :
    Descends course (unaryStep expression) fun _ s => parseUnary expression (s.remaining + 1) s :=
  @descends_of_budget _ _ _ course _ (fun n (_ : Unit) => parseUnary expression n)
    (fun k _ _ => unaryStep_agree (h k)) (parseUnary_succ expression)

def binaryOfOperator (operand : ℕ → Parse Expression) (again : ℕ × Expression → Parse Expression)
    (minPrecedence : ℕ) (left : Expression) : Option (BinaryOperator × ℕ) → Parse Expression
  | none => pure left
  | some (operator, precedence) =>
    if precedence < minPrecedence then pure left
    else do
      let _ ← advance
      let right ← operand (precedence + 1)
      again (minPrecedence, .binary left operator right ⟨left.span.start, right.span.end⟩)

def chainStep (operand : ℕ → Parse Expression) (again : ℕ × Expression → Parse Expression)
    (chain : ℕ × Expression) : Parse Expression := do
  binaryOfOperator operand again chain.1 chain.2 ((← get).peekKind.bind binaryOperator)

/-- An operand is a unary expression with a chain of its own. -/
def operandWith (expression : Parse Expression) (again : ℕ × Expression → Parse Expression)
    (minPrecedence : ℕ) : Parse Expression := do
  let left ← parseUnary expression ((← get).remaining + 1)
  again (minPrecedence, left)

theorem binaryLoop_succ (expression : Parse Expression) (n : ℕ) (chain : ℕ × Expression) :
    binaryLoop expression (n + 1) chain.1 chain.2 =
      chainStep (parseBinary expression n) (fun chain => binaryLoop expression n chain.1 chain.2)
        chain := by
  rw [binaryLoop, chainStep]
  refine congrArg (get >>= ·) (funext fun s => ?_)
  cases s.peekKind.bind binaryOperator with
  | none => rfl
  | some found => rfl

theorem parseBinary_succ (expression : Parse Expression) (n minPrecedence : ℕ) :
    parseBinary expression (n + 1) minPrecedence = operandWith expression
      (fun chain => binaryLoop expression n chain.1 chain.2) minPrecedence := by
  rw [parseBinary]
  rfl

theorem operandWith_agree {again again' : ℕ × Expression → Parse Expression}
    (h : Agree course k expression expression')
    (hagain : ∀ chain, Agree course (k + 1) (again chain) (again' chain)) (minPrecedence : ℕ) :
    Agree course (k + 1) (operandWith expression again minPrecedence)
      (operandWith expression' again' minPrecedence) :=
  agree_get_bind fun s => (parseUnary_agree h (s.remaining + 1)).bind fun left =>
    hagain (minPrecedence, left)

theorem chainStep_agree {operand operand' : ℕ → Parse Expression}
    {again again' : ℕ × Expression → Parse Expression}
    (hoperand : ∀ p, Agree course k (operand p) (operand' p))
    (hagain : ∀ chain, Agree course k (again chain) (again' chain)) (chain : ℕ × Expression) :
    Agree course (k + 1) (chainStep operand again chain) (chainStep operand' again' chain) := by
  intro s hs
  change binaryOfOperator operand again chain.1 chain.2 (s.peekKind.bind binaryOperator) s =
      binaryOfOperator operand' again' chain.1 chain.2 (s.peekKind.bind binaryOperator) s ∧
    s.Advances (binaryOfOperator operand again chain.1 chain.2 (s.peekKind.bind binaryOperator) s).2
  cases hfound : s.peekKind.bind binaryOperator with
  | none => exact ⟨rfl, Parser.Advances.refl s⟩
  | some found =>
    obtain ⟨kind, hkind, _⟩ := Option.bind_eq_some_iff.mp hfound
    rw [binaryOfOperator, binaryOfOperator]
    by_cases hlow : found.2 < chain.1
    · rw [if_pos hlow, if_pos hlow]
      exact ⟨rfl, Parser.Advances.refl s⟩
    · rw [if_neg hlow, if_neg hlow]
      have hrest : Agree course k
          (do
            let right ← operand (found.2 + 1)
            again (chain.1, .binary chain.2 found.1 right ⟨chain.2.span.start, right.span.end⟩))
          (do
            let right ← operand' (found.2 + 1)
            again' (chain.1, .binary chain.2 found.1 right ⟨chain.2.span.start, right.span.end⟩)) :=
        (hoperand (found.2 + 1)).bind fun _ => hagain _
      have htakes := @takes_advance_bind _ k (fun _ => _) (fun _ => _) fun _ => hrest
      obtain ⟨hsame, hbefore, _⟩ := htakes s (left_pos hkind) (Nat.le_of_lt_succ hs)
      exact ⟨hsame, hbefore⟩

/-- Whatever the budget is. -/
theorem binary_agree (h : Agree course k expression expression') (n : ℕ) :
    (∀ chain : ℕ × Expression, Agree course (k + 1) (binaryLoop expression n chain.1 chain.2)
      (binaryLoop expression' n chain.1 chain.2)) ∧
    ∀ minPrecedence, Agree course (k + 1) (parseBinary expression n minPrecedence)
      (parseBinary expression' n minPrecedence) := by
  induction n with
  | zero => exact ⟨fun chain => agree_pure chain.2, fun _ => agree_errorExpression⟩
  | succ n ih =>
    obtain ⟨hloop, hbinary⟩ := ih
    refine ⟨fun chain => ?_, fun minPrecedence => ?_⟩
    · rw [binaryLoop_succ, binaryLoop_succ]
      exact chainStep_agree (fun p => (hbinary p).mono (Nat.le_succ k))
        (fun chain => (hloop chain).mono (Nat.le_succ k)) chain
    · rw [parseBinary_succ, parseBinary_succ]
      exact operandWith_agree h hloop minPrecedence

/-- Two turns of the budget for a token are enough. -/
theorem binaryLoop_budget (h : ∀ k, Agree course k expression expression) (k : ℕ) {m n : ℕ}
    (hm : 2 * k ≤ m + 1) (hn : 2 * k ≤ n + 1) (chain : ℕ × Expression) :
    Agree course k (binaryLoop expression m chain.1 chain.2)
      (binaryLoop expression n chain.1 chain.2) := by
  induction k generalizing m n chain with
  | zero => exact agree_zero
  | succ k ih =>
    obtain ⟨m, rfl⟩ := Nat.exists_eq_add_of_le' (show 1 ≤ m by omega)
    obtain ⟨n, rfl⟩ := Nat.exists_eq_add_of_le' (show 1 ≤ n by omega)
    rw [binaryLoop_succ, binaryLoop_succ]
    refine chainStep_agree (fun p => ?_) (ih (by omega) (by omega)) chain
    cases k with
    | zero => exact agree_zero
    | succ k =>
      obtain ⟨m, rfl⟩ := Nat.exists_eq_add_of_le' (show 1 ≤ m by omega)
      obtain ⟨n, rfl⟩ := Nat.exists_eq_add_of_le' (show 1 ≤ n by omega)
      rw [parseBinary_succ, parseBinary_succ]
      exact operandWith_agree (h k) (ih (by omega) (by omega)) p

theorem chain_shrinks (h : ∀ k, Agree course k expression expression) :
    Shrinks course fun again => chainStep (operandWith expression again) again := by
  intro k again again' hagain
  refine chainStep_agree (fun p => ?_) hagain
  cases k with
  | zero => exact agree_zero
  | succ k => exact operandWith_agree (h k) hagain p

theorem chain_descends (h : ∀ k, Agree course k expression expression) :
    Descends course (fun again => chainStep (operandWith expression again) again)
      fun chain s => binaryLoop expression (2 * s.remaining + 1) chain.1 chain.2 s := by
  refine ⟨chain_shrinks h, fun chain s => ?_⟩
  have hagain : ∀ n, 2 * s.remaining ≤ n + 1 → ∀ chain : ℕ × Expression,
      Agree course s.remaining (binaryLoop expression n chain.1 chain.2)
        fun t => binaryLoop expression (2 * t.remaining + 1) chain.1 chain.2 t := by
    intro n hn chain t ht
    change t.remaining < s.remaining at ht
    exact binaryLoop_budget h (t.remaining + 1) (by omega) (by omega) chain t (Nat.lt_succ_self _)
  rw [binaryLoop_succ]
  refine (chainStep_agree (fun p => ?_) (hagain _ (by omega)) chain s (Nat.lt_succ_self _)).1
  cases hleft : s.remaining with
  | zero => exact agree_zero
  | succ left =>
    rw [hleft] at hagain
    rw [show 2 * (left + 1) = (2 * left + 1) + 1 by omega, parseBinary_succ]
    exact operandWith_agree (h left) (hagain _ (by omega)) p

def assignmentOfOperator (expression : Parse Expression) (left : Expression) :
    Option AssignmentOperator → Parse Expression
  | none => pure left
  | some operator => do
    let _ ← advance
    let right ← expression
    pure (.assignment left operator right ⟨left.span.start, right.span.end⟩)

theorem afterBinary_agree (h : Agree course k expression expression') (left : Expression) :
    Agree course (k + 1)
      (do assignmentOfOperator expression left ((← get).peekKind.bind assignmentOperator))
      (do assignmentOfOperator expression' left ((← get).peekKind.bind assignmentOperator)) := by
  intro s hs
  change assignmentOfOperator expression left (s.peekKind.bind assignmentOperator) s =
      assignmentOfOperator expression' left (s.peekKind.bind assignmentOperator) s ∧
    s.Advances (assignmentOfOperator expression left (s.peekKind.bind assignmentOperator) s).2
  cases hfound : s.peekKind.bind assignmentOperator with
  | none => exact ⟨rfl, Parser.Advances.refl s⟩
  | some operator =>
    obtain ⟨kind, hkind, _⟩ := Option.bind_eq_some_iff.mp hfound
    have htakes : Takes course k (assignmentOfOperator expression left (some operator))
        (assignmentOfOperator expression' left (some operator)) :=
      takes_advance_bind fun _ => h.bind fun _ => agree_pure _
    obtain ⟨hsame, hbefore, _⟩ := htakes s (left_pos hkind) (Nat.le_of_lt_succ hs)
    exact ⟨hsame, hbefore⟩

theorem parseAssignment_agree (h : Agree course k expression expression') :
    Agree course (k + 1) (parseAssignment expression) (parseAssignment expression') :=
  agree_get_bind fun s => ((binary_agree h (2 * s.remaining + 2)).2 0).bind (afterBinary_agree h)

theorem parseBinary_takes (h : Agree course k expression expression') (n minPrecedence : ℕ) :
    Takes course k (parseBinary expression (n + 1) minPrecedence)
      (parseBinary expression' (n + 1) minPrecedence) := by
  rw [parseBinary_succ, parseBinary_succ]
  exact takes_get_bind fun s => (parseUnary_takes h s.remaining).bind fun left =>
    ((binary_agree h n).1 (minPrecedence, left)).mono (Nat.le_succ k)

theorem parseAssignment_takes (h : Agree course k expression expression') :
    Takes course k (parseAssignment expression) (parseAssignment expression') :=
  takes_get_bind fun s => (parseBinary_takes h (2 * s.remaining + 1) 0).bind fun left =>
    (afterBinary_agree h left).mono (Nat.le_succ k)

end Expressions

theorem expressions_descend : Descends course
    (fun expression (_ : Unit) => parseAssignment (expression ())) fun _ => parseExpression :=
  @descends_of_budget _ _ _ course _ (fun n (_ : Unit) => parseExpressionWithin n)
    (fun _ _ _ h _ => parseAssignment_agree (h ())) fun _ _ => rfl

theorem parseExpression_agree (k : ℕ) : Agree course k parseExpression parseExpression :=
  expressions_descend.agree expressions_descend.solution k ()

theorem parseExpression_eq : parseExpression = parseAssignment parseExpression :=
  funext fun s => expressions_descend.solution () s

theorem parseExpression_consumes (k : ℕ) : Consumes course k parseExpression parseExpression := by
  refine ⟨parseExpression_agree k, ?_⟩
  rw [parseExpression_eq]
  exact parseAssignment_takes (parseExpression_agree k)

theorem optionalInitializer_agree : Agree course k optionalInitializer optionalInitializer := by
  refine (agree_matchKind _).bind fun found => Agree.ite ?_ (agree_pure _)
  exact (parseExpression_agree k).bind fun _ => agree_pure _

end Tsvm.Parsing
