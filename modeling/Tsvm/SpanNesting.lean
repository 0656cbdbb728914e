import Tsvm.Outlines
import Tsvm.SourceTiles
import Tsvm.StatementGrammar

set_option autoImplicit false

/-!
# The spans of a syntax tree

Where a source is parsed without diagnostics, the spans of the tree are nested: the span of a
node is not empty and holds the spans of its parts, one behind the other. Parentheses belong to
no node, so a part need not touch its neighbours.
-/
namespace Tsvm.SpanNesting
open Ast Lexing Parsing Grammar Outline

def outlineOf (span : Span) (children : List Outline) : Outline :=
  .node span.start.byte span.end.byte children

mutual

def typeOutline : TypeNode → Outline
  | .array inner span => outlineOf span [typeOutline inner]
  | .object members span => outlineOf span (memberOutlines members)
  | .number span | .string span | .boolean span | .null span | .undefined span
  | .named _ span => outlineOf span []

def memberOutlines : List TypeMember → List Outline
  | [] => []
  | .mk _ ty span :: members => outlineOf span [typeOutline ty] :: memberOutlines members

end

mutual

def expressionOutline : Expression → Outline
  | .object properties span => outlineOf span (propertyOutlines properties)
  | .array elements span => outlineOf span (expressionOutlines elements)
  | .member object _ span => outlineOf span [expressionOutline object]
  | .call callee arguments span =>
    outlineOf span (expressionOutline callee :: expressionOutlines arguments)
  | .unary _ argument span => outlineOf span [expressionOutline argument]
  | .binary left _ right span => outlineOf span [expressionOutline left, expressionOutline right]
  | .assignment left _ right span =>
    outlineOf span [expressionOutline left, expressionOutline right]
  | .identifier _ span | .number _ span | .string _ span | .boolean _ span | .null span
  | .undefined span | .error span => outlineOf span []

def expressionOutlines : List Expression → List Outline
  | [] => []
  | expression :: expressions => expressionOutline expression :: expressionOutlines expressions

def propertyOutlines : List ObjectProperty → List Outline
  | [] => []
  | .mk _ value span :: properties =>
    outlineOf span [expressionOutline value] :: propertyOutlines properties

end

def optionalType (ty : Option TypeNode) : List Outline := (ty.map typeOutline).toList

def optionalExpression (value : Option Expression) : List Outline :=
  (value.map expressionOutline).toList

def classMemberOutline (member : ClassMember) : Outline :=
  outlineOf member.span (optionalType member.ty ++ optionalExpression member.initializer)

def parameterOutline (param : Parameter) : Outline := outlineOf param.span (optionalType param.ty)

mutual

def statementOutline : Statement → Outline
  | .export inner span => outlineOf span [statementOutline inner]
  | .interface declaration span => outlineOf span (memberOutlines declaration.members)
  | .typeAlias declaration span => outlineOf span [typeOutline declaration.ty]
  | .class declaration span => outlineOf span (declaration.members.map classMemberOutline)
  | .function ⟨_, params, returnType, body⟩ span =>
    outlineOf span (params.map parameterOutline ++ (optionalType returnType ++
      statementOutlines body))
  | .variable declaration span =>
    outlineOf span (optionalType declaration.ty ++ optionalExpression declaration.initializer)
  | .return value span => outlineOf span (optionalExpression value)
  | .throw value span => outlineOf span [expressionOutline value]
  | .if test consequent alternate span =>
    outlineOf span (expressionOutline test :: statementOutline consequent ::
      alternateOutline alternate)
  | .while test body span => outlineOf span [expressionOutline test, statementOutline body]
  | .for initializer test update body span =>
    outlineOf span (alternateOutline initializer ++ (optionalExpression test ++
      (optionalExpression update ++ [statementOutline body])))
  | .block body span => outlineOf span (statementOutlines body)
  | .expression value span => outlineOf span [expressionOutline value]
  | .import _ span | .empty span | .error span => outlineOf span []

def alternateOutline : Option Statement → List Outline
  | some statement => [statementOutline statement]
  | none => []

def statementOutlines : List Statement → List Outline
  | [] => []
  | statement :: statements => statementOutline statement :: statementOutlines statements

end

theorem expressionOutline_start (value : Expression) :
    (expressionOutline value).start = value.span.start.byte := by
  cases value <;> rfl

theorem expressionOutline_stop (value : Expression) :
    (expressionOutline value).stop = value.span.end.byte := by
  cases value <;> rfl

theorem statementOutline_stop (statement : Statement) :
    (statementOutline statement).stop = statement.span.end.byte := by
  cases statement with
  | function declaration span => rfl
  | _ => rfl

/-- Tokens one behind the other between `lo` and `hi`. -/
def Spaced : ℕ → List Token → ℕ → Prop
  | lo, [], hi => lo ≤ hi
  | lo, token :: tokens, hi =>
    lo ≤ token.span.start.byte ∧ token.span.start.byte < token.span.end.byte ∧
      Spaced token.span.end.byte tokens hi

section Spaced

variable {lo hi : ℕ} {token : Token} {w w' : List Token}

@[simp] theorem spaced_nil : Spaced lo [] hi ↔ lo ≤ hi := Iff.rfl

@[simp] theorem spaced_cons : Spaced lo (token :: w) hi ↔
    lo ≤ token.span.start.byte ∧ token.span.start.byte < token.span.end.byte ∧
      Spaced token.span.end.byte w hi := Iff.rfl

theorem Spaced.le (h : Spaced lo w hi) : lo ≤ hi := by
  induction w generalizing lo with
  | nil => exact h
  | cons token w ih =>
    obtain ⟨hlo, hlt, hrest⟩ := h
    have hle := ih hrest
    omega

theorem spaced_append : Spaced lo (w ++ w') hi ↔ ∃ mid, Spaced lo w mid ∧ Spaced mid w' hi := by
  induction w generalizing lo with
  | nil =>
    constructor
    · exact fun h => ⟨lo, Nat.le_refl _, h⟩
    · rintro ⟨mid, hle, h⟩
      cases w' with
      | nil => exact Nat.le_trans hle h
      | cons token w' => exact ⟨Nat.le_trans hle h.1, h.2⟩
  | cons token w ih =>
    rw [List.cons_append, spaced_cons, ih]
    constructor
    · rintro ⟨hlo, hlt, mid, hw, hw'⟩
      exact ⟨mid, ⟨hlo, hlt, hw⟩, hw'⟩
    · rintro ⟨mid, ⟨hlo, hlt, hw⟩, hw'⟩
      exact ⟨hlo, hlt, mid, hw, hw'⟩

/-- The last end of a row is the least that it fits below. -/
theorem Spaced.lastEnd {fallback : Position} (h : Spaced fallback.byte w hi) :
    Spaced fallback.byte w (lastEnd w fallback).byte ∧ (lastEnd w fallback).byte ≤ hi := by
  induction w generalizing fallback with
  | nil => exact ⟨Nat.le_refl _, h⟩
  | cons token w ih =>
    obtain ⟨hlo, hlt, hrest⟩ := h
    obtain ⟨hspaced, hle⟩ := ih hrest
    exact ⟨⟨hlo, hlt, hspaced⟩, hle⟩

theorem Spaced.mono {lo' : ℕ} (h : Spaced lo w hi) (hlo : lo' ≤ lo) : Spaced lo' w hi := by
  cases w with
  | nil => exact Nat.le_trans hlo h
  | cons token w => exact ⟨Nat.le_trans hlo h.1, h.2⟩

theorem Spaced.below {hi' : ℕ} (h : Spaced lo w hi) (hhi : hi ≤ hi') : Spaced lo w hi' := by
  induction w generalizing lo with
  | nil => exact Nat.le_trans h hhi
  | cons token w ih => exact ⟨h.1, h.2.1, ih h.2.2⟩

/-- A row, and behind it what closes it. -/
theorem Spaced.closed {fallback : Position} {sep : List Token} {mid : ℕ}
    (h : Spaced fallback.byte w mid) (hsep : Spaced mid sep hi) :
    Spaced fallback.byte w (Parsing.lastEnd w fallback).byte ∧
      (Parsing.lastEnd w fallback).byte ≤
        (Parsing.lastEnd sep (Parsing.lastEnd w fallback)).byte ∧
      (Parsing.lastEnd sep (Parsing.lastEnd w fallback)).byte ≤ hi := by
  obtain ⟨hspaced, hle⟩ := h.lastEnd
  obtain ⟨hclosed, hend⟩ := (hsep.mono hle).lastEnd
  exact ⟨hspaced, hclosed.le, hend⟩

end Spaced

theorem spaced_of_ordered {tokens : List Token} {lo hi : ℕ}
    (hnonempty : ∀ token ∈ tokens, token.span.start.byte < token.span.end.byte)
    (hordered : tokens.Pairwise fun a b => a.span.end.byte ≤ b.span.start.byte)
    (hstart : ∀ token ∈ tokens, lo ≤ token.span.start.byte)
    (hend : ∀ token ∈ tokens, token.span.end.byte ≤ hi) (hle : lo ≤ hi) : Spaced lo tokens hi := by
  induction tokens generalizing lo with
  | nil => exact hle
  | cons token tokens ih =>
    obtain ⟨hnonempty, hnonempty'⟩ := List.forall_mem_cons.mp hnonempty
    obtain ⟨hordered, hordered'⟩ := List.pairwise_cons.mp hordered
    obtain ⟨hend, hend'⟩ := List.forall_mem_cons.mp hend
    exact ⟨hstart token List.mem_cons_self, hnonempty, ih hnonempty' hordered' hordered hend' hend⟩

theorem spaced_of_tiles {source : String} {tokens : List Token} (h : Tiles source tokens) :
    Spaced 0 tokens (byteSize source.toList) := by
  refine spaced_of_ordered h.nonempty h.ordered (fun _ _ => Nat.zero_le _) (fun token htoken => ?_)
    (Nat.zero_le _)
  obtain ⟨before, text, behind, hsource, hspan⟩ := h.placed token htoken
  rw [hsource, hspan, byteSize_append _ behind]
  exact Nat.le_add_right _ _

theorem nested_node {lo hi : ℕ} {start stop : Position} {trees : List Outline}
    (h : NestedIn start.byte stop.byte trees) (hlt : start.byte < stop.byte)
    (hlo : lo ≤ start.byte) (hhi : stop.byte ≤ hi) :
    NestedIn lo hi [outlineOf ⟨start, stop⟩ trees] := h.node hlt hlo hhi

/-- A node that is read from a row of tokens. -/
def TypesNested : (c : TypeForm) → List Token → c.Value → Prop
  | .type, w, ty => ∀ lo hi, Spaced lo w hi → NestedIn lo hi [typeOutline ty]
  | .members, w, members => ∀ lo hi, Spaced lo w hi → NestedIn lo hi (memberOutlines members)
  | .suffixes start inner, w, ty => ∀ mid hi, NestedIn start.byte mid [typeOutline inner] →
    Spaced mid w hi → NestedIn start.byte hi [typeOutline ty]

theorem simpleType_outline {token : Token} {ty : TypeNode} (h : simpleType token = some ty) :
    typeOutline ty = outlineOf token.span [] := by
  unfold simpleType at h
  split at h <;> cases h <;> rfl

theorem types_nested {c : TypeForm} {w : List Token} {next : Next} {v : c.Value}
    (h : Types c w next v) : TypesNested c w v := by
  induction h with
  | @simple token w next ty v hty _ ih =>
    intro lo hi hspaced
    obtain ⟨hlo, hlt, hrest⟩ := hspaced
    refine NestedIn.mono (ih token.span.end.byte hi ?_ hrest) hlo (Nat.le_refl _)
    rw [simpleType_outline hty]
    exact .node (nestedIn_nil.mpr (Nat.le_of_lt hlt)) hlt (Nat.le_refl _) (Nat.le_refl _)
  | @object a b w w' next members v _ _ ih ih' =>
    intro lo hi hspaced
    simp only [spaced_cons, spaced_append] at hspaced
    obtain ⟨hlo, ha, mid, hmembers, hb, hlt, hrest⟩ := hspaced
    have hle := hmembers.le
    refine NestedIn.mono (ih' b.end.byte hi ?_ hrest) hlo (Nat.le_refl _)
    exact nested_node ((ih _ _ hmembers).mono (by omega) (by omega)) (by omega) (Nat.le_refl _)
      (Nat.le_refl _)
  | done _ => exact fun mid hi hinner hrest => hinner.mono (Nat.le_refl _) hrest
  | @array start ty a b w next v _ ih =>
    intro mid hi hinner hspaced
    simp only [spaced_cons] at hspaced
    obtain ⟨ha, hlt, hb, hlt', hrest⟩ := hspaced
    have hle := hinner.le
    refine ih b.end.byte hi ?_ hrest
    exact nested_node (hinner.mono (Nat.le_refl _) (by omega)) (by omega) (Nat.le_refl _)
      (Nat.le_refl _)
  | nil => exact fun lo hi hrest => nestedIn_nil.mpr hrest
  | @member token name a w sep w' next ty members _ _ _ _ ih ih' =>
    intro lo hi hspaced
    simp only [spaced_cons, spaced_append] at hspaced
    obtain ⟨hlo, hlt, ha, hlt', mid, hty, mid', hsep, hrest⟩ := hspaced
    obtain ⟨hty, hclosed, hend⟩ := hty.closed hsep
    have hle := hty.le
    have hmember : NestedIn lo mid' [outlineOf
        ⟨token.span.start, lastEnd sep (lastEnd w a.end)⟩ [typeOutline ty]] :=
      nested_node ((ih _ _ hty).mono (by omega) hclosed) (by omega) hlo hend
    exact hmember.append (ih' _ _ hrest)

/-- A value that is closed by more tokens starts where it did. -/
def ExpressionsNested : (c : ExpressionForm) → List Token → c.Value → Prop
  | .expression, w, v | .binary _, w, v | .unary, w, v | .callMember, w, v | .primary, w, v =>
    ∀ lo hi, Spaced lo w hi → NestedIn lo hi [expressionOutline v]
  | .operators _ value, w, v | .suffixes value, w, v =>
    ∀ lo mid hi, NestedIn lo mid [expressionOutline value] → Spaced mid w hi →
      NestedIn lo hi [expressionOutline v]
  | .arguments _, w, values => ∀ lo hi, Spaced lo w hi → NestedIn lo hi (expressionOutlines values)
  | .properties, w, properties =>
    ∀ lo hi, Spaced lo w hi → NestedIn lo hi (propertyOutlines properties)

theorem simpleExpression_outline {token : Token} {value : Expression}
    (h : simpleExpression token = some value) :
    expressionOutline value = outlineOf token.span [] := by
  unfold simpleExpression at h
  split at h <;> cases h <;> rfl

theorem nestedIn_expression {lo hi : ℕ} {value : Expression} :
    NestedIn lo hi [expressionOutline value] ↔
      lo ≤ value.span.start.byte ∧ (expressionOutline value).Nested ∧ value.span.end.byte ≤ hi := by
  rw [nestedIn_singleton, expressionOutline_start, expressionOutline_stop]

theorem nested_lt {value : Expression} (h : (expressionOutline value).Nested) :
    value.span.start.byte < value.span.end.byte := by
  have hlt := h.lt
  rwa [expressionOutline_start, expressionOutline_stop] at hlt

theorem nested_operands {lo mid mid' hi : ℕ} {left right : Expression}
    (hleft : NestedIn lo mid [expressionOutline left])
    (hright : NestedIn mid' hi [expressionOutline right]) (hle : mid ≤ mid') :
    NestedIn lo hi [outlineOf ⟨left.span.start, right.span.end⟩
      [expressionOutline left, expressionOutline right]] := by
  obtain ⟨hlo, hnested, hend⟩ := nestedIn_expression.mp hleft
  obtain ⟨hstart, hnested', hhi⟩ := nestedIn_expression.mp hright
  have hlt := nested_lt hnested
  have hlt' := nested_lt hnested'
  have hfirst : NestedIn left.span.start.byte left.span.end.byte [expressionOutline left] :=
    nestedIn_expression.mpr ⟨Nat.le_refl _, hnested, Nat.le_refl _⟩
  have hsecond : NestedIn left.span.end.byte right.span.end.byte [expressionOutline right] :=
    nestedIn_expression.mpr ⟨by omega, hnested', Nat.le_refl _⟩
  exact nested_node (hfirst.append hsecond) (by omega) hlo hhi

theorem nested_closed {lo mid hi : ℕ} {value : Expression} {stop : Position} {trees : List Outline}
    (hvalue : NestedIn lo mid [expressionOutline value]) (htrees : NestedIn mid stop.byte trees)
    (hhi : stop.byte ≤ hi) :
    NestedIn lo hi [outlineOf ⟨value.span.start, stop⟩ (expressionOutline value :: trees)] := by
  obtain ⟨hlo, hnested, hend⟩ := nestedIn_expression.mp hvalue
  have hlt := nested_lt hnested
  have hle := htrees.le
  have hfirst : NestedIn value.span.start.byte mid [expressionOutline value] :=
    nestedIn_expression.mpr ⟨Nat.le_refl _, hnested, hend⟩
  exact nested_node (hfirst.append htrees) (by omega) hlo hhi

theorem nested_opened {lo mid hi : ℕ} {value : Expression} {start : Position}
    (hvalue : NestedIn mid hi [expressionOutline value]) (hlo : lo ≤ start.byte)
    (hmid : start.byte ≤ mid) :
    NestedIn lo hi [outlineOf ⟨start, value.span.end⟩ [expressionOutline value]] := by
  obtain ⟨hstart, hnested, hend⟩ := nestedIn_expression.mp hvalue
  have hlt := nested_lt hnested
  refine nested_node (nestedIn_expression.mpr ⟨?_, hnested, Nat.le_refl _⟩) ?_ hlo hend
  · omega
  · omega

theorem expressions_nested {c : ExpressionForm} {w : List Token} {next : Next} {v : c.Value}
    (h : Expressions c w next v) : ExpressionsNested c w v := by
  induction h with
  | plain _ _ ih => exact ih
  | @assignment w kind a w' next operator left right _ _ _ ih ih' =>
    intro lo hi hspaced
    simp only [spaced_cons, spaced_append] at hspaced
    obtain ⟨mid, hleft, ha, hlt, hright⟩ := hspaced
    exact nested_operands (ih _ _ hleft) (ih' _ _ hright) (by omega)
  | chain _ _ ih ih' =>
    intro lo hi hspaced
    obtain ⟨mid, hleft, hrest⟩ := spaced_append.mp hspaced
    exact ih' lo mid hi (ih _ _ hleft) hrest
  | chained _ => exact fun lo mid hi hvalue hrest => hvalue.mono (Nat.le_refl _) hrest
  | @operator minPrecedence left kind a w w' next operator precedence right value _ _ _ _ ih ih' =>
    intro lo mid hi hleft hspaced
    simp only [spaced_cons, spaced_append] at hspaced
    obtain ⟨ha, hlt, mid', hright, hrest⟩ := hspaced
    exact ih' lo mid' hi (nested_operands hleft (ih _ _ hright) (by omega)) hrest
  | @unary kind a w next operator value _ _ ih =>
    intro lo hi hspaced
    simp only [spaced_cons] at hspaced
    obtain ⟨hlo, hlt, hrest⟩ := hspaced
    exact nested_opened (ih _ _ hrest) hlo (Nat.le_of_lt hlt)
  | operand _ ih => exact ih
  | callMember _ _ ih ih' =>
    intro lo hi hspaced
    obtain ⟨mid, hvalue, hrest⟩ := spaced_append.mp hspaced
    exact ih' lo mid hi (ih _ _ hvalue) hrest
  | suffixed _ _ => exact fun lo mid hi hvalue hrest => hvalue.mono (Nat.le_refl _) hrest
  | @member value name a b w next result _ ih =>
    intro lo mid hi hvalue hspaced
    simp only [spaced_cons] at hspaced
    obtain ⟨ha, hlt, hb, hlt', hrest⟩ := hspaced
    refine ih lo b.end.byte hi ?_ hrest
    exact nested_closed hvalue (nestedIn_nil.mpr (by omega)) (Nat.le_refl _)
  | @call value a b w w' next arguments result _ _ ih ih' =>
    intro lo mid hi hvalue hspaced
    simp only [spaced_cons, spaced_append] at hspaced
    obtain ⟨ha, hlt, mid', harguments, hb, hlt', hrest⟩ := hspaced
    refine ih' lo b.end.byte hi ?_ hrest
    exact nested_closed hvalue ((ih _ _ harguments).mono (by omega) (by omega)) (Nat.le_refl _)
  | @simple token next value hvalue =>
    intro lo hi hspaced
    obtain ⟨hlo, hlt, hrest⟩ := hspaced
    rw [simpleExpression_outline hvalue]
    exact .node (nestedIn_nil.mpr (Nat.le_of_lt hlt)) hlt hlo hrest
  | @group a b w next value _ ih =>
    intro lo hi hspaced
    simp only [spaced_cons, spaced_append, spaced_nil] at hspaced
    obtain ⟨hlo, hlt, mid, hvalue, hb, hlt', hend⟩ := hspaced
    exact (ih _ _ hvalue).mono (by omega) (by omega)
  | @object a b w next properties _ ih =>
    intro lo hi hspaced
    simp only [spaced_cons, spaced_append, spaced_nil] at hspaced
    obtain ⟨hlo, hlt, mid, hproperties, hb, hlt', hend⟩ := hspaced
    have hle := hproperties.le
    exact nested_node ((ih _ _ hproperties).mono (by omega) (by omega)) (by omega) hlo hend
  | @array a b w next elements _ ih =>
    intro lo hi hspaced
    simp only [spaced_cons, spaced_append, spaced_nil] at hspaced
    obtain ⟨hlo, hlt, mid, helements, hb, hlt', hend⟩ := hspaced
    have hle := helements.le
    exact nested_node ((ih _ _ helements).mono (by omega) (by omega)) (by omega) hlo hend
  | noArgument | noProperty => exact fun lo hi hspaced => nestedIn_nil.mpr hspaced
  | lastArgument _ _ ih => exact ih
  | @moreArguments close w a w' next value values _ _ ih ih' =>
    intro lo hi hspaced
    simp only [spaced_cons, spaced_append] at hspaced
    obtain ⟨mid, hvalue, ha, hlt, hrest⟩ := hspaced
    exact (ih _ _ hvalue).append ((ih' _ _ hrest).mono (by omega) (Nat.le_refl _))
  | @lastProperty token name a w next value _ _ _ ih =>
    intro lo hi hspaced
    simp only [spaced_cons] at hspaced
    obtain ⟨hlo, hlt, ha, hlt', hvalue⟩ := hspaced
    exact nested_opened (ih _ _ hvalue) hlo (by omega)
  | @moreProperties token name a w b w' next value properties _ _ _ ih ih' =>
    intro lo hi hspaced
    simp only [spaced_cons, spaced_append] at hspaced
    obtain ⟨hlo, hlt, ha, hlt', mid, hvalue, hb, hlt'', hrest⟩ := hspaced
    have hproperty : NestedIn lo mid [outlineOf ⟨token.span.start, value.span.end⟩
        [expressionOutline value]] := nested_opened (ih _ _ hvalue) hlo (by omega)
    exact hproperty.append ((ih' _ _ hrest).mono (by omega) (Nat.le_refl _))

theorem nestedIn_statement {lo hi : ℕ} {statement : Statement} :
    NestedIn lo hi [statementOutline statement] ↔ lo ≤ (statementOutline statement).start ∧
      (statementOutline statement).Nested ∧ statement.span.end.byte ≤ hi := by
  rw [nestedIn_singleton, statementOutline_stop]

theorem optionalType_nested {w : List Token} {next : Next} {ty : Option TypeNode}
    (h : OptionalType w next ty) {lo hi : ℕ} (hspaced : Spaced lo w hi) :
    NestedIn lo hi (optionalType ty) := by
  cases h with
  | absent _ => exact nestedIn_nil.mpr hspaced
  | present hty =>
    obtain ⟨hlo, hlt, hrest⟩ := hspaced
    exact (types_nested hty _ _ hrest).mono (Nat.le_trans hlo (Nat.le_of_lt hlt)) (Nat.le_refl _)

theorem optionalInitializer_nested {w : List Token} {next : Next} {initializer : Option Expression}
    (h : OptionalInitializer w next initializer) {lo hi : ℕ} (hspaced : Spaced lo w hi) :
    NestedIn lo hi (optionalExpression initializer) := by
  cases h with
  | absent _ => exact nestedIn_nil.mpr hspaced
  | present hvalue =>
    obtain ⟨hlo, hlt, hrest⟩ := hspaced
    exact (expressions_nested hvalue _ _ hrest).mono (Nat.le_trans hlo (Nat.le_of_lt hlt))
      (Nat.le_refl _)

theorem forPart_nested {close : TokenKind} {w : List Token} {part : Option Expression}
    (h : ForPart close w part) {lo hi : ℕ} (hspaced : Spaced lo w hi) :
    NestedIn lo hi (optionalExpression part) := by
  cases h with
  | absent => exact nestedIn_nil.mpr hspaced
  | present hvalue => exact expressions_nested hvalue _ _ hspaced

/-- A list whose items are nested. -/
theorem listed_nested {α : Type} {close : TokenKind}
    {T : List Token → Next → Option α × Bool → Prop} {outline : α → Outline}
    (hitem : ∀ {w next v}, T w next v → ∀ {lo hi}, Spaced lo w hi →
      NestedIn lo hi (v.1.toList.map outline))
    {w : List Token} {next : Next} {items : List α} (h : Listed close T w next items) {lo hi : ℕ}
    (hspaced : Spaced lo w hi) : NestedIn lo hi (items.map outline) := by
  induction h generalizing lo with
  | nil => exact nestedIn_nil.mpr hspaced
  | stop _ _ htokens => exact hitem htokens hspaced
  | more _ _ htokens _ ih =>
    obtain ⟨mid, hfirst, hrest⟩ := spaced_append.mp hspaced
    rw [List.map_append]
    exact (hitem htokens hfirst).append (ih hrest)

theorem parameter_nested {w : List Token} {next : Next} {v : Option Parameter × Bool}
    (h : ParameterTokens w next v) {lo hi : ℕ} (hspaced : Spaced lo w hi) :
    NestedIn lo hi (v.1.toList.map parameterOutline) := by
  cases h with
  | @last name a w next ty hty _ =>
    simp only [spaced_cons] at hspaced
    obtain ⟨hlo, hlt, hrest⟩ := hspaced
    obtain ⟨hspaced, hend⟩ := Spaced.lastEnd hrest
    have hle := hspaced.le
    exact nested_node ((optionalType_nested hty hspaced).mono (Nat.le_of_lt hlt) (Nat.le_refl _))
      (by omega) hlo hend
  | @more name a w b next ty hty =>
    simp only [spaced_cons, spaced_append] at hspaced
    obtain ⟨hlo, hlt, mid, hrest, hb, hlt', hhi⟩ := hspaced
    obtain ⟨hspaced, hend⟩ := Spaced.lastEnd hrest
    have hle := hspaced.le
    rw [spaced_nil] at hhi
    exact nested_node ((optionalType_nested hty hspaced).mono (Nat.le_of_lt hlt) (Nat.le_refl _))
      (by omega) hlo (by omega)

theorem classMember_nested {w : List Token} {next : Next} {v : Option ClassMember × Bool}
    (h : ClassMemberTokens w next v) {lo hi : ℕ} (hspaced : Spaced lo w hi) :
    NestedIn lo hi (v.1.toList.map classMemberOutline) := by
  cases h with
  | @mk name a w w' semi next ty initializer hty hvalue _ =>
    simp only [spaced_cons, spaced_append] at hspaced
    obtain ⟨hlo, hlt, mid, hfirst, mid', hsecond, hsemi⟩ := hspaced
    obtain ⟨hfirst, hmid⟩ := Spaced.lastEnd hfirst
    obtain ⟨hsecond, hclosed, hend⟩ := (hsecond.mono hmid).closed hsemi
    have hle := hfirst.le
    have hle' := hsecond.le
    have hparts := (optionalType_nested hty hfirst).append
      ((optionalInitializer_nested hvalue hsecond).mono (Nat.le_refl _) hclosed)
    exact nested_node (hparts.mono (Nat.le_of_lt hlt) (Nat.le_refl _)) (by omega) hlo hend

theorem variable_nested {token : Token} {w : List Token} {next : Next}
    {declaration : VariableDeclaration} (h : VariableTokens (token :: w) next declaration)
    {lo hi : ℕ} {stop : Position} (hspaced : Spaced lo (token :: w) stop.byte)
    (hhi : stop.byte ≤ hi) :
    NestedIn lo hi [outlineOf ⟨token.span.start, stop⟩
      (optionalType declaration.ty ++ optionalExpression declaration.initializer)] := by
  cases h with
  | @mk kind a name b w w' next ty initializer _ hty hvalue =>
    simp only [spaced_cons, spaced_append] at hspaced
    obtain ⟨hlo, hlt, hb, hlt', mid, hfirst, hsecond⟩ := hspaced
    have hle := hfirst.le
    have hle' := hsecond.le
    have hparts := (optionalType_nested hty hfirst).append
      (optionalInitializer_nested hvalue hsecond)
    change NestedIn lo hi [outlineOf ⟨a.start, stop⟩
      (optionalType ty ++ optionalExpression initializer)]
    exact nested_node (hparts.mono (by omega) (Nat.le_refl _)) (by omega) hlo hhi

theorem forInitializer_nested {w : List Token} {next : Next} {initializer : Option Statement}
    (h : ForInitializer w next initializer) {lo hi : ℕ} (hspaced : Spaced lo w hi) :
    NestedIn lo hi (alternateOutline initializer) := by
  cases h with
  | absent => exact nestedIn_nil.mpr hspaced.le
  | declaration hvariable =>
    obtain ⟨hlo, hlt, hrest⟩ := hspaced
    obtain ⟨hrest, hend⟩ := Spaced.lastEnd hrest
    exact variable_nested hvariable ⟨hlo, hlt, hrest⟩ hend
  | expression hvalue =>
    obtain ⟨hlo, hnested, hend⟩ := nestedIn_expression.mp (expressions_nested hvalue _ _ hspaced)
    exact nested_node (nestedIn_expression.mpr ⟨Nat.le_refl _, hnested, Nat.le_refl _⟩)
      (nested_lt hnested) hlo hend

def StatementsNested : (c : StatementForm) → List Token → c.Value → Prop
  | .statement, w, statement =>
    ∀ lo hi, Spaced lo w hi → NestedIn lo hi [statementOutline statement]
  | .statements _, w, body => ∀ lo hi, Spaced lo w hi → NestedIn lo hi (statementOutlines body)

/-- A statement that ends with another one, which has parts before it. -/
theorem nested_ending {lo mid hi : ℕ} {start : Position} {trees : List Outline}
    {last : Statement} (htrees : NestedIn start.byte mid trees)
    (hlast : NestedIn mid hi [statementOutline last]) (hlo : lo ≤ start.byte) :
    NestedIn lo hi [outlineOf ⟨start, last.span.end⟩ (trees ++ [statementOutline last])] := by
  obtain ⟨hmid, hnested, hend⟩ := nestedIn_statement.mp hlast
  have hlt := hnested.lt
  rw [statementOutline_stop] at hlt
  have hle := htrees.le
  have hinside : NestedIn mid last.span.end.byte [statementOutline last] :=
    nestedIn_statement.mpr ⟨hmid, hnested, Nat.le_refl _⟩
  exact nested_node (htrees.append hinside) (by omega) hlo hend

theorem statements_nested {c : StatementForm} {w : List Token} {next : Next} {v : c.Value}
    (h : Statements c w next v) : StatementsNested c w v := by
  induction h with
  | imports _ _ =>
    intro lo hi hspaced
    simp only [spaced_cons, spaced_append] at hspaced
    obtain ⟨hlo, hlt, hb, hlt', mid, hnames, hc, hlt₂, hd, hlt₃, he, hlt₄, hsemi⟩ := hspaced
    obtain ⟨hclosed, hend⟩ := Spaced.lastEnd hsemi
    have hle := hnames.le
    have hle' := hclosed.le
    exact nested_node (nestedIn_nil.mpr (by omega)) (by omega) hlo hend
  | importDefault _ =>
    intro lo hi hspaced
    simp only [spaced_cons] at hspaced
    obtain ⟨hlo, hlt, hb, hlt', hd, hlt₃, he, hlt₄, hsemi⟩ := hspaced
    obtain ⟨hclosed, hend⟩ := Spaced.lastEnd hsemi
    have hle := hclosed.le
    exact nested_node (nestedIn_nil.mpr (by omega)) (by omega) hlo hend
  | @«export» a w next inner _ ih =>
    intro lo hi hspaced
    obtain ⟨hlo, hlt, hrest⟩ := hspaced
    exact nested_ending (nestedIn_nil.mpr (Nat.le_of_lt hlt)) (ih _ _ hrest) hlo
  | interface hmembers =>
    intro lo hi hspaced
    simp only [spaced_cons, spaced_append, spaced_nil] at hspaced
    obtain ⟨hlo, hlt, hb, hlt', hc, hlt₂, mid, hrest, hd, hlt₃, hend⟩ := hspaced
    have hle := hrest.le
    exact nested_node ((types_nested hmembers _ _ hrest).mono (by omega) (by omega)) (by omega) hlo
      hend
  | @typeAlias a b c name w semi next ty hty _ =>
    intro lo hi hspaced
    simp only [spaced_cons, spaced_append] at hspaced
    obtain ⟨hlo, hlt, hb, hlt', hc, hlt₂, mid, hrest, hsemi⟩ := hspaced
    obtain ⟨hrest, hclosed, hend⟩ := hrest.closed hsemi
    have hle := hrest.le
    exact nested_node ((types_nested hty _ _ hrest).mono (by omega) hclosed) (by omega)
      hlo hend
  | «class» hmembers =>
    intro lo hi hspaced
    simp only [spaced_cons, spaced_append, spaced_nil] at hspaced
    obtain ⟨hlo, hlt, hb, hlt', hc, hlt₂, mid, hrest, hd, hlt₃, hend⟩ := hspaced
    have hle := hrest.le
    have hitems := listed_nested classMember_nested hmembers hrest
    exact nested_node (hitems.mono (by omega) (by omega)) (by omega) hlo hend
  | function hparams htype _ ih =>
    intro lo hi hspaced
    simp only [spaced_cons, spaced_append, spaced_nil] at hspaced
    obtain ⟨hlo, hlt, hb, hlt', hc, hlt₂, mid, hparams', hd, hlt₃, mid₁, htype', he, hlt₄, mid₂,
      hbody, hf, hlt₅, hend⟩ := hspaced
    have hle := hparams'.le
    have hle' := htype'.le
    have hle₁ := hbody.le
    have hitems := listed_nested parameter_nested hparams hparams'
    have hreturn := (optionalType_nested htype htype').append
      ((ih _ _ hbody).mono (by omega) (Nat.le_refl _))
    exact nested_node ((hitems.append (hreturn.mono (by omega) (Nat.le_refl _))).mono (by omega)
      (by omega)) (by omega) hlo hend
  | @«variable» token w semi next declaration hvariable _ =>
    intro lo hi hspaced
    simp only [spaced_cons, spaced_append] at hspaced
    obtain ⟨hlo, hlt, mid, hrest, hsemi⟩ := hspaced
    obtain ⟨hrest, hclosed, hend⟩ := hrest.closed hsemi
    exact variable_nested hvariable ⟨hlo, hlt, hrest.below hclosed⟩ hend
  | returnNothing _ _ =>
    intro lo hi hspaced
    simp only [spaced_cons] at hspaced
    obtain ⟨hlo, hlt, hsemi⟩ := hspaced
    obtain ⟨hclosed, hend⟩ := Spaced.lastEnd hsemi
    have hle := hclosed.le
    exact nested_node (nestedIn_nil.mpr (by omega)) (by omega) hlo hend
  | «return» hvalue _ | throw hvalue _ =>
    intro lo hi hspaced
    simp only [spaced_cons, spaced_append] at hspaced
    obtain ⟨hlo, hlt, mid, hrest, hsemi⟩ := hspaced
    obtain ⟨hrest, hclosed, hend⟩ := hrest.closed hsemi
    have hle := hrest.le
    exact nested_node ((expressions_nested hvalue _ _ hrest).mono (by omega) hclosed)
      (by omega) hlo hend
  | ifThen htest _ _ ih | «while» htest _ ih =>
    intro lo hi hspaced
    simp only [spaced_cons, spaced_append] at hspaced
    obtain ⟨hlo, hlt, hb, hlt', mid, htest', hc, hlt₂, hbody⟩ := hspaced
    have hle := htest'.le
    exact nested_ending ((expressions_nested htest _ _ htest').mono (by omega) (by omega))
      (ih _ _ hbody) hlo
  | ifElse htest _ _ ih ih' =>
    intro lo hi hspaced
    simp only [spaced_cons, spaced_append] at hspaced
    obtain ⟨hlo, hlt, hb, hlt', mid, htest', hc, hlt₂, mid₁, hconsequent, hd, hlt₃, halternate⟩ :=
      hspaced
    have hle := htest'.le
    have hparts := (expressions_nested htest _ _ htest').append
      ((ih _ _ hconsequent).mono (by omega) (Nat.le_refl _))
    exact nested_ending (hparts.mono (by omega) (by omega)) (ih' _ _ halternate) hlo
  | «for» hinitializer htest hupdate _ ih =>
    intro lo hi hspaced
    simp only [spaced_cons, spaced_append] at hspaced
    obtain ⟨hlo, hlt, hb, hlt', mid, hfirst, hc, hlt₂, mid₁, hsecond, hd, hlt₃, mid₂, hthird, he,
      hlt₄, hbody⟩ := hspaced
    have hle := hfirst.le
    have hrest := (forPart_nested htest hsecond).append
      ((forPart_nested hupdate hthird).mono (by omega) (Nat.le_refl _))
    have hparts := (forInitializer_nested hinitializer hfirst).append
      (hrest.mono (by omega) (Nat.le_refl _))
    have hnested := nested_ending (hparts.mono (by omega) (by omega)) (ih _ _ hbody) hlo
    simp only [List.append_assoc] at hnested
    exact hnested
  | block _ ih =>
    intro lo hi hspaced
    simp only [spaced_cons, spaced_append, spaced_nil] at hspaced
    obtain ⟨hlo, hlt, mid, hrest, hb, hlt', hend⟩ := hspaced
    have hle := hrest.le
    exact nested_node ((ih _ _ hrest).mono (by omega) (by omega)) (by omega) hlo hend
  | empty =>
    intro lo hi hspaced
    obtain ⟨hlo, hlt, hend⟩ := hspaced
    exact .node (nestedIn_nil.mpr (Nat.le_of_lt hlt)) hlt hlo hend
  | expression hvalue _ _ =>
    intro lo hi hspaced
    obtain ⟨mid, hrest, hsemi⟩ := spaced_append.mp hspaced
    obtain ⟨hlo, hnested, hend⟩ := nestedIn_expression.mp (expressions_nested hvalue _ _ hrest)
    exact nested_node (nestedIn_expression.mpr ⟨Nat.le_refl _, hnested, Nat.le_refl _⟩)
      (nested_lt hnested) hlo (Nat.le_trans hend hsemi.le)
  | nil => exact fun lo hi hspaced => nestedIn_nil.mpr hspaced
  | cons _ _ ih ih' =>
    intro lo hi hspaced
    obtain ⟨mid, hfirst, hrest⟩ := spaced_append.mp hspaced
    exact (ih _ _ hfirst).append (ih' _ _ hrest)

/-- A source that is parsed without diagnostics has a nested tree inside it, whose spans do not
    cross. -/
theorem parseSource_nested (source : String) (hclean : (parseSource source).diagnostics = []) :
    NestedIn 0 (byteSize source.toList) (statementOutlines (parseSource source).program.body) ∧
      ∀ a ∈ allIntervals (statementOutlines (parseSource source).program.body),
        ∀ b ∈ allIntervals (statementOutlines (parseSource source).program.body), Laminar a b := by
  have hnested : NestedIn 0 (byteSize source.toList)
      (statementOutlines (parseSource source).program.body) := by
    unfold parseSource at hclean ⊢
    cases hlex : lex source with
    | error error =>
      rw [hlex] at hclean
      exact absurd hclean (List.cons_ne_nil _ _)
    | ok tokens =>
      rw [hlex] at hclean
      have hstatements := (parseProgram_iff tokens _).mp ⟨hclean, rfl⟩
      exact statements_nested hstatements _ _ (spaced_of_tiles (tiles_of_lex hlex))
  exact ⟨hnested, hnested.laminar⟩

theorem pointSource_nested :
    let source := "interface P { x: number }\nfunction f(p: P): number { return (1 - p.x) * f(p); }"
    (parseSource source).program.body ≠ [] ∧
      NestedIn 0 (byteSize source.toList) (statementOutlines (parseSource source).program.body) ∧
      ∀ a ∈ allIntervals (statementOutlines (parseSource source).program.body),
        ∀ b ∈ allIntervals (statementOutlines (parseSource source).program.body), Laminar a b :=
  ⟨by decide +kernel, parseSource_nested _ (by decide +kernel)⟩

end Tsvm.SpanNesting
