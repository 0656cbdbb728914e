import Tsvm.Lowering

set_option autoImplicit false

/-!
# The code of expressions and statements

An expression never opens a block, so lowering it appends instructions to the
current block. `expressionCode` computes them without the lowerer, and
`lowerExpression_eq` says that this is what the lowerer does. The same holds of
a declaration and of a `return`.
-/
namespace Tsvm.LoweringCode
open Ast Ir Lowering

/-- Instructions, the value number after them, and the value they compute. -/
structure Lowered where
  code : List IrInstruction
  next : ℕ
  value : ℕ
  ty : IrType

def Lowered.ofValue (code : List IrInstruction) (next : ℕ) (kind : IrInstructionKind)
    (ty : IrType) (span : Span) : Lowered :=
  ⟨code ++ [⟨kind, some next, ty, span⟩], next + 1, next, ty⟩

/-- The code behind the two sides of an assignment to a member. -/
def memberStoreCode (object : ValueId) (property : String) (operator : AssignmentOperator)
    (right : Lowered) (leftSpan span : Span) : List IrInstruction × ℕ × ℕ :=
  match operator with
  | .assign =>
    ([⟨.storeMember object property right.value, none, right.ty, span⟩], right.next, right.value)
  | operator =>
    ([⟨.loadMember object property, some right.next, right.ty, leftSpan⟩,
      ⟨.binary (assignmentBinaryOp operator) right.next right.value, some (right.next + 1),
        right.ty, span⟩,
      ⟨.storeMember object property (right.next + 1), none, right.ty, span⟩],
      right.next + 2, right.next + 1)

section

variable (types : List (String × IrType))

mutual

def expressionCode : Expression → ℕ → Lowered
  | .identifier name span, n =>
    .ofValue [] n (.loadLocal name) ((types.lookup name).getD .unknown) span
  | .number value span, n => .ofValue [] n (.loadConst (.number value)) .number span
  | .string value span, n => .ofValue [] n (.loadConst (.string value)) .string span
  | .boolean value span, n => .ofValue [] n (.loadConst (.boolean value)) .boolean span
  | .null span, n => .ofValue [] n (.loadConst .null) .null span
  | .undefined span, n => .ofValue [] n (.loadConst .undefined) .undefined span
  | .object properties span, n =>
    let (code, next, lowered) := propertiesCode properties n
    .ofValue code next (.loadConst (.object (lowered.map fun field => (field.1, field.2.1))))
      (.object (lowered.map fun field => (field.1, field.2.2))) span
  | .array elements span, n =>
    let (code, next, lowered) := expressionsCode elements n
    .ofValue code next (.loadConst (.array (lowered.map Prod.fst)))
      (.array ((lowered.map Prod.snd).foldl
        (fun elementType ty => if elementType.isUnknown then ty else elementType) .unknown)) span
  | .member object property span, n =>
    let object := expressionCode object n
    .ofValue object.code object.next (.loadMember object.value property)
      (memberType object.ty property) span
  | .call callee arguments span, n =>
    let (code, next, lowered) := expressionsCode arguments n
    .ofValue code next (.call (calleeName callee) (lowered.map Prod.fst)) .unknown span
  | .binary left operator right span, n =>
    let left := expressionCode left n
    let right := expressionCode right left.next
    .ofValue (left.code ++ right.code) right.next
      (.binary (binaryOp operator) left.value right.value) (binaryType operator) span
  | .assignment left operator right span, n =>
    match left with
    | .identifier name _ =>
      let right := expressionCode right n
      ⟨right.code ++ [⟨.storeLocal name right.value, none, right.ty, span⟩], right.next,
        right.value, right.ty⟩
    | .member object property leftSpan =>
      let object := expressionCode object n
      let right := expressionCode right object.next
      let (code, next, stored) :=
        memberStoreCode object.value property operator right leftSpan span
      ⟨object.code ++ right.code ++ code, next, stored, right.ty⟩
    | _ => expressionCode right n
  | .unary _ argument _, n => expressionCode argument n
  | .error span, n => .ofValue [] n (.loadConst .undefined) .unknown span

def expressionsCode : List Expression → ℕ → List IrInstruction × ℕ × List (ValueId × IrType)
  | [], n => ([], n, [])
  | expression :: expressions, n =>
    let first := expressionCode expression n
    let (code, next, rest) := expressionsCode expressions first.next
    (first.code ++ code, next, (first.value, first.ty) :: rest)

def propertiesCode : List ObjectProperty → ℕ →
    List IrInstruction × ℕ × List (String × ValueId × IrType)
  | [], n => ([], n, [])
  | .mk name value _ :: properties, n =>
    let first := expressionCode value n
    let (code, next, rest) := propertiesCode properties first.next
    (first.code ++ code, next, (name, first.value, first.ty) :: rest)

end

end

def append (code : List IrInstruction) (next : ℕ) (s : FunctionLowerer) : FunctionLowerer :=
  { s with
    blocks := s.blocks.modify s.currentBlock fun block =>
      { block with instructions := block.instructions ++ code }
    nextValue := next }

@[simp] theorem append_locals (code : List IrInstruction) (next : ℕ) (s : FunctionLowerer) :
    (append code next s).locals = s.locals := rfl

@[simp] theorem append_nextValue (code : List IrInstruction) (next : ℕ) (s : FunctionLowerer) :
    (append code next s).nextValue = next := rfl

@[simp] theorem append_currentBlock (code : List IrInstruction) (next : ℕ) (s : FunctionLowerer) :
    (append code next s).currentBlock = s.currentBlock := rfl

@[simp] theorem append_nil (s : FunctionLowerer) : append [] s.nextValue s = s := by
  have hsame : (fun block : IrBlock => { block with instructions := block.instructions ++ [] }) =
      id := by
    funext block
    rw [List.append_nil]
    rfl
  rw [append, hsame, List.modify_id]

@[simp] theorem append_append (first second : List IrInstruction) (n next : ℕ)
    (s : FunctionLowerer) :
    append second next (append first n s) = append (first ++ second) next s := by
  simp [append, List.modify_modify_eq, Function.comp_def]

theorem emit_eq (kind : IrInstructionKind) (result : Option ValueId) (ty : IrType) (span : Span)
    (s : FunctionLowerer) :
    s.emit kind result ty span = append [⟨kind, result, ty, span⟩] s.nextValue s := rfl

theorem emitValue_eq (kind : IrInstructionKind) (ty : IrType) (span : Span)
    (s : FunctionLowerer) :
    s.emitValue kind ty span =
      ((s.nextValue, ty), append [⟨kind, some s.nextValue, ty, span⟩] (s.nextValue + 1) s) := rfl

theorem emitValue_append (code : List IrInstruction) (n : ℕ) (kind : IrInstructionKind)
    (ty : IrType) (span : Span) (s : FunctionLowerer) :
    (append code n s).emitValue kind ty span =
      ((n, ty), append (code ++ [⟨kind, some n, ty, span⟩]) (n + 1) s) := by
  rw [emitValue_eq, append_append]
  rfl

theorem emit_append (code : List IrInstruction) (n : ℕ) (kind : IrInstructionKind)
    (result : Option ValueId) (ty : IrType) (span : Span) (s : FunctionLowerer) :
    (append code n s).emit kind result ty span =
      append (code ++ [⟨kind, result, ty, span⟩]) n s := by
  rw [emit_eq, append_append]
  rfl

theorem lowerMemberStore_append (code : List IrInstruction) (object : ValueId) (property : String)
    (operator : AssignmentOperator) (right : Lowered) (leftSpan span : Span)
    (s : FunctionLowerer) :
    lowerMemberStore object property operator right.value right.ty leftSpan span
        (append code right.next s) =
      (((memberStoreCode object property operator right leftSpan span).2.2, right.ty),
        append (code ++ (memberStoreCode object property operator right leftSpan span).1)
          (memberStoreCode object property operator right leftSpan span).2.1 s) := by
  cases operator <;>
    simp [lowerMemberStore, memberStoreCode, emit_append, emitValue_append, List.append_assoc]

mutual

/-- Lowering an expression appends its code. -/
theorem lowerExpression_eq : ∀ (expression : Expression) (s : FunctionLowerer),
    lowerExpression expression s =
      let lowered := expressionCode s.locals expression s.nextValue
      ((lowered.value, lowered.ty), append lowered.code lowered.next s)
  | .identifier name span, s => rfl
  | .number value span, s => rfl
  | .string value span, s => rfl
  | .boolean value span, s => rfl
  | .null span, s => rfl
  | .undefined span, s => rfl
  | .object properties span, s => by
    simp only [lowerExpression, lowerProperties_eq properties s, expressionCode,
      FunctionLowerer.loadConst, emitValue_append, Lowered.ofValue]
  | .array elements span, s => by
    simp only [lowerExpression, lowerExpressions_eq elements s, expressionCode,
      FunctionLowerer.loadConst, emitValue_append, Lowered.ofValue]
  | .member object property span, s => by
    simp only [lowerExpression, lowerExpression_eq object s, expressionCode, emitValue_append,
      Lowered.ofValue]
  | .call callee arguments span, s => by
    simp only [lowerExpression, lowerExpressions_eq arguments s, expressionCode, emitValue_append,
      Lowered.ofValue]
  | .binary left operator right span, s => by
    simp only [lowerExpression, lowerExpression_eq left s, lowerExpression_eq right,
      append_locals, append_nextValue, append_append, expressionCode, emitValue_append,
      Lowered.ofValue]
  | .assignment left operator right span, s => by
    cases left with
    | identifier name leftSpan =>
      simp only [lowerExpression, lowerExpression_eq right s, expressionCode, emit_append]
    | member object property leftSpan =>
      have hright := lowerExpression_eq right
        (append (expressionCode s.locals object s.nextValue).code
          (expressionCode s.locals object s.nextValue).next s)
      simp only [append_locals, append_nextValue, append_append] at hright
      simp only [lowerExpression, lowerExpression_eq object s, hright, expressionCode,
        lowerMemberStore_append]
    | _ => simp only [lowerExpression, lowerExpression_eq right s, expressionCode]
  | .unary operator argument span, s => by
    simp only [lowerExpression, lowerExpression_eq argument s, expressionCode]
  | .error span, s => rfl

theorem lowerExpressions_eq : ∀ (expressions : List Expression) (s : FunctionLowerer),
    lowerExpressions expressions s =
      let (code, next, lowered) := expressionsCode s.locals expressions s.nextValue
      (lowered, append code next s)
  | [], s => by simp [lowerExpressions, expressionsCode]
  | expression :: expressions, s => by
    simp only [lowerExpressions, lowerExpression_eq expression s, lowerExpressions_eq expressions,
      append_locals, append_nextValue, append_append, expressionsCode]

theorem lowerProperties_eq : ∀ (properties : List ObjectProperty) (s : FunctionLowerer),
    lowerProperties properties s =
      let (code, next, lowered) := propertiesCode s.locals properties s.nextValue
      (lowered, append code next s)
  | [], s => by simp [lowerProperties, propertiesCode]
  | .mk name value span :: properties, s => by
    simp only [lowerProperties, lowerExpression_eq value s, lowerProperties_eq properties,
      append_locals, append_nextValue, append_append, propertiesCode]

end

def values : IrInstructionKind → List ℕ
  | .loadConst (.object properties) => properties.map Prod.snd
  | .loadConst (.array elements) => elements
  | .loadConst _ => []
  | .loadLocal _ => []
  | .storeLocal _ value => [value]
  | .loadMember object _ => [object]
  | .storeMember object _ value => [object, value]
  | .binary _ left right => [left, right]
  | .call _ args => args
  | .branch condition _ _ => [condition]
  | .jump _ => []
  | .return value => value.toList

def targets : IrInstructionKind → List ℕ
  | .branch _ thenBlock elseBlock => [thenBlock, elseBlock]
  | .jump target => [target]
  | _ => []

def produces : IrInstructionKind → Bool
  | .loadConst _ | .loadLocal _ | .loadMember _ _ | .binary _ _ _ | .call _ _ => true
  | .storeLocal _ _ | .storeMember _ _ _ | .branch _ _ _ | .jump _ | .return _ => false

def results (code : List IrInstruction) : ℕ := code.countP fun i => produces i.kind

@[simp] theorem results_nil : results [] = 0 := rfl

@[simp] theorem results_append (first second : List IrInstruction) :
    results (first ++ second) = results first + results second := List.countP_append

theorem results_cons (i : IrInstruction) (code : List IrInstruction) :
    results (i :: code) = results [i] + results code := results_append [i] code

theorem results_of_produces {i : IrInstruction} (h : produces i.kind = true) : results [i] = 1 := by
  simp [results, h]

theorem results_of_not_produces {i : IrInstruction} (h : produces i.kind = false) :
    results [i] = 0 := by
  simp [results, h]

/-- Results are numbered from `n` on, and every operand is a value from `low` on
    that has its number already. -/
def Numbered (low : ℕ) : ℕ → List IrInstruction → Prop
  | _, [] => True
  | n, i :: code =>
    (∀ v ∈ values i.kind, low ≤ v ∧ v < n) ∧
      i.result = (if produces i.kind then some n else none) ∧ Numbered low (n + results [i]) code

theorem numbered_append {low n : ℕ} {first second : List IrInstruction} :
    Numbered low n (first ++ second) ↔
      Numbered low n first ∧ Numbered low (n + results first) second := by
  induction first generalizing n with
  | nil => simp [Numbered]
  | cons i first ih =>
    have hcount := results_cons i first
    rw [List.cons_append, Numbered, Numbered, ih, hcount, Nat.add_assoc]
    exact ⟨fun h => ⟨⟨h.1, h.2.1, h.2.2.1⟩, h.2.2.2⟩, fun h => ⟨h.1.1, h.1.2.1, h.1.2.2, h.2⟩⟩

theorem Numbered.mono {low low' n : ℕ} {code : List IrInstruction} (h : Numbered low n code)
    (hle : low' ≤ low) : Numbered low' n code := by
  induction code generalizing n with
  | nil => trivial
  | cons i code ih =>
    refine ⟨fun v hv => ?_, h.2.1, ih h.2.2⟩
    have hbounds := h.1 v hv
    omega

theorem Numbered.at {low n : ℕ} {code : List IrInstruction} (h : Numbered low n code) {k : ℕ}
    {i : IrInstruction} (hi : code[k]? = some i) :
    (∀ v ∈ values i.kind, low ≤ v ∧ v < n + results (code.take k)) ∧
      i.result = (if produces i.kind then some (n + results (code.take k)) else none) := by
  have hsplit : code = code.take k ++ i :: code.drop (k + 1) := by
    obtain ⟨hk, rfl⟩ := List.getElem?_eq_some_iff.mp hi
    rw [List.getElem_cons_drop, List.take_append_drop]
  rw [hsplit, numbered_append] at h
  exact ⟨h.2.1, h.2.2.1⟩

theorem results_take_succ {code : List IrInstruction} {k : ℕ} {i : IrInstruction}
    (hi : code[k]? = some i) : results (code.take (k + 1)) = results (code.take k) + results [i] := by
  rw [List.take_add_one, hi, Option.toList_some, results_append]

theorem results_take_le (code : List IrInstruction) (k : ℕ) :
    results (code.take k) ≤ results code :=
  (List.take_sublist k code).countP_le

theorem numbered_ofValue {low n : ℕ} {kind : IrInstructionKind} {ty : IrType} {span : Span}
    (hproduces : produces kind = true) (h : ∀ v ∈ values kind, low ≤ v ∧ v < n) :
    Numbered low n [⟨kind, some n, ty, span⟩] :=
  ⟨h, by rw [hproduces]; rfl, trivial⟩

theorem numbered_effect {low n : ℕ} {kind : IrInstructionKind} {ty : IrType} {span : Span}
    (hproduces : produces kind = false) (h : ∀ v ∈ values kind, low ≤ v ∧ v < n) :
    Numbered low n [⟨kind, none, ty, span⟩] :=
  ⟨h, by rw [hproduces]; rfl, trivial⟩

/-- No instruction of the code leaves the block. -/
def Straight (code : List IrInstruction) : Prop := ∀ i ∈ code, targets i.kind = []

theorem straight_append {first second : List IrInstruction} :
    Straight (first ++ second) ↔ Straight first ∧ Straight second := by
  simp only [Straight, List.forall_mem_append]

theorem straight_singleton {i : IrInstruction} : Straight [i] ↔ targets i.kind = [] := by
  simp only [Straight, List.forall_mem_singleton]

def terminates : IrInstructionKind → Bool
  | .branch _ _ _ | .jump _ | .return _ => true
  | _ => false

/-- The code always runs to its end. -/
def Plain (code : List IrInstruction) : Prop := ∀ i ∈ code, terminates i.kind = false

theorem plain_append {first second : List IrInstruction} :
    Plain (first ++ second) ↔ Plain first ∧ Plain second := by
  simp only [Plain, List.forall_mem_append]

theorem plain_singleton {i : IrInstruction} : Plain [i] ↔ terminates i.kind = false := by
  simp only [Plain, List.forall_mem_singleton]

theorem Plain.straight {code : List IrInstruction} (h : Plain code) : Straight code := by
  intro i hi
  have hplain := h i hi
  unfold targets
  split <;> simp_all [terminates]

/-- Some instruction uses the value that was numbered last. -/
def UsesLast (n : ℕ) (code : List IrInstruction) : Prop :=
  ∃ before i after, code = before ++ i :: after ∧
    ∃ v ∈ values i.kind, v + 1 = n + results before

/-- Code that uses values at all uses the last one somewhere. -/
def Tight (n : ℕ) (code : List IrInstruction) : Prop :=
  (∀ i ∈ code, values i.kind = []) ∨ UsesLast n code

theorem tight_nil (n : ℕ) : Tight n [] := .inl nofun

theorem UsesLast.append_right {n : ℕ} {first : List IrInstruction} (h : UsesLast n first)
    (second : List IrInstruction) : UsesLast n (first ++ second) := by
  obtain ⟨before, i, after, rfl, hv⟩ := h
  exact ⟨before, i, after ++ second, by simp, hv⟩

theorem UsesLast.append_left {n : ℕ} {second : List IrInstruction} (first : List IrInstruction)
    (h : UsesLast (n + results first) second) : UsesLast n (first ++ second) := by
  obtain ⟨before, i, after, rfl, v, hv, hlast⟩ := h
  refine ⟨first ++ before, i, after, by simp, v, hv, ?_⟩
  rw [results_append]
  omega

theorem Tight.append {n : ℕ} {first second : List IrInstruction} (h : Tight n first)
    (h' : Tight (n + results first) second) : Tight n (first ++ second) := by
  rcases h with hfirst | hfirst
  · rcases h' with hsecond | hsecond
    · exact .inl (List.forall_mem_append.mpr ⟨hfirst, hsecond⟩)
    · exact .inr (hsecond.append_left first)
  · exact .inr (hfirst.append_right second)

theorem usesLast_singleton {n v : ℕ} {i : IrInstruction} (hv : v ∈ values i.kind)
    (hlast : v + 1 = n) : UsesLast n [i] :=
  ⟨[], i, [], rfl, v, hv, hlast⟩

/-- Code of an expression that starts with value `n`: the value it computes is
    the last one it produces. -/
structure WellNumbered (n : ℕ) (lowered : Lowered) : Prop where
  numbered : Numbered n n lowered.code
  tight : Tight n lowered.code
  plain : Plain lowered.code
  next : lowered.next = n + results lowered.code
  value : lowered.value + 1 = lowered.next
  first : n ≤ lowered.value

/-- Code of expressions one after the other. -/
structure WellNumberedList (n : ℕ) (code : List IrInstruction) (stop : ℕ) (lowered : List ℕ) :
    Prop where
  numbered : Numbered n n code
  tight : Tight n code
  plain : Plain code
  next : stop = n + results code
  value : ∀ v ∈ lowered, n ≤ v ∧ v < stop
  last : ∀ v, lowered.getLast? = some v → v + 1 = stop
  empty : lowered = [] → code = []

theorem WellNumberedList.nil (n : ℕ) : WellNumberedList n [] n [] :=
  ⟨trivial, tight_nil n, nofun, rfl, nofun, nofun, fun _ => rfl⟩

theorem WellNumberedList.ofValue {n stop : ℕ} {code : List IrInstruction}
    {kind : IrInstructionKind} (h : WellNumberedList n code stop (values kind))
    (hproduces : produces kind = true) (ty : IrType) (span : Span) :
    WellNumbered n (.ofValue code stop kind ty span) where
  numbered := by
    refine numbered_append.mpr ⟨h.numbered, ?_⟩
    rw [← h.next]
    exact numbered_ofValue hproduces h.value
  tight := by
    refine h.tight.append ?_
    by_cases hempty : values kind = []
    · exact .inl (List.forall_mem_singleton.mpr hempty)
    · have hmem := List.getLast_mem hempty
      have hlast := h.last _ (List.getLast?_eq_some_getLast hempty)
      have hnext := h.next
      exact .inr (usesLast_singleton hmem (by omega))
  plain := by
    refine plain_append.mpr ⟨h.plain, plain_singleton.mpr ?_⟩
    cases kind <;> first | rfl | cases hproduces
  next := by
    change stop + 1 = n + results (code ++ [_])
    rw [results_append, results_of_produces hproduces, h.next, Nat.add_assoc]
  value := rfl
  first := by
    have hnext := h.next
    change n ≤ stop
    omega

theorem WellNumbered.leaf {n : ℕ} {kind : IrInstructionKind} {ty : IrType} {span : Span}
    (hproduces : produces kind = true) (hvalues : values kind = []) :
    WellNumbered n (.ofValue [] n kind ty span) := by
  have hnil := WellNumberedList.nil n
  rw [← hvalues] at hnil
  exact hnil.ofValue hproduces ty span

theorem WellNumberedList.cons {n stop : ℕ} {first : Lowered} {code : List IrInstruction}
    {rest : List ℕ} (hfirst : WellNumbered n first)
    (hrest : WellNumberedList first.next code stop rest) :
    WellNumberedList n (first.code ++ code) stop (first.value :: rest) where
  numbered := by
    refine numbered_append.mpr ⟨hfirst.numbered, ?_⟩
    rw [← hfirst.next]
    have hvalue := hfirst.value
    have hle := hfirst.first
    exact hrest.numbered.mono (by omega)
  tight := by
    refine hfirst.tight.append ?_
    rw [← hfirst.next]
    exact hrest.tight
  plain := plain_append.mpr ⟨hfirst.plain, hrest.plain⟩
  next := by
    rw [hrest.next, hfirst.next, results_append, Nat.add_assoc]
  value := by
    have hnext := hrest.next
    have hvalue := hfirst.value
    have hle := hfirst.first
    intro v hv
    rcases List.mem_cons.mp hv with rfl | hv
    · omega
    · have hbounds := hrest.value v hv
      omega
  last := by
    intro v hv
    by_cases hempty : rest = []
    · have hcode := hrest.empty hempty
      have hnext := hrest.next
      rw [hcode, results_nil, Nat.add_zero] at hnext
      rw [hempty, List.getLast?_singleton] at hv
      cases hv
      rw [hfirst.value, hnext]
    · rw [List.getLast?_cons_of_ne_nil hempty] at hv
      exact hrest.last v hv
  empty := nofun

theorem WellNumbered.singleton {n : ℕ} {lowered : Lowered} (h : WellNumbered n lowered) :
    WellNumberedList n lowered.code lowered.next [lowered.value] := by
  have hsingle := WellNumberedList.cons h (.nil _)
  rwa [List.append_nil] at hsingle

theorem memberStoreCode_numbered {low object : ℕ} {property : String}
    {operator : AssignmentOperator} {right : Lowered} {leftSpan span : Span}
    (hobject : low ≤ object ∧ object < right.next) (hright : low ≤ right.value)
    (hvalue : right.value + 1 = right.next) :
    let stored := memberStoreCode object property operator right leftSpan span
    Numbered low right.next stored.1 ∧ UsesLast right.next stored.1 ∧ Plain stored.1 ∧
      stored.2.1 = right.next + results stored.1 ∧ stored.2.2 + 1 = stored.2.1 := by
  have hstore (value n : ℕ) (hlow : low ≤ value) (hn : value < n) (hle : right.next ≤ n) :
      Numbered low n [⟨.storeMember object property value, none, right.ty, span⟩] := by
    refine numbered_effect rfl fun v hv => ?_
    simp only [values, List.mem_cons, List.not_mem_nil, or_false] at hv
    rcases hv with rfl | rfl <;> omega
  have huses (value n : ℕ) (hn : value + 1 = n) :
      UsesLast n [⟨.storeMember object property value, none, right.ty, span⟩] :=
    usesLast_singleton (List.mem_cons_of_mem _ List.mem_cons_self) hn
  cases operator with
  | assign =>
    exact ⟨hstore _ _ hright (by omega) (Nat.le_refl _), huses _ _ hvalue,
      plain_singleton.mpr rfl, rfl, hvalue⟩
  | _ =>
    refine ⟨⟨?_, rfl, ?_, rfl, hstore _ _ ?_ ?_ ?_⟩, ?_, ?_, rfl, rfl⟩
    · intro v hv
      obtain rfl := List.mem_singleton.mp hv
      exact hobject
    · intro v hv
      simp only [values, List.mem_cons, List.not_mem_nil, or_false] at hv
      change _ ∧ v < right.next + 1
      rcases hv with rfl | rfl <;> omega
    · omega
    · exact Nat.lt_succ_self _
    · exact Nat.le_add_right _ 2
    · exact (huses (right.next + 1) (right.next + 2) rfl).append_left [_, _]
    · simp [memberStoreCode, Plain, terminates]

section

variable (types : List (String × IrType))

mutual

theorem expressionCode_wellNumbered : ∀ (expression : Expression) (n : ℕ),
    WellNumbered n (expressionCode types expression n)
  | .identifier _ _, _ | .number _ _, _ | .string _ _, _ | .boolean _ _, _ | .null _, _
  | .undefined _, _ | .error _, _ => .leaf rfl rfl
  | .object properties span, n => by
    have hproperties := propertiesCode_wellNumbered properties n
    refine WellNumberedList.ofValue ?_ rfl _ span
    simpa only [values, List.map_map, Function.comp_def] using hproperties
  | .array elements span, n => (expressionsCode_wellNumbered elements n).ofValue rfl _ span
  | .member object property span, n =>
    (expressionCode_wellNumbered object n).singleton.ofValue rfl _ span
  | .call callee arguments span, n => (expressionsCode_wellNumbered arguments n).ofValue rfl _ span
  | .binary left operator right span, n => by
    have hleft := expressionCode_wellNumbered left n
    have hright := expressionCode_wellNumbered right (expressionCode types left n).next
    exact (WellNumberedList.cons hleft hright.singleton).ofValue rfl _ span
  | .assignment left operator right span, n => by
    cases left with
    | identifier name leftSpan =>
      have hright := expressionCode_wellNumbered right n
      have hvalue := hright.value
      have hstore : Numbered n (expressionCode types right n).next
          [⟨.storeLocal name (expressionCode types right n).value, none,
            (expressionCode types right n).ty, span⟩] := by
        refine numbered_effect rfl fun v hv => ?_
        obtain rfl := List.mem_singleton.mp hv
        exact ⟨hright.first, by omega⟩
      have huses : UsesLast (n + results (expressionCode types right n).code)
          [⟨.storeLocal name (expressionCode types right n).value, none,
            (expressionCode types right n).ty, span⟩] :=
        usesLast_singleton List.mem_cons_self (by rw [hvalue, hright.next])
      rw [hright.next] at hstore
      refine ⟨numbered_append.mpr ⟨hright.numbered, hstore⟩, hright.tight.append (.inr huses),
        plain_append.mpr ⟨hright.plain, plain_singleton.mpr rfl⟩, ?_, hvalue,
        hright.first⟩
      change _ = n + results (_ ++ _)
      rw [results_append]
      exact hright.next
    | member object property leftSpan =>
      have hobject := expressionCode_wellNumbered object n
      have hright := expressionCode_wellNumbered right (expressionCode types object n).next
      have hboth := WellNumberedList.cons hobject hright.singleton
      have hobjectBounds := hboth.value _ List.mem_cons_self
      have hrightBounds := hboth.value _ (List.mem_cons_of_mem _ List.mem_cons_self)
      obtain ⟨hnumbered, huses, hplain, hnext, hvalue⟩ := memberStoreCode_numbered
        hobjectBounds hrightBounds.1 hright.value
      have hstop := hboth.next
      rw [hstop] at hnumbered huses
      refine ⟨numbered_append.mpr ⟨hboth.numbered, hnumbered⟩, hboth.tight.append (.inr huses),
        plain_append.mpr ⟨hboth.plain, hplain⟩, ?_, hvalue, ?_⟩
      · change _ = n + results (_ ++ _)
        rw [results_append, ← Nat.add_assoc, ← hstop]
        exact hnext
      · change n ≤ (memberStoreCode _ _ _ _ _ _).2.2
        omega
    | _ => exact expressionCode_wellNumbered right n
  | .unary _ argument _, n => expressionCode_wellNumbered argument n

theorem expressionsCode_wellNumbered : ∀ (expressions : List Expression) (n : ℕ),
    let lowered := expressionsCode types expressions n
    WellNumberedList n lowered.1 lowered.2.1 (lowered.2.2.map Prod.fst)
  | [], n => .nil n
  | expression :: expressions, n =>
    .cons (expressionCode_wellNumbered expression n) (expressionsCode_wellNumbered expressions _)

theorem propertiesCode_wellNumbered : ∀ (properties : List ObjectProperty) (n : ℕ),
    let lowered := propertiesCode types properties n
    WellNumberedList n lowered.1 lowered.2.1 (lowered.2.2.map fun field => field.2.1)
  | [], n => .nil n
  | .mk _ value _ :: properties, n =>
    .cons (expressionCode_wellNumbered value n) (propertiesCode_wellNumbered properties _)

end

end

/-- The code of a statement without substatements, and the local types after it. -/
structure StatementCode where
  code : List IrInstruction
  next : ℕ
  locals : List (String × IrType)

def variableCode (types : List (String × IrType)) (declaration : VariableDeclaration) (span : Span)
    (n : ℕ) : StatementCode :=
  let declaredType := (declaration.ty.map typeFromNode).getD .unknown
  let lowered :=
    match declaration.initializer with
    | some expression => expressionCode types expression n
    | none => .ofValue [] n (.loadConst .undefined) .undefined span
  let localType := if declaredType.isUnknown then lowered.ty else declaredType
  ⟨lowered.code ++ [⟨.storeLocal declaration.name lowered.value, none, localType, span⟩],
    lowered.next, (declaration.name, localType) :: types⟩

def returnCode (types : List (String × IrType)) (value : Option Expression) (span : Span) (n : ℕ) :
    StatementCode :=
  match value with
  | some expression =>
    let lowered := expressionCode types expression n
    ⟨lowered.code ++ [⟨.return (some lowered.value), none, .undefined, span⟩], lowered.next, types⟩
  | none => ⟨[⟨.return none, none, .undefined, span⟩], n, types⟩

def appendStatement (lowered : StatementCode) (s : FunctionLowerer) : FunctionLowerer :=
  { append lowered.code lowered.next s with locals := lowered.locals }

theorem lowerVariable_eq (declaration : VariableDeclaration) (span : Span) (s : FunctionLowerer) :
    lowerVariable declaration span s =
      appendStatement (variableCode s.locals declaration span s.nextValue) s := by
  obtain ⟨kind, name, ty, initializer⟩ := declaration
  have hstore (lowered : Lowered) (localType : IrType) :
      ((append lowered.code lowered.next s).insertLocal name localType).emit
          (.storeLocal name lowered.value) none localType span =
        appendStatement
          ⟨lowered.code ++ [⟨.storeLocal name lowered.value, none, localType, span⟩], lowered.next,
            (name, localType) :: s.locals⟩ s := by
    rw [appendStatement, ← append_append _ _ lowered.next]
    rfl
  cases initializer with
  | some expression =>
    simp only [lowerVariable, lowerExpression_eq]
    exact hstore _ _
  | none => exact hstore (.ofValue [] s.nextValue (.loadConst .undefined) .undefined span) _

theorem lowerReturn_eq (value : Option Expression) (span : Span) (s : FunctionLowerer) :
    lowerReturn value span s = appendStatement (returnCode s.locals value span s.nextValue) s := by
  cases value with
  | some expression =>
    simp only [lowerReturn, lowerExpression_eq, emit_append]
    rfl
  | none => rfl

/-- The code of a statement leaves neither its block nor the numbering. -/
structure WellNumberedStatement (n : ℕ) (lowered : StatementCode) : Prop where
  numbered : Numbered n n lowered.code
  tight : Tight n lowered.code
  straight : Straight lowered.code
  next : lowered.next = n + results lowered.code

theorem WellNumbered.effect {n : ℕ} {lowered : Lowered} (h : WellNumbered n lowered)
    {kind : IrInstructionKind} (ty : IrType) (span : Span) (locals : List (String × IrType))
    (hproduces : produces kind = false) (hstraight : targets kind = [])
    (hvalues : values kind = [lowered.value]) :
    WellNumberedStatement n
      ⟨lowered.code ++ [⟨kind, none, ty, span⟩], lowered.next, locals⟩ where
  numbered := by
    have hfirst := h.first
    have hvalue := h.value
    refine numbered_append.mpr ⟨h.numbered, numbered_effect hproduces fun v hv => ?_⟩
    rw [hvalues, List.mem_singleton] at hv
    rw [← h.next, hv]
    omega
  tight := by
    have hvalue := h.value
    have hnext := h.next
    refine h.tight.append (.inr (usesLast_singleton (v := lowered.value) ?_ (by omega)))
    rw [hvalues]
    exact List.mem_cons_self
  straight := straight_append.mpr ⟨h.plain.straight, straight_singleton.mpr hstraight⟩
  next := by
    change lowered.next = n + results (lowered.code ++ [_])
    rw [results_append, results_of_not_produces hproduces]
    exact h.next

theorem variableCode_wellNumbered (types : List (String × IrType))
    (declaration : VariableDeclaration) (span : Span) (n : ℕ) :
    WellNumberedStatement n (variableCode types declaration span n) := by
  obtain ⟨kind, name, ty, initializer⟩ := declaration
  cases initializer with
  | some expression =>
    exact (expressionCode_wellNumbered types expression n).effect _ span _ rfl rfl rfl
  | none =>
    have hleaf : WellNumbered n (.ofValue [] n (.loadConst .undefined) .undefined span) :=
      .leaf rfl rfl
    exact hleaf.effect _ span _ rfl rfl rfl

theorem returnCode_wellNumbered (types : List (String × IrType)) (value : Option Expression)
    (span : Span) (n : ℕ) : WellNumberedStatement n (returnCode types value span n) := by
  cases value with
  | some expression =>
    exact (expressionCode_wellNumbered types expression n).effect _ span _ rfl rfl rfl
  | none =>
    exact ⟨numbered_effect rfl nofun, .inl (List.forall_mem_singleton.mpr rfl),
      straight_singleton.mpr rfl, rfl⟩

end Tsvm.LoweringCode
