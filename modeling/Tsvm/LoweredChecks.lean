import Tsvm.SourceChecks

set_option autoImplicit false

/-!
# The checks on lowered code

`checkCode` is the check of block 0 and `LeafCode` that of every other block.
The check of the syntax tree decides both.
-/
namespace Tsvm.LoweredChecks
open Ast Ir Lowering LoweringCode LoweringBlocks SourceChecks

def checkInstruction (instruction : IrInstruction) (known : List String) : Option (List String) :=
  match instruction.kind with
  | .loadLocal name => if name ∈ known then some known else none
  | .storeLocal name _ => some (name :: known)
  | .binary _ _ _ => if instruction.ty.isUnknown then none else some known
  | _ => some known

def checkCode : List IrInstruction → List String → Option (List String)
  | [], known => some known
  | instruction :: code, known => do
    let known ← checkInstruction instruction known
    checkCode code known

theorem checkCode_append (first second : List IrInstruction) :
    checkCode (first ++ second) = fun known => (checkCode first known).bind (checkCode second) := by
  funext known
  induction first generalizing known with
  | nil => rfl
  | cons instruction first ih =>
    simp only [List.cons_append, checkCode, Option.bind_eq_bind, Option.bind_assoc, ih]

theorem checkCode_singleton (instruction : IrInstruction) :
    checkCode [instruction] = checkInstruction instruction :=
  funext fun _ => Option.bind_fun_some _

theorem checkCode_ofValue (code : List IrInstruction) (next : ℕ) (kind : IrInstructionKind)
    (ty : IrType) (span : Span) (h : checkInstruction ⟨kind, some next, ty, span⟩ = some) :
    checkCode (Lowered.ofValue code next kind ty span).code = checkCode code := by
  rw [Lowered.ofValue, checkCode_append, checkCode_singleton, h]
  exact funext fun _ => Option.bind_fun_some _

def LeafInstruction (params : List String) (instruction : IrInstruction) : Prop :=
  values instruction.kind = [] ∧ ∀ name, instruction.kind = .loadLocal name → name ∈ params

def LeafCode (params : List String) (code : List IrInstruction) : Prop :=
  ∀ instruction ∈ code, LeafInstruction params instruction

theorem leafCode_append {params : List String} {first second : List IrInstruction} :
    LeafCode params (first ++ second) ↔ LeafCode params first ∧ LeafCode params second := by
  simp only [LeafCode, List.forall_mem_append]

theorem leafCode_singleton {params : List String} {instruction : IrInstruction} :
    LeafCode params [instruction] ↔ LeafInstruction params instruction := by
  simp only [LeafCode, List.forall_mem_singleton]

section

variable (types : List (String × IrType))

mutual

theorem expressionCode_type : ∀ (expression : Expression) (n : ℕ),
    (expressionCode types expression n).ty = expressionType types expression
  | .identifier _ _, _ | .number _ _, _ | .string _ _, _ | .boolean _ _, _ | .null _, _
  | .undefined _, _ | .error _, _ | .call _ _ _, _ | .binary _ _ _ _, _ => rfl
  | .object properties _, n => congrArg IrType.object (propertiesCode_types properties n)
  | .array elements _, n => by
    simp only [expressionCode, Lowered.ofValue, expressionType, expressionsCode_types elements n]
  | .member object property _, n => by
    simp only [expressionCode, Lowered.ofValue, expressionType, expressionCode_type object n]
  | .assignment left _ right _, n => by
    cases left with
    | member object property leftSpan => exact expressionCode_type right _
    | _ => exact expressionCode_type right n
  | .unary _ argument _, n => expressionCode_type argument n

theorem expressionsCode_types : ∀ (expressions : List Expression) (n : ℕ),
    (expressionsCode types expressions n).2.2.map Prod.snd = expressionTypes types expressions
  | [], _ => rfl
  | expression :: expressions, n => by
    simp only [expressionsCode, List.map_cons, expressionTypes, expressionCode_type expression n,
      expressionsCode_types expressions]

theorem propertiesCode_types : ∀ (properties : List ObjectProperty) (n : ℕ),
    (propertiesCode types properties n).2.2.map (fun field => (field.1, field.2.2)) =
      propertyTypes types properties
  | [], _ => rfl
  | .mk name value _ :: properties, n => by
    simp only [propertiesCode, List.map_cons, propertyTypes, expressionCode_type value n,
      propertiesCode_types properties]

end

theorem checkCode_memberStoreCode (object : ℕ) (property : String) (operator : AssignmentOperator)
    (right : Lowered) (leftSpan span : Span) :
    checkCode (memberStoreCode object property operator right leftSpan span).1 = fun known =>
      if operator ≠ .assign ∧ right.ty.isUnknown then none else some known := by
  funext known
  cases operator <;>
    by_cases hunknown : right.ty.isUnknown = true <;>
      simp [memberStoreCode, checkCode, checkInstruction, hunknown]

theorem checkInstruction_binary (operator : BinaryOperator) (left right next : ℕ) (span : Span) :
    checkInstruction ⟨.binary (binaryOp operator) left right, some next, binaryType operator, span⟩ =
      fun known => if operator = .nullishCoalesce then none else some known := by
  funext known
  cases operator <;> rfl

mutual

theorem checkCode_expressionCode : ∀ (expression : Expression) (n : ℕ),
    checkCode (expressionCode types expression n).code = checkExpression types expression
  | .identifier name _, n => by
    rw [expressionCode, Lowered.ofValue, List.nil_append, checkCode_singleton]
    rfl
  | .number _ _, _ | .string _ _, _ | .boolean _ _, _ | .null _, _ | .undefined _, _
  | .error _, _ => rfl
  | .object properties _, n =>
    (checkCode_ofValue _ _ _ _ _ rfl).trans (checkCode_propertiesCode properties n)
  | .array elements _, n =>
    (checkCode_ofValue _ _ _ _ _ rfl).trans (checkCode_expressionsCode elements n)
  | .member object _ _, n =>
    (checkCode_ofValue _ _ _ _ _ rfl).trans (checkCode_expressionCode object n)
  | .call _ arguments _, n =>
    (checkCode_ofValue _ _ _ _ _ rfl).trans (checkCode_expressionsCode arguments n)
  | .binary left operator right _, n => by
    simp only [expressionCode, Lowered.ofValue, checkCode_append, checkCode_singleton,
      checkCode_expressionCode left n, checkCode_expressionCode right, checkInstruction_binary,
      Option.bind_assoc]
    rfl
  | .assignment left operator right _, n => by
    cases left with
    | identifier name leftSpan =>
      simp only [expressionCode, checkCode_append, checkCode_expressionCode right n,
        checkCode_singleton]
      rfl
    | member object property leftSpan =>
      simp only [expressionCode, checkCode_append, checkCode_expressionCode object n,
        checkCode_expressionCode right, checkCode_memberStoreCode, expressionCode_type,
        Option.bind_assoc]
      rfl
    | _ => exact checkCode_expressionCode right n
  | .unary _ argument _, n => checkCode_expressionCode argument n

theorem checkCode_expressionsCode : ∀ (expressions : List Expression) (n : ℕ),
    checkCode (expressionsCode types expressions n).1 = checkExpressions types expressions
  | [], _ => rfl
  | expression :: expressions, n => by
    simp only [expressionsCode, checkCode_append, checkCode_expressionCode expression n,
      checkCode_expressionsCode expressions]
    rfl

theorem checkCode_propertiesCode : ∀ (properties : List ObjectProperty) (n : ℕ),
    checkCode (propertiesCode types properties n).1 = checkProperties types properties
  | [], _ => rfl
  | .mk _ value _ :: properties, n => by
    simp only [propertiesCode, checkCode_append, checkCode_expressionCode value n,
      checkCode_propertiesCode properties]
    rfl

end

theorem not_leafCode_memberStoreCode (params : List String) (object : ℕ) (property : String)
    (operator : AssignmentOperator) (right : Lowered) (leftSpan span : Span) :
    ¬ LeafCode params (memberStoreCode object property operator right leftSpan span).1 := by
  intro h
  cases operator <;> exact absurd (h _ List.mem_cons_self).1 (List.cons_ne_nil _ _)

theorem leafCode_expressionCode (params : List String) : ∀ (expression : Expression) (n : ℕ),
    LeafCode params (expressionCode types expression n).code ↔
      leafExpression params expression = true
  | .identifier name span, n => by
    simp [expressionCode, Lowered.ofValue, leafCode_singleton, LeafInstruction, values,
      leafExpression]
  | .number _ _, _ | .string _ _, _ | .boolean _ _, _ | .null _, _ | .undefined _, _
  | .error _, _ => by
    simp [expressionCode, Lowered.ofValue, leafCode_singleton, LeafInstruction, values,
      leafExpression]
  | .object properties _, n => by
    cases properties with
    | nil =>
      simp [expressionCode, propertiesCode, Lowered.ofValue, leafCode_singleton, LeafInstruction,
        values, leafExpression]
    | cons property properties =>
      obtain ⟨name, value, span⟩ := property
      simp [expressionCode, propertiesCode, Lowered.ofValue, leafCode_append, leafCode_singleton,
        LeafInstruction, values, leafExpression]
  | .array elements _, n => by
    cases elements with
    | nil =>
      simp [expressionCode, expressionsCode, Lowered.ofValue, leafCode_singleton, LeafInstruction,
        values, leafExpression]
    | cons element elements =>
      simp [expressionCode, expressionsCode, Lowered.ofValue, leafCode_append, leafCode_singleton,
        LeafInstruction, values, leafExpression]
  | .call _ arguments _, n => by
    cases arguments with
    | nil =>
      simp [expressionCode, expressionsCode, Lowered.ofValue, leafCode_singleton, LeafInstruction,
        values, leafExpression]
    | cons argument arguments =>
      simp [expressionCode, expressionsCode, Lowered.ofValue, leafCode_append, leafCode_singleton,
        LeafInstruction, values, leafExpression]
  | .member _ _ _, n | .binary _ _ _ _, n => by
    simp [expressionCode, Lowered.ofValue, leafCode_append, leafCode_singleton, LeafInstruction,
      values, leafExpression]
  | .assignment left operator right _, n => by
    cases left with
    | identifier name leftSpan =>
      simp [expressionCode, leafCode_append, leafCode_singleton, LeafInstruction, values,
        leafExpression]
    | member object property leftSpan =>
      simp [expressionCode, leafCode_append, not_leafCode_memberStoreCode, leafExpression]
    | _ => exact leafCode_expressionCode params right n
  | .unary _ argument _, n => leafCode_expressionCode params argument n

end

def hasTerminator (code : List IrInstruction) : Bool :=
  code.any fun instruction => terminates instruction.kind

theorem hasTerminator_append (first second : List IrInstruction) :
    hasTerminator (first ++ second) = (hasTerminator first || hasTerminator second) :=
  List.any_append

theorem Plain.hasTerminator {code : List IrInstruction} (h : Plain code) :
    LoweredChecks.hasTerminator code = false := by
  rw [LoweredChecks.hasTerminator, List.any_eq_false]
  intro instruction hmem
  rw [h instruction hmem]
  exact Bool.false_ne_true

/-- The code of the blocks passes the checks. -/
structure Acceptable (params : List String) (blocks : List IrBlock) : Prop where
  first : ∀ block : IrBlock, blocks[0]? = some block →
    (checkCode block.instructions params).isSome = true
  rest : ∀ (i : ℕ) (block : IrBlock), i ≠ 0 → blocks[i]? = some block →
    LeafCode params block.instructions

def Ends (blocks : List IrBlock) : Prop :=
  ∃ block ∈ blocks, hasTerminator block.instructions = true

theorem checkCode_isSome_prefix {first code : List IrInstruction} (h : first <+: code)
    {known : List String} (hcode : (checkCode code known).isSome = true) :
    (checkCode first known).isSome = true := by
  obtain ⟨second, rfl⟩ := h
  rw [checkCode_append] at hcode
  cases hfirst : checkCode first known with
  | none =>
    simp only [hfirst] at hcode
    cases hcode
  | some known' => rfl

theorem Acceptable.of_grows {params : List String} {s s' : FunctionLowerer}
    (h : Acceptable params s'.blocks) (hgrows : CodeGrows s s') : Acceptable params s.blocks where
  first := by
    intro block hblock
    obtain ⟨block', hblock', hle⟩ := hgrows 0 block hblock
    exact checkCode_isSome_prefix hle (h.first block' hblock')
  rest := by
    intro i block hi hblock
    obtain ⟨block', hblock', hle⟩ := hgrows i block hblock
    exact fun instruction hmem => h.rest i block' hi hblock' instruction (hle.subset hmem)

theorem Ends.of_grows {s s' : FunctionLowerer} (h : Ends s.blocks) (hgrows : CodeGrows s s') :
    Ends s'.blocks := by
  obtain ⟨block, hmem, hends⟩ := h
  obtain ⟨i, hi⟩ := List.getElem?_of_mem hmem
  obtain ⟨block', hblock', hle⟩ := hgrows i block hi
  obtain ⟨instruction, hinstruction, hterminates⟩ := List.any_eq_true.mp hends
  exact ⟨block', List.mem_of_getElem? hblock', List.any_eq_true.mpr
    ⟨instruction, hle.subset hinstruction, hterminates⟩⟩

/-- The lowered code after a statement list with the result of its check. -/
def Tracks (params : List String) : Option Phase → FunctionLowerer → Prop
  | some (.straight known types ends), s =>
    s.currentBlock = 0 ∧ s.locals = types ∧ ∃ code, s.blocks = [⟨0, code⟩] ∧
      checkCode code params = some known ∧ hasTerminator code = ends
  | some .branched, s => s.currentBlock ≠ 0 ∧ Acceptable params s.blocks ∧ Ends s.blocks
  | none, s => ¬ Acceptable params s.blocks

theorem Tracks.rejected {params : List String} {s s' : FunctionLowerer}
    (h : Tracks params none s) (hgrows : CodeGrows s s') : Tracks params none s' :=
  fun hacceptable => h (hacceptable.of_grows hgrows)

theorem acceptable_single {params : List String} {code : List IrInstruction} :
    Acceptable params [⟨0, code⟩] ↔ (checkCode code params).isSome = true := by
  refine ⟨fun h => h.first _ rfl, fun h => ⟨?_, ?_⟩⟩
  · intro block hblock
    cases hblock
    exact h
  · intro i block hi hblock
    cases i with
    | zero => exact absurd rfl hi
    | succ i => cases hblock

theorem Tracks.straight_append {params known : List String} {types : List (String × IrType)}
    {ends : Bool} {s : FunctionLowerer} (h : Tracks params (some (.straight known types ends)) s)
    (lowered : StatementCode) :
    Tracks params ((checkCode lowered.code known).map fun known =>
        .straight known lowered.locals (ends || hasTerminator lowered.code))
      (appendStatement lowered s) := by
  obtain ⟨hcurrent, _, code, hblocks, hcheck, hends⟩ := h
  have hblocks' : (appendStatement lowered s).blocks = [⟨0, code ++ lowered.code⟩] := by
    change s.blocks.modify s.currentBlock _ = _
    rw [hblocks, hcurrent]
    rfl
  have hcheck' : checkCode (code ++ lowered.code) params = checkCode lowered.code known := by
    simp only [checkCode_append, hcheck, Option.bind_some]
  cases hnew : checkCode lowered.code known with
  | none =>
    intro hacceptable
    rw [hblocks', acceptable_single, hcheck', hnew] at hacceptable
    cases hacceptable
  | some known' =>
    exact ⟨hcurrent, rfl, code ++ lowered.code, hblocks', by rw [hcheck', hnew], by
      rw [hasTerminator_append, hends]⟩

theorem getElem?_modify_current {blocks : List IrBlock} {current : ℕ} {block : IrBlock}
    (h : blocks[current]? = some block) (code : List IrInstruction) :
    (blocks.modify current fun block =>
        { block with instructions := block.instructions ++ code })[current]? =
      some { block with instructions := block.instructions ++ code } := by
  rw [List.getElem?_modify_eq, h]
  rfl

/-- Code that goes to another block passes the checks when it uses no value. -/
theorem acceptable_modify {params : List String} {blocks : List IrBlock} {current : ℕ}
    (h : Acceptable params blocks) (hcurrent : current ≠ 0) (hlt : current < blocks.length)
    (code : List IrInstruction) :
    Acceptable params (blocks.modify current fun block =>
        { block with instructions := block.instructions ++ code }) ↔ LeafCode params code := by
  constructor
  · intro hnew
    have hcode := hnew.rest current _ hcurrent
      (getElem?_modify_current (List.getElem?_eq_getElem hlt) code)
    exact (leafCode_append.mp hcode).2
  · intro hcode
    refine ⟨?_, ?_⟩
    · intro block hblock
      obtain ⟨old, hold, _, hinstructions⟩ := getElem?_modify_block hblock
      rw [hinstructions, if_neg hcurrent, List.append_nil]
      exact h.first old hold
    · intro i block hi hblock
      obtain ⟨old, hold, _, hinstructions⟩ := getElem?_modify_block hblock
      rw [hinstructions]
      refine leafCode_append.mpr ⟨h.rest i old hi hold, ?_⟩
      by_cases hsame : current = i
      · rw [if_pos hsame]
        exact hcode
      · rw [if_neg hsame]
        exact nofun

theorem Tracks.branched_append {params : List String} {s : FunctionLowerer}
    (h : Tracks params (some .branched) s) (hlt : s.currentBlock < s.blocks.length)
    (lowered : StatementCode) {phase : Option Phase}
    (hleaf : LeafCode params lowered.code → phase = some .branched)
    (hnot : ¬ LeafCode params lowered.code → phase = none) :
    Tracks params phase (appendStatement lowered s) := by
  obtain ⟨hcurrent, hacceptable, hends⟩ := h
  have hmodify := acceptable_modify hacceptable hcurrent hlt lowered.code
  by_cases hcode : LeafCode params lowered.code
  · rw [hleaf hcode]
    exact ⟨hcurrent, hmodify.mpr hcode, hends.of_grows (.modify s lowered.code rfl)⟩
  · rw [hnot hcode]
    exact fun hnew => hcode (hmodify.mp hnew)

section

variable {params known : List String} {types : List (String × IrType)} {ends : Bool}

theorem expressionCode_hasTerminator (expression : Expression) (n : ℕ) :
    hasTerminator (expressionCode types expression n).code = false :=
  Plain.hasTerminator (expressionCode_wellNumbered types expression n).plain

theorem checkVariable_straight (declaration : VariableDeclaration) (span : Span) (n : ℕ) :
    checkVariable declaration (.straight known types ends) =
      (checkCode (variableCode types declaration span n).code known).map fun known =>
        .straight known (variableCode types declaration span n).locals
          (ends || hasTerminator (variableCode types declaration span n).code) := by
  obtain ⟨kind, name, ty, initializer⟩ := declaration
  cases initializer with
  | some expression =>
    simp only [checkVariable, variableCode, checkCode_append, checkCode_expressionCode,
      checkCode_singleton, hasTerminator_append, expressionCode_hasTerminator,
      expressionCode_type, Bool.false_or]
    cases checkExpression types expression known with
    | none => rfl
    | some known' => simp [checkInstruction, hasTerminator, terminates]
  | none => simp [checkVariable, variableCode, Lowered.ofValue, checkCode, checkInstruction,
      hasTerminator, terminates]

theorem checkReturn_straight (value : Option Expression) (span : Span) (n : ℕ) :
    checkReturn value (.straight known types ends) =
      (checkCode (returnCode types value span n).code known).map fun known =>
        .straight known (returnCode types value span n).locals
          (ends || hasTerminator (returnCode types value span n).code) := by
  cases value with
  | some expression =>
    simp only [checkReturn, returnCode, checkCode_append, checkCode_expressionCode,
      checkCode_singleton, hasTerminator_append, expressionCode_hasTerminator, Bool.false_or]
    cases checkExpression types expression known with
    | none => rfl
    | some known' => simp [checkInstruction, hasTerminator, terminates]
  | none => simp [checkReturn, returnCode, checkCode, checkInstruction, hasTerminator, terminates]

theorem checkValue_straight (value : Expression) (n : ℕ) :
    checkValue params value (.straight known types ends) =
      (checkCode (expressionStatementCode types value n).code known).map fun known =>
        .straight known types
          (ends || hasTerminator (expressionStatementCode types value n).code) := by
  simp only [checkValue, expressionStatementCode, checkCode_expressionCode,
    expressionCode_hasTerminator, Bool.or_false]
  cases checkExpression types value known <;> rfl

theorem not_leafCode_variableCode (declaration : VariableDeclaration) (span : Span) (n : ℕ) :
    ¬ LeafCode params (variableCode types declaration span n).code := by
  intro h
  have hstore := leafCode_singleton.mp (leafCode_append.mp h).2
  exact List.cons_ne_nil _ _ hstore.1

theorem leafCode_returnCode (value : Option Expression) (span : Span) (n : ℕ) :
    LeafCode params (returnCode types value span n).code ↔ value.isNone = true := by
  cases value with
  | some expression =>
    refine ⟨fun h => ?_, nofun⟩
    have hreturn := leafCode_singleton.mp (leafCode_append.mp h).2
    exact absurd hreturn.1 (List.cons_ne_nil _ _)
  | none => exact ⟨fun _ => rfl, fun _ => leafCode_singleton.mpr ⟨rfl, nofun⟩⟩

end

section

variable {params : List String} {offset : ℕ → Option ℕ} {s : FunctionLowerer} {phase : Phase}

theorem lowerVariable_tracks (h : LayoutOf offset s) (htracks : Tracks params (some phase) s)
    (declaration : VariableDeclaration) (span : Span) :
    Tracks params (checkVariable declaration phase) (lowerVariable declaration span s) := by
  rw [lowerVariable_eq]
  cases phase with
  | straight known types ends =>
    rw [checkVariable_straight declaration span s.nextValue, ← htracks.2.1]
    exact htracks.straight_append _
  | branched =>
    exact htracks.branched_append h.current_lt _
      (fun hleaf => absurd hleaf (not_leafCode_variableCode declaration span _)) fun _ => rfl

theorem lowerReturn_tracks (h : LayoutOf offset s) (htracks : Tracks params (some phase) s)
    (value : Option Expression) (span : Span) :
    Tracks params (checkReturn value phase) (lowerReturn value span s) := by
  rw [lowerReturn_eq]
  cases phase with
  | straight known types ends =>
    rw [checkReturn_straight value span s.nextValue, ← htracks.2.1]
    exact htracks.straight_append _
  | branched =>
    refine htracks.branched_append h.current_lt _ (fun hleaf => ?_) fun hnot => ?_
    · exact if_pos ((leafCode_returnCode value span _).mp hleaf)
    · exact if_neg fun hnone => hnot ((leafCode_returnCode value span _).mpr hnone)

theorem lowerExpression_tracks (h : LayoutOf offset s) (htracks : Tracks params (some phase) s)
    (value : Expression) :
    Tracks params (checkValue params value phase) (lowerExpression value s).2 := by
  rw [lowerExpression_appendStatement]
  cases phase with
  | straight known types ends =>
    rw [checkValue_straight value s.nextValue, ← htracks.2.1]
    exact htracks.straight_append _
  | branched =>
    refine htracks.branched_append h.current_lt _ (fun hleaf => ?_) fun hnot => ?_
    · exact if_pos ((leafCode_expressionCode _ params value _).mp hleaf)
    · exact if_neg fun hvalue => hnot ((leafCode_expressionCode _ params value _).mpr hvalue)

theorem openArms_getElem? (h : LayoutOf offset s) (test : Expression) {i : ℕ} {block : IrBlock}
    (hblock : (openArms test s).blocks[i]? = some block) :
    block.instructions = [] ∨ ∃ old, s.blocks[i]? = some old ∧
      block.instructions = old.instructions ++
        (if s.currentBlock = i then testCode s.locals test s.blocks.length s.nextValue else []) := by
  rw [openArms_blocks test h.current_lt] at hblock
  by_cases hi : i < (s.blocks.modify s.currentBlock fun block =>
      { block with
        instructions := block.instructions ++ testCode s.locals test s.blocks.length s.nextValue }).length
  · rw [List.getElem?_append_left hi] at hblock
    obtain ⟨old, hold, _, hinstructions⟩ := getElem?_modify_block hblock
    exact .inr ⟨old, hold, hinstructions⟩
  · have hmem := List.mem_of_getElem? ((List.getElem?_append_right (by omega)).symm.trans hblock)
    simp only [List.mem_cons, List.not_mem_nil, or_false] at hmem
    rcases hmem with rfl | rfl | rfl <;> exact .inl rfl

theorem openArms_current (test : Expression) (s : FunctionLowerer) :
    (openArms test s).currentBlock = s.blocks.length := rfl

theorem checkCode_testCode (types : List (String × IrType)) (test : Expression) (k n : ℕ) :
    checkCode (testCode types test k n) = checkExpression types test := by
  simp only [testCode, checkCode_append, checkCode_expressionCode, checkCode_singleton]
  exact funext fun _ => Option.bind_fun_some _

theorem openArms_tracks (h : LayoutOf offset s) (htracks : Tracks params (some phase) s)
    (test : Expression) : Tracks params (checkTest test phase) (openArms test s) := by
  have hblocks := openArms_blocks test h.current_lt
  cases phase with
  | straight known types ends =>
    obtain ⟨hcurrent, htypes, code, hcode, hcheck, _⟩ := htracks
    have hopen : (openArms test s).blocks =
        [⟨0, code ++ testCode types test 1 s.nextValue⟩, ⟨1, []⟩, ⟨2, []⟩, ⟨3, []⟩] := by
      rw [hblocks, hcode, hcurrent, htypes]
      rfl
    have hfirst : checkCode (code ++ testCode types test 1 s.nextValue) params =
        checkExpression types test known := by
      simp only [checkCode_append, hcheck, checkCode_testCode, Option.bind_some]
    cases htest : checkExpression types test known with
    | none =>
      have hnone : checkTest test (.straight known types ends) = none := by
        simp only [checkTest, htest, Option.bind_eq_bind, Option.bind_none]
      rw [hnone]
      intro hacceptable
      have hsome := hacceptable.first _ (by rw [hopen]; rfl)
      rw [hfirst, htest] at hsome
      cases hsome
    | some known' =>
      have hsome : checkTest test (.straight known types ends) = some .branched := by
        simp only [checkTest, htest, Option.bind_eq_bind, Option.bind_some]
      rw [hsome]
      refine ⟨?_, ⟨?_, ?_⟩, ⟨0, code ++ testCode types test 1 s.nextValue⟩, ?_, ?_⟩
      · rw [openArms_current, hcode]
        exact Nat.one_ne_zero
      · intro block hblock
        rw [hopen] at hblock
        cases hblock
        rw [hfirst, htest]
        rfl
      · intro i block hi hblock
        rcases openArms_getElem? h test hblock with hempty | ⟨old, _, hinstructions⟩
        · rw [hempty]
          exact nofun
        · rename_i hold
          rw [hcode, List.getElem?_singleton, if_neg hi] at hold
          cases hold
      · rw [hopen]
        exact List.mem_cons_self
      · simp [hasTerminator, testCode, terminates]
  | branched =>
    obtain ⟨hcurrent, hacceptable, _⟩ := htracks
    intro hnew
    have hblock := getElem?_modify_current (List.getElem?_eq_getElem h.current_lt)
      (testCode s.locals test s.blocks.length s.nextValue)
    have hlt := (List.getElem?_eq_some_iff.mp hblock).1
    have hleaf := hnew.rest s.currentBlock _ hcurrent
      (by rw [hblocks]; exact (List.getElem?_append_left hlt).trans hblock)
    have hbranch := (leafCode_append.mp (leafCode_append.mp hleaf).2).2
    exact List.cons_ne_nil _ _ (leafCode_singleton.mp hbranch).1

theorem closeArm_tracks (h : LayoutOf offset s) (htracks : Tracks params (some .branched) s)
    (merge : BlockId) {next : ℕ} (span : Span) (hnext : next ≠ 0) :
    Tracks params (some .branched) (closeArm merge next span s) := by
  obtain ⟨hcurrent, hacceptable, hends⟩ := htracks
  exact ⟨hnext, (acceptable_modify hacceptable hcurrent h.current_lt _).mpr
    (leafCode_singleton.mpr ⟨rfl, nofun⟩), hends.of_grows (closeArm_codeGrows merge next span s)⟩

/-- Once there is more than one block, the check is past an `if`. -/
theorem Tracks.branched (h : Tracks params (some phase) s) (hlength : 1 < s.blocks.length) :
    phase = .branched := by
  cases phase with
  | straight known types ends =>
    obtain ⟨_, _, code, hblocks, _⟩ := h
    rw [hblocks] at hlength
    exact absurd hlength (Nat.lt_irrefl 1)
  | branched => rfl

end

section

variable {params : List String}

theorem Tracks.andThen {first : Option Phase} {next : Phase → Option Phase}
    {s s' : FunctionLowerer} (h : Tracks params first s) (hgrows : CodeGrows s s')
    (hnext : ∀ phase, first = some phase → Tracks params (next phase) s') :
    Tracks params (first >>= next) s' := by
  cases first with
  | none => exact h.rejected hgrows
  | some phase => exact hnext phase rfl

mutual

/-- The check of a statement decides whether its code is acceptable. -/
theorem lowerStatement_tracks : ∀ (statement : Statement) {offset : ℕ → Option ℕ}
    {s : FunctionLowerer} {phase : Phase}, LayoutOf offset s → Tracks params (some phase) s →
      Tracks params (checkStatement params statement phase) (lowerStatement statement s)
  | .variable declaration span, _, _, _, h, htracks => lowerVariable_tracks h htracks declaration span
  | .return value span, _, _, _, h, htracks => lowerReturn_tracks h htracks value span
  | .expression value _, _, _, _, h, htracks | .throw value _, _, _, _, h, htracks =>
    lowerExpression_tracks h htracks value
  | .if test consequent alternate span, offset, s, phase, h, htracks => by
    have hthen := lowerStatement_advances consequent (openArms_layout h test)
    obtain ⟨o₂, hfirst, _, hclosed⟩ := hthen.closeConsequent h test span
    have helse := lowerAlternate_advances alternate hclosed
    obtain ⟨o₃, helseLayout, hsecond⟩ := helse.layout
    have hle₂ := hfirst.le
    have hle₃ := hsecond.le
    rw [closeArm_length] at hle₃
    have hcloseGrows := closeArm_codeGrows (s.blocks.length + 2) (s.blocks.length + 1) span
      (lowerStatement consequent (openArms test s))
    have hmergeGrows := closeArm_codeGrows (s.blocks.length + 2) (s.blocks.length + 2) span
      (lowerAlternate alternate (closeArm (s.blocks.length + 2) (s.blocks.length + 1) span
        (lowerStatement consequent (openArms test s))))
    rw [lowerStatement_if]
    refine (openArms_tracks h htracks test).andThen
      (hthen.code.trans (hcloseGrows.trans (helse.code.trans hmergeGrows))) fun phase₁ htest => ?_
    have hopen : Tracks params (some phase₁) (openArms test s) := by
      rw [← htest]
      exact openArms_tracks h htracks test
    have hconsequent := lowerStatement_tracks consequent (openArms_layout h test) hopen
    refine hconsequent.andThen (hcloseGrows.trans (helse.code.trans hmergeGrows))
      fun phase₂ hphase₂ => ?_
    rw [hphase₂] at hconsequent
    obtain rfl := hconsequent.branched (by omega)
    have hclosedTracks := closeArm_tracks
      (lowerStatement_advances consequent (openArms_layout h test)).layout.choose_spec.1
      hconsequent (s.blocks.length + 2) span (Nat.succ_ne_zero s.blocks.length)
    have halternate := lowerAlternate_tracks alternate hclosed hclosedTracks
    cases hphase₃ : checkAlternate params alternate .branched with
    | none =>
      rw [hphase₃] at halternate
      exact halternate.rejected hmergeGrows
    | some phase₃ =>
      rw [hphase₃] at halternate
      obtain rfl := halternate.branched (by omega)
      exact closeArm_tracks helseLayout halternate (s.blocks.length + 2) span (by omega)
  | .block body _, _, _, _, h, htracks => lowerStatements_tracks body h htracks
  | .export inner _, _, _, _, h, htracks => lowerStatement_tracks inner h htracks
  | .interface _ _, _, _, _, _, htracks | .typeAlias _ _, _, _, _, _, htracks
  | .class _ _, _, _, _, _, htracks | .function _ _, _, _, _, _, htracks
  | .import _ _, _, _, _, _, htracks | .empty _, _, _, _, _, htracks
  | .error _, _, _, _, _, htracks | .while _ _ _, _, _, _, _, htracks
  | .for _ _ _ _ _, _, _, _, _, htracks => htracks

theorem lowerAlternate_tracks : ∀ (alternate : Option Statement) {offset : ℕ → Option ℕ}
    {s : FunctionLowerer} {phase : Phase}, LayoutOf offset s → Tracks params (some phase) s →
      Tracks params (checkAlternate params alternate phase) (lowerAlternate alternate s)
  | some alternate, _, _, _, h, htracks => lowerStatement_tracks alternate h htracks
  | none, _, _, _, _, htracks => htracks

theorem lowerStatements_tracks : ∀ (statements : List Statement) {offset : ℕ → Option ℕ}
    {s : FunctionLowerer} {phase : Phase}, LayoutOf offset s → Tracks params (some phase) s →
      Tracks params (checkStatements params statements phase) (lowerStatements statements s)
  | [], _, _, _, _, htracks => htracks
  | statement :: statements, _, _, _, h, htracks => by
    have hfirst := lowerStatement_advances statement h
    obtain ⟨o₁, hlayout, _⟩ := hfirst.layout
    have hrest := lowerStatements_advances statements hlayout
    have htracksFirst := lowerStatement_tracks statement h htracks
    refine htracksFirst.andThen hrest.code fun phase' hphase => ?_
    rw [hphase] at htracksFirst
    exact lowerStatements_tracks statements hlayout htracksFirst

end

theorem Tracks.terminated {phase : Option Phase} {s : FunctionLowerer}
    (h : Tracks params phase s) :
    (phase.map Phase.terminated).getD false = true ↔
      Acceptable params s.blocks ∧ Ends s.blocks := by
  cases phase with
  | none => exact ⟨nofun, fun haccepted => absurd haccepted.1 h⟩
  | some phase =>
    cases phase with
    | straight known types ends =>
      obtain ⟨_, _, code, hblocks, hcheck, hends⟩ := h
      have hacceptable : Acceptable params s.blocks := by
        rw [hblocks, acceptable_single, hcheck]
        rfl
      constructor
      · intro hterminated
        refine ⟨hacceptable, ⟨0, code⟩, ?_, hends.trans hterminated⟩
        rw [hblocks]
        exact List.mem_cons_self
      · rintro ⟨_, block, hmem, hterminator⟩
        rw [hblocks] at hmem
        obtain rfl := List.mem_singleton.mp hmem
        exact hends.symm.trans hterminator
    | branched => exact ⟨fun _ => h.2, fun _ => rfl⟩

theorem new_tracks (name : String) (params : List IrParam) (returnType : IrType) (span : Span) :
    Tracks (params.map IrParam.name)
      (some (.straight (params.map IrParam.name)
        (params.map fun param => (param.name, param.ty)).reverse false))
      (.new name params returnType span) :=
  ⟨rfl, rfl, [], rfl, rfl, rfl⟩

/-- The check of a declaration is the check of the function it is lowered to. -/
theorem verifiableFunction_iff (declaration : FunctionDeclaration) (span : Span) :
    verifiableFunction declaration = true ↔
      Acceptable ((lowerFunction declaration span).params.map IrParam.name)
          (lowerFunction declaration span).blocks ∧
        Ends (lowerFunction declaration span).blocks := by
  let lowered := declaration.params.map fun param =>
    (⟨param.name, (param.ty.map typeFromNode).getD .unknown⟩ : IrParam)
  have hnames : lowered.map IrParam.name = declaration.params.map Parameter.name :=
    List.map_map
  have htypes : lowered.map (fun param => (param.name, param.ty)) =
      declaration.params.map fun param => (param.name, (param.ty.map typeFromNode).getD .unknown) :=
    List.map_map
  have htracks := lowerStatements_tracks declaration.body
    (new_layout declaration.name lowered
      ((declaration.returnType.map typeFromNode).getD .undefined) span)
    (new_tracks declaration.name lowered _ span)
  have hparams : (lowerFunction declaration span).params = lowered :=
    congrArg Prod.snd (lowerStatements_signature declaration.body _)
  have hterminated := htracks.terminated
  rw [htypes, hnames] at hterminated
  rw [hparams, hnames]
  exact hterminated

/-- The entry ends with a `return`, and so without a condition of its own. -/
theorem verifiableEntry_iff (program : Program) :
    verifiableEntry (program.body.filter isEntryStatement) = true ↔
      Acceptable ((lowerProgram program).entry.params.map IrParam.name)
          (lowerProgram program).entry.blocks ∧
        Ends (lowerProgram program).entry.blocks := by
  let statements := program.body.filter isEntryStatement
  let span := program.span.getD emptySpan
  have hlayout := (lowerStatements_numbering statements "__entry" [] .undefined span).choose_spec.1
  have htracks := lowerStatements_tracks statements (new_layout "__entry" [] .undefined span)
    (new_tracks "__entry" [] .undefined span)
  have hparams : (lowerProgram program).entry.params = [] :=
    congrArg Prod.snd (lowerStatements_signature statements _)
  have hreturn : Tracks []
      (checkStatements [] statements (.straight [] [] false) >>= checkReturn none)
      (lowerReturn none span (lowerStatements statements (.new "__entry" [] .undefined span))) := by
    refine htracks.andThen (.modify _ [⟨.return none, none, .undefined, span⟩] rfl)
      fun phase hphase => ?_
    refine lowerReturn_tracks hlayout ?_ none span
    rw [← hphase]
    exact htracks
  have hentry : verifiableEntry statements =
      ((checkStatements [] statements (.straight [] [] false) >>= checkReturn none).map
        Phase.terminated).getD false := by
    rw [verifiableEntry]
    cases checkStatements [] statements (.straight [] [] false) with
    | none => rfl
    | some phase => cases phase <;> rfl
  rw [hparams]
  change verifiableEntry statements = true ↔ _
  rw [hentry]
  exact hreturn.terminated

/-- What the checks say of a function. -/
def VerifiableCode (function : IrFunction) : Prop :=
  Acceptable (function.params.map IrParam.name) function.blocks ∧ Ends function.blocks

/-- The check of a program is the check of all its lowered functions. -/
theorem verifiable_iff (program : Program) :
    Verifiable program = true ↔
      ∀ function ∈ allFunctions (lowerProgram program), VerifiableCode function := by
  have hfunctions : program.body.all verifiableDeclaration = true ↔
      ∀ function ∈ (lowerProgram program).functions, VerifiableCode function := by
    rw [List.all_eq_true]
    constructor
    · intro h function hmem
      obtain ⟨statement, hstatement, hlowered⟩ := List.mem_filterMap.mp hmem
      cases statement with
      | function declaration span =>
        cases hlowered
        exact (verifiableFunction_iff declaration span).mp (h _ hstatement)
      | _ => cases hlowered
    · intro h statement hmem
      cases statement with
      | function declaration span =>
        exact (verifiableFunction_iff declaration span).mpr
          (h _ (List.mem_filterMap.mpr ⟨_, hmem, rfl⟩))
      | _ => rfl
  rw [Verifiable, Bool.and_eq_true, hfunctions, verifiableEntry_iff]
  simp only [allFunctions, List.forall_mem_append, List.forall_mem_singleton, VerifiableCode]

end

end Tsvm.LoweredChecks
