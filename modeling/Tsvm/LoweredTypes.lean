import Tsvm.CodeTypes
import Tsvm.LoweredChecks

set_option autoImplicit false

/-!
# The types of a lowered function

The lowerer fills block 0 from its start to the first branch and never comes back to
it, so the types of its values are those of straight code. Until a name is stored, the
type that is recorded for it is the one it was declared with.
-/
namespace Tsvm.LoweredTypes
open Ast Ir Lowering LoweringCode LoweringBlocks LoweredChecks CodeTypes

def typeIn (locals : List (String × IrType)) (name : String) : IrType :=
  (locals.lookup name).getD .unknown

def firstCode (blocks : List IrBlock) : List IrInstruction :=
  (blocks[0]?.map IrBlock.instructions).getD []

def storesTo (name : String) : IrInstructionKind → Bool
  | .storeLocal found _ => found = name
  | _ => false

/-- The types by which code reads a variable before it stores it. The types `later` are
    those of the blocks the code may go to. -/
def readTypes (name : String) (later : List IrType) : List IrInstruction → List IrType
  | [] => []
  | i :: rest =>
    if i.kind = .loadLocal name then i.ty :: readTypes name later rest
    else if storesTo name i.kind then []
    else if targets i.kind ≠ [] then later
    else if terminates i.kind then []
    else readTypes name later rest

/-- The types by which code reads a variable. -/
def loadTypes (name : String) (code : List IrInstruction) : List IrType :=
  code.filterMap fun i => if i.kind = .loadLocal name then some i.ty else none

/-- The types by which the blocks behind block 0 read a variable. -/
def laterReads (blocks : List IrBlock) (name : String) : List IrType :=
  blocks.tail.flatMap fun block => loadTypes name block.instructions

def StoresName (name : String) (code : List IrInstruction) : Prop :=
  ∃ i ∈ code, storesTo name i.kind = true

/-- Names are loaded with the types that are recorded for them. -/
def Loads (locals : List (String × IrType)) (code : List IrInstruction) : Prop :=
  ∀ i ∈ code, ∀ name, i.kind = .loadLocal name → i.ty = typeIn locals name

theorem storesName_append {name : String} {first second : List IrInstruction} :
    StoresName name (first ++ second) ↔ StoresName name first ∨ StoresName name second := by
  simp only [StoresName, List.mem_append, or_and_right, exists_or]

theorem storesName_cons {name : String} {i : IrInstruction} {code : List IrInstruction} :
    StoresName name (i :: code) ↔ storesTo name i.kind = true ∨ StoresName name code := by
  simp only [StoresName, List.mem_cons, or_and_right, exists_or, exists_eq_left]

theorem loads_nil (locals : List (String × IrType)) : Loads locals [] :=
  fun _ hmem => absurd hmem List.not_mem_nil

theorem loads_append {locals : List (String × IrType)} {first second : List IrInstruction} :
    Loads locals (first ++ second) ↔ Loads locals first ∧ Loads locals second := by
  simp only [Loads, List.forall_mem_append]

theorem loads_singleton {locals : List (String × IrType)} {i : IrInstruction} :
    Loads locals [i] ↔ ∀ name, i.kind = .loadLocal name → i.ty = typeIn locals name := by
  simp only [Loads, List.forall_mem_singleton]

theorem mem_readTypes_cons {name : String} {later : List IrType} {ty : IrType} {i : IrInstruction}
    {rest : List IrInstruction} (h : ty ∈ readTypes name later (i :: rest)) :
    (i.kind = .loadLocal name ∧ ty = i.ty) ∨ storesTo name i.kind = false ∧
      ((targets i.kind ≠ [] ∧ ty ∈ later) ∨ targets i.kind = [] ∧ ty ∈ readTypes name later rest) := by
  rw [readTypes] at h
  by_cases hload : i.kind = .loadLocal name
  · rw [if_pos hload] at h
    rcases List.mem_cons.mp h with rfl | h
    · exact .inl ⟨hload, rfl⟩
    · rw [hload]
      exact .inr ⟨rfl, .inr ⟨rfl, h⟩⟩
  rw [if_neg hload] at h
  by_cases hstore : storesTo name i.kind = true
  · rw [if_pos hstore] at h
    cases h
  rw [if_neg hstore] at h
  refine .inr ⟨Bool.not_eq_true _ ▸ hstore, ?_⟩
  by_cases htargets : targets i.kind ≠ []
  · rw [if_pos htargets] at h
    exact .inl ⟨htargets, h⟩
  rw [if_neg htargets] at h
  refine .inr ⟨not_ne_iff.mp htargets, ?_⟩
  by_cases hends : terminates i.kind = true
  · rw [if_pos hends] at h
    cases h
  · rw [if_neg hends] at h
    exact h

theorem mem_readTypes {name : String} {later : List IrType} {ty : IrType} {code : List IrInstruction}
    (h : ty ∈ readTypes name later code) :
    ∃ (k : ℕ) (i : IrInstruction), code[k]? = some i ∧ ¬ StoresName name (code.take k) ∧
      (i.kind = .loadLocal name ∧ ty = i.ty ∨ targets i.kind ≠ [] ∧ ty ∈ later) := by
  induction code with
  | nil => cases h
  | cons i code ih =>
    have hstart : ¬ StoresName name ((i :: code).take 0) := fun ⟨_, hmem, _⟩ => by cases hmem
    rcases mem_readTypes_cons h with hload | ⟨hstore, htargets | ⟨_, hrest⟩⟩
    · exact ⟨0, i, rfl, hstart, .inl hload⟩
    · refine ⟨0, i, rfl, hstart, .inr htargets⟩
    · obtain ⟨k, j, hj, hnot, hread⟩ := ih hrest
      refine ⟨k + 1, j, hj, ?_, hread⟩
      rw [List.take_succ_cons, storesName_cons, hstore]
      exact fun hor => hor.elim (fun hfalse => nomatch hfalse) hnot

section

variable (locals : List (String × IrType))

theorem loads_ofValue {code : List IrInstruction} (hcode : Loads locals code) (next : ℕ)
    {kind : IrInstructionKind} (ty : IrType) (span : Span)
    (h : ∀ name, kind = .loadLocal name → ty = typeIn locals name) :
    Loads locals (Lowered.ofValue code next kind ty span).code :=
  loads_append.mpr ⟨hcode, loads_singleton.mpr h⟩

theorem memberStoreCode_loads (object : ℕ) (property : String) (operator : AssignmentOperator)
    (right : Lowered) (leftSpan span : Span) :
    Loads locals (memberStoreCode object property operator right leftSpan span).1 := by
  intro i hmem name hname
  have hkind : ∀ i ∈ (memberStoreCode object property operator right leftSpan span).1,
      ∀ name, i.kind ≠ .loadLocal name := by
    cases operator <;> simp [memberStoreCode]
  exact absurd hname (hkind i hmem name)

mutual

theorem expressionCode_loads : ∀ (expression : Expression) (n : ℕ),
    Loads locals (expressionCode locals expression n).code
  | .identifier name span, n => by
    refine loads_ofValue locals (loads_nil locals) n _ span fun found hfound => ?_
    cases hfound
    rfl
  | .number _ span, n | .string _ span, n | .boolean _ span, n | .null span, n
  | .undefined span, n | .error span, n => loads_ofValue locals (loads_nil locals) n _ span nofun
  | .object properties span, n =>
    loads_ofValue locals (propertiesCode_loads properties n) _ _ span nofun
  | .array elements span, n => loads_ofValue locals (expressionsCode_loads elements n) _ _ span nofun
  | .member object _ span, n => loads_ofValue locals (expressionCode_loads object n) _ _ span nofun
  | .call _ arguments span, n => loads_ofValue locals (expressionsCode_loads arguments n) _ _ span nofun
  | .binary left _ right span, n =>
    loads_ofValue locals
      (loads_append.mpr ⟨expressionCode_loads left n, expressionCode_loads right _⟩) _ _ span nofun
  | .assignment left operator right span, n => by
    cases left with
    | identifier name leftSpan =>
      exact loads_append.mpr ⟨expressionCode_loads right n, loads_singleton.mpr nofun⟩
    | member object property leftSpan =>
      exact loads_append.mpr ⟨loads_append.mpr ⟨expressionCode_loads object n,
        expressionCode_loads right _⟩, memberStoreCode_loads locals _ _ _ _ _ _⟩
    | _ => exact expressionCode_loads right n
  | .unary _ argument _, n => expressionCode_loads argument n

theorem expressionsCode_loads : ∀ (expressions : List Expression) (n : ℕ),
    Loads locals (expressionsCode locals expressions n).1
  | [], _ => loads_nil locals
  | expression :: expressions, n =>
    loads_append.mpr ⟨expressionCode_loads expression n, expressionsCode_loads expressions _⟩

theorem propertiesCode_loads : ∀ (properties : List ObjectProperty) (n : ℕ),
    Loads locals (propertiesCode locals properties n).1
  | [], _ => loads_nil locals
  | .mk _ value _ :: properties, n =>
    loads_append.mpr ⟨expressionCode_loads value n, propertiesCode_loads properties _⟩

end

end

def Stored (blocks : List IrBlock) (name : String) : Prop :=
  ∃ (i : ℕ) (block : IrBlock), blocks[i]? = some block ∧ StoresName name block.instructions

structure Grows (blocks : List IrBlock) (current : ℕ) (code : List IrInstruction)
    (blocks' : List IrBlock) : Prop where
  back : ∀ (i : ℕ) (block' : IrBlock), blocks'[i]? = some block' → block'.instructions = [] ∨
    ∃ block : IrBlock, blocks[i]? = some block ∧
      block'.instructions = block.instructions ++ if current = i then code else []
  forth : ∀ (i : ℕ) (block : IrBlock), blocks[i]? = some block → ∃ block' : IrBlock,
    blocks'[i]? = some block' ∧
      block'.instructions = block.instructions ++ if current = i then code else []

theorem grows_of_eq {blocks fresh blocks' : List IrBlock} {current : ℕ} {code : List IrInstruction}
    (hfresh : ∀ block ∈ fresh, block.instructions = [])
    (h : blocks' = (blocks.modify current fun block =>
      { block with instructions := block.instructions ++ code }) ++ fresh) :
    Grows blocks current code blocks' where
  back := by
    intro i block' hblock
    rw [h] at hblock
    by_cases hi : i < (blocks.modify current fun block =>
        { block with instructions := block.instructions ++ code }).length
    · rw [List.getElem?_append_left hi] at hblock
      obtain ⟨old, hold, _, hinstructions⟩ := getElem?_modify_block hblock
      exact .inr ⟨old, hold, hinstructions⟩
    · rw [List.getElem?_append_right (by omega)] at hblock
      exact .inl (hfresh block' (List.mem_of_getElem? hblock))
  forth := by
    intro i block hblock
    have hmodify : (blocks.modify current fun block =>
        { block with instructions := block.instructions ++ code })[i]? =
          some { block with
            instructions := block.instructions ++ if current = i then code else [] } := by
      rw [List.getElem?_modify, hblock]
      by_cases hi : current = i
      · simp [hi]
      · simp [hi]
    refine ⟨{ block with
      instructions := block.instructions ++ if current = i then code else [] }, ?_, rfl⟩
    rw [h, List.getElem?_append_left (List.getElem?_eq_some_iff.mp hmodify).1]
    exact hmodify

theorem grows_modify (blocks : List IrBlock) (current : ℕ) (code : List IrInstruction) :
    Grows blocks current code (blocks.modify current fun block =>
      { block with instructions := block.instructions ++ code }) :=
  @grows_of_eq blocks [] _ current code (fun _ hmem => absurd hmem List.not_mem_nil)
    (List.append_nil _).symm

section

variable {blocks blocks' : List IrBlock} {current : ℕ} {code : List IrInstruction}

theorem Grows.firstCode (h : Grows blocks current code blocks') (hlt : current < blocks.length) :
    firstCode blocks' = LoweredTypes.firstCode blocks ++ if current = 0 then code else [] := by
  have hblock := List.getElem?_eq_getElem (Nat.lt_of_le_of_lt (Nat.zero_le current) hlt)
  obtain ⟨block', hblock', hinstructions⟩ := h.forth 0 _ hblock
  rw [LoweredTypes.firstCode, LoweredTypes.firstCode, hblock, hblock']
  exact hinstructions

theorem Grows.stored (h : Grows blocks current code blocks') (hlt : current < blocks.length)
    {name : String} (hnot : ¬ Stored blocks' name) : ¬ Stored blocks name ∧ ¬ StoresName name code := by
  constructor
  · rintro ⟨i, block, hblock, hstores⟩
    obtain ⟨block', hblock', hinstructions⟩ := h.forth i block hblock
    refine hnot ⟨i, block', hblock', ?_⟩
    rw [hinstructions]
    exact storesName_append.mpr (.inl hstores)
  · intro hstores
    obtain ⟨block', hblock', hinstructions⟩ := h.forth current _ (List.getElem?_eq_getElem hlt)
    refine hnot ⟨current, block', hblock', ?_⟩
    rw [hinstructions, if_pos rfl]
    exact storesName_append.mpr (.inr hstores)

end

/-- At most the last instruction goes to another block. -/
def Closed (code : List IrInstruction) : Prop :=
  ∃ body tail, code = body ++ tail ∧ Straight body ∧ tail.length ≤ 1

/-- Code that goes on in a block behind `n` values. -/
structure Piece (locals : List (String × IrType)) (n : ℕ) (code : List IrInstruction) : Prop where
  typed : ∀ types : List IrType, types.length = n → TypedCode types code
  loads : Loads locals code
  targets : ∀ i ∈ code, 0 ∉ targets i.kind
  closed : Closed code

/-- What the types of a lowerer are, where the parameters are declared with the types `declared`. -/
structure Shaped (declared : List (String × IrType)) (s : FunctionLowerer) : Prop where
  typed : TypedCode [] (firstCode s.blocks)
  inFirst : s.currentBlock = 0 →
    s.blocks.length = 1 ∧ Straight (firstCode s.blocks) ∧ s.nextValue = results (firstCode s.blocks)
  closed : Closed (firstCode s.blocks)
  blocks : ∀ (j : ℕ) (block : IrBlock), s.blocks[j]? = some block → ∀ i ∈ block.instructions,
    (∃ types rest, Tagged types rest i.kind i.ty) ∧ 0 ∉ targets i.kind
  firstReads : ∀ (k : ℕ) (i : IrInstruction), (firstCode s.blocks)[k]? = some i →
    ∀ name, i.kind = .loadLocal name → ¬ StoresName name ((firstCode s.blocks).take k) →
      i.ty = typeIn declared name
  laterReads : ∀ (j : ℕ) (block : IrBlock), j ≠ 0 → s.blocks[j]? = some block →
    ∀ name, ¬ Stored s.blocks name → ∀ i ∈ block.instructions, i.kind = .loadLocal name →
      i.ty = typeIn declared name
  locals : ∀ name, ¬ Stored s.blocks name → typeIn s.locals name = typeIn declared name

theorem Piece.tagged {locals : List (String × IrType)} {n : ℕ} {code : List IrInstruction}
    (h : Piece locals n code) {i : IrInstruction} (hmem : i ∈ code) :
    ∃ types rest, Tagged types rest i.kind i.ty := by
  obtain ⟨k, hk⟩ := List.getElem?_of_mem hmem
  exact ⟨_, _, (h.typed (List.replicate n .unknown) List.length_replicate).at hk⟩

theorem stored_single {blocks : List IrBlock} (hlength : blocks.length = 1) {name : String}
    (h : ¬ StoresName name (firstCode blocks)) : ¬ Stored blocks name := by
  rintro ⟨i, block, hblock, hstores⟩
  have hlt := (List.getElem?_eq_some_iff.mp hblock).1
  obtain rfl : i = 0 := by omega
  refine h ?_
  rw [firstCode, hblock]
  exact hstores

theorem Shaped.grow {declared : List (String × IrType)} {s s' : FunctionLowerer}
    {code : List IrInstruction} (h : Shaped declared s) (hlt : s.currentBlock < s.blocks.length)
    (hgrows : Grows s.blocks s.currentBlock code s'.blocks)
    (hpiece : Piece s.locals s.nextValue code)
    (hlocals : ∀ name, ¬ StoresName name code → typeIn s'.locals name = typeIn s.locals name)
    (hinFirst : s'.currentBlock = 0 → s.currentBlock = 0 ∧ s'.blocks.length = s.blocks.length ∧
      Straight code ∧ s'.nextValue = s.nextValue + results code) : Shaped declared s' := by
  have hfirst := hgrows.firstCode hlt
  refine ⟨?_, ?_, ?_, ?_, ?_, ?_, ?_⟩
  · rw [hfirst]
    refine h.typed.append ?_
    by_cases hzero : s.currentBlock = 0
    · rw [if_pos hzero, List.nil_append]
      refine hpiece.typed _ ?_
      rw [resultTypes_length, (h.inFirst hzero).2.2]
    · rw [if_neg hzero]
      trivial
  · intro hzero'
    obtain ⟨hzero, hlength, hstraight, hnext⟩ := hinFirst hzero'
    obtain ⟨hone, hbefore, hcount⟩ := h.inFirst hzero
    rw [hfirst, if_pos hzero]
    refine ⟨hlength.trans hone, straight_append.mpr ⟨hbefore, hstraight⟩, ?_⟩
    rw [results_append, hnext, hcount]
  · rw [hfirst]
    by_cases hzero : s.currentBlock = 0
    · obtain ⟨body, tail, hcode, hbody, htail⟩ := hpiece.closed
      rw [if_pos hzero, hcode]
      exact ⟨_, tail, (List.append_assoc _ _ _).symm,
        straight_append.mpr ⟨(h.inFirst hzero).2.1, hbody⟩, htail⟩
    · rw [if_neg hzero, List.append_nil]
      exact h.closed
  · intro j block' hblock' i hmem
    rcases hgrows.back j block' hblock' with hempty | ⟨block, hblock, hinstructions⟩
    · rw [hempty] at hmem
      cases hmem
    · rw [hinstructions] at hmem
      rcases List.mem_append.mp hmem with hold | hnew
      · exact h.blocks j block hblock i hold
      · by_cases hj : s.currentBlock = j
        · rw [if_pos hj] at hnew
          exact ⟨hpiece.tagged hnew, hpiece.targets i hnew⟩
        · rw [if_neg hj] at hnew
          cases hnew
  · intro k i hi name hname hnot
    rw [hfirst] at hi hnot
    by_cases hzero : s.currentBlock = 0
    · rw [if_pos hzero] at hi hnot
      by_cases hk : k < (firstCode s.blocks).length
      · rw [List.getElem?_append_left hk] at hi
        rw [List.take_append_of_le_length (Nat.le_of_lt hk)] at hnot
        exact h.firstReads k i hi name hname hnot
      · -- The name is not stored in front of the new code, so it is still as declared.
        rw [List.getElem?_append_right (by omega)] at hi
        rw [List.take_append, List.take_of_length_le (by omega)] at hnot
        have hbefore := stored_single (h.inFirst hzero).1
          fun hstores => hnot (storesName_append.mpr (.inl hstores))
        rw [hpiece.loads i (List.mem_of_getElem? hi) name hname]
        exact h.locals name hbefore
    · rw [if_neg hzero, List.append_nil] at hi hnot
      exact h.firstReads k i hi name hname hnot
  · intro j block' hj hblock' name hnot i hmem hname
    obtain ⟨hbefore, _⟩ := hgrows.stored hlt hnot
    rcases hgrows.back j block' hblock' with hempty | ⟨block, hblock, hinstructions⟩
    · rw [hempty] at hmem
      cases hmem
    · rw [hinstructions] at hmem
      rcases List.mem_append.mp hmem with hold | hnew
      · exact h.laterReads j block hj hblock name hbefore i hold hname
      · by_cases hcurrent : s.currentBlock = j
        · rw [if_pos hcurrent] at hnew
          rw [hpiece.loads i hnew name hname]
          exact h.locals name hbefore
        · rw [if_neg hcurrent] at hnew
          cases hnew
  · intro name hnot
    obtain ⟨hbefore, hcode⟩ := hgrows.stored hlt hnot
    rw [hlocals name hcode]
    exact h.locals name hbefore

/-- A statement only changes the type of a name that it stores. -/
structure StatementPiece (locals : List (String × IrType)) (n : ℕ) (lowered : StatementCode) :
    Prop where
  piece : Piece locals n lowered.code
  code : WellNumberedStatement n lowered
  locals : ∀ name, ¬ StoresName name lowered.code → typeIn lowered.locals name = typeIn locals name

theorem StatementPiece.of_code {locals : List (String × IrType)} {n : ℕ} {lowered : StatementCode}
    (hcode : WellNumberedStatement n lowered)
    (htyped : ∀ types : List IrType, types.length = n → TypedCode types lowered.code)
    (hloads : Loads locals lowered.code)
    (hlocals : ∀ name, ¬ StoresName name lowered.code →
      typeIn lowered.locals name = typeIn locals name) :
    StatementPiece locals n lowered := by
  refine ⟨⟨htyped, hloads, fun i hmem => ?_, ?_⟩, hcode, hlocals⟩
  · rw [hcode.straight i hmem]
    exact List.not_mem_nil
  · exact ⟨lowered.code, [], (List.append_nil _).symm, hcode.straight, Nat.zero_le 1⟩

section

variable (locals : List (String × IrType)) (n : ℕ)

theorem variableCode_piece (declaration : VariableDeclaration) (span : Span) :
    StatementPiece locals n (variableCode locals declaration span n) := by
  refine .of_code (variableCode_wellNumbered locals declaration span n)
    (fun types => variableCode_typed locals declaration span) ?_ ?_
  · obtain ⟨kind, name, ty, initializer⟩ := declaration
    refine loads_append.mpr ⟨?_, loads_singleton.mpr nofun⟩
    cases initializer with
    | some expression => exact expressionCode_loads locals expression n
    | none => exact loads_ofValue locals (loads_nil locals) n _ span nofun
  · intro name hnot
    have hne : name ≠ declaration.name := by
      intro heq
      refine hnot (storesName_append.mpr (.inr ⟨_, List.mem_singleton_self _, ?_⟩))
      exact decide_eq_true heq.symm
    have hbeq : (name == declaration.name) = false := beq_false_of_ne hne
    rw [typeIn, variableCode, List.lookup_cons, hbeq]
    rfl

theorem returnCode_piece (value : Option Expression) (span : Span) :
    StatementPiece locals n (returnCode locals value span n) := by
  refine .of_code (returnCode_wellNumbered locals value span n)
    (fun types => returnCode_typed locals value span) ?_ fun name _ => ?_
  · cases value with
    | some expression =>
      exact loads_append.mpr ⟨expressionCode_loads locals expression n, loads_singleton.mpr nofun⟩
    | none => exact loads_singleton.mpr nofun
  · cases value <;> rfl

theorem expressionStatementCode_piece (expression : Expression) :
    StatementPiece locals n (expressionStatementCode locals expression n) :=
  .of_code (expressionStatementCode_wellNumbered locals expression n)
    (fun _ hn => (expressionCode_typed locals expression hn).typed)
    (expressionCode_loads locals expression n) fun _ _ => rfl

theorem testCode_piece (test : Expression) {k : ℕ} (hk : 0 < k) :
    Piece locals n (testCode locals test k n) where
  typed := fun _ => testCode_typed locals test k
  loads := loads_append.mpr ⟨expressionCode_loads locals test n, loads_singleton.mpr nofun⟩
  targets := by
    intro i hmem
    rcases List.mem_append.mp hmem with hcode | hbranch
    · rw [(expressionCode_wellNumbered locals test n).plain.straight i hcode]
      exact List.not_mem_nil
    · obtain rfl := List.mem_singleton.mp hbranch
      simp only [targets, List.mem_cons, List.not_mem_nil, or_false]
      omega
  closed := ⟨_, _, rfl, (expressionCode_wellNumbered locals test n).plain.straight, Nat.le_refl 1⟩

theorem jump_piece {merge : ℕ} (hmerge : 0 < merge) (span : Span) :
    Piece locals n [⟨.jump merge, none, .undefined, span⟩] where
  typed := fun _ _ => typedCode_singleton (.silent rfl)
  loads := loads_singleton.mpr nofun
  targets := by
    intro i hmem
    obtain rfl := List.mem_singleton.mp hmem
    simp only [targets, List.mem_cons, List.not_mem_nil, or_false]
    omega
  closed := ⟨[], _, rfl, nofun, Nat.le_refl 1⟩

end

section

variable {declared : List (String × IrType)} {offset : ℕ → Option ℕ} {s : FunctionLowerer}

theorem Shaped.statement (h : Shaped declared s) (hlayout : LayoutOf offset s)
    {lowered : StatementCode} (hpiece : StatementPiece s.locals s.nextValue lowered) :
    Shaped declared (appendStatement lowered s) := by
  exact h.grow hlayout.current_lt (grows_modify _ _ _) hpiece.piece hpiece.locals fun hzero =>
    ⟨hzero, List.length_modify _ _ _, hpiece.code.straight, hpiece.code.next⟩

theorem Shaped.openArms (h : Shaped declared s) (hlayout : LayoutOf offset s) (test : Expression) :
    Shaped declared (openArms test s) := by
  have hlt := hlayout.current_lt
  refine h.grow hlt (grows_of_eq ?_ (openArms_blocks test hlt))
    (testCode_piece s.locals s.nextValue test (by omega)) (fun name _ => ?_) fun hzero => ?_
  · simp
  · simp only [LoweringBlocks.openArms, lowerExpression_eq]
    rfl
  · exact absurd hzero (Nat.ne_of_gt (Nat.zero_lt_of_lt hlt))

theorem Shaped.closeArm (h : Shaped declared s) (hlayout : LayoutOf offset s) {merge next : ℕ}
    (hmerge : 0 < merge) (hnext : 0 < next) (span : Span) :
    Shaped declared (closeArm merge next span s) := by
  refine h.grow hlayout.current_lt (grows_modify _ _ _)
    (jump_piece s.locals s.nextValue hmerge span) (fun name _ => rfl) fun hzero => ?_
  change next = 0 at hzero
  exact absurd hzero (by omega)

end

section

variable {declared : List (String × IrType)}

mutual

theorem lowerStatement_shaped : ∀ (statement : Statement) {offset : ℕ → Option ℕ}
    {s : FunctionLowerer}, LayoutOf offset s → Shaped declared s →
      Shaped declared (lowerStatement statement s)
  | .variable declaration span, _, _, hlayout, h => by
    rw [lowerStatement, lowerVariable_eq]
    exact h.statement hlayout (variableCode_piece _ _ declaration span)
  | .return value span, _, _, hlayout, h => by
    rw [lowerStatement, lowerReturn_eq]
    exact h.statement hlayout (returnCode_piece _ _ value span)
  | .expression value _, _, _, hlayout, h | .throw value _, _, _, hlayout, h => by
    rw [lowerStatement, lowerExpression_appendStatement]
    exact h.statement hlayout (expressionStatementCode_piece _ _ value)
  | .if test consequent alternate span, _, s, hlayout, h => by
    have hopen := openArms_layout hlayout test
    have hthen := lowerStatement_advances consequent hopen
    obtain ⟨_, hthenLayout, _⟩ := hthen.layout
    obtain ⟨_, _, _, hclosed⟩ := hthen.closeConsequent hlayout test span
    obtain ⟨_, helseLayout, _⟩ := (lowerAlternate_advances alternate hclosed).layout
    rw [lowerStatement_if]
    have hconsequent := lowerStatement_shaped consequent hopen (h.openArms hlayout test)
    have halternate := lowerAlternate_shaped alternate hclosed
      (hconsequent.closeArm hthenLayout (Nat.succ_pos _) (Nat.succ_pos _) span)
    exact halternate.closeArm helseLayout (Nat.succ_pos _) (Nat.succ_pos _) span
  | .block body _, _, _, hlayout, h => lowerStatements_shaped body hlayout h
  | .export inner _, _, _, hlayout, h => lowerStatement_shaped inner hlayout h
  | .interface _ _, _, _, _, h | .typeAlias _ _, _, _, _, h | .class _ _, _, _, _, h
  | .function _ _, _, _, _, h | .import _ _, _, _, _, h | .empty _, _, _, _, h
  | .error _, _, _, _, h | .while _ _ _, _, _, _, h | .for _ _ _ _ _, _, _, _, h => h

theorem lowerAlternate_shaped : ∀ (alternate : Option Statement) {offset : ℕ → Option ℕ}
    {s : FunctionLowerer}, LayoutOf offset s → Shaped declared s →
      Shaped declared (lowerAlternate alternate s)
  | some alternate, _, _, hlayout, h => lowerStatement_shaped alternate hlayout h
  | none, _, _, _, h => h

theorem lowerStatements_shaped : ∀ (statements : List Statement) {offset : ℕ → Option ℕ}
    {s : FunctionLowerer}, LayoutOf offset s → Shaped declared s →
      Shaped declared (lowerStatements statements s)
  | [], _, _, _, h => h
  | statement :: statements, _, _, hlayout, h => by
    obtain ⟨_, hfirst, _⟩ := (lowerStatement_advances statement hlayout).layout
    exact lowerStatements_shaped statements hfirst (lowerStatement_shaped statement hlayout h)

end

end

theorem new_shaped (name : String) (params : List IrParam) (returnType : IrType) (span : Span) :
    Shaped (params.map fun param => (param.name, param.ty)).reverse
      (.new name params returnType span) where
  typed := trivial
  inFirst := fun _ => ⟨rfl, nofun, rfl⟩
  closed := ⟨[], [], rfl, nofun, Nat.zero_le 1⟩
  blocks := by
    intro j block hblock i hmem
    obtain rfl := List.mem_singleton.mp (List.mem_of_getElem? hblock)
    cases hmem
  firstReads := nofun
  laterReads := by
    intro j block hj hblock name _ i hmem
    obtain rfl := List.mem_singleton.mp (List.mem_of_getElem? hblock)
    cases hmem
  locals := fun _ _ => rfl

/-- What is known of the types of a function. -/
structure TypedFunction (function : IrFunction) : Prop where
  typed : TypedCode [] (firstCode function.blocks)
  blocks : ∀ (j : ℕ) (block : IrBlock), function.blocks[j]? = some block → ∀ i ∈ block.instructions,
    (∃ types rest, Tagged types rest i.kind i.ty) ∧ 0 ∉ targets i.kind
  reads : ∀ name ty, ty ∈ readTypes name (laterReads function.blocks name) (firstCode function.blocks) →
    ty = typeIn (function.params.map fun param => (param.name, param.ty)).reverse name

theorem not_storesName_of_leaf {params : List String} {code : List IrInstruction}
    (h : LeafCode params code) (name : String) : ¬ StoresName name code := by
  rintro ⟨i, hmem, hstores⟩
  have hvalues := (h i hmem).1
  obtain ⟨kind, result, ty, span⟩ := i
  cases kind with
  | storeLocal => cases hvalues
  | _ => cases hstores

theorem storesName_of_closed {name : String} {code : List IrInstruction} {k : ℕ} {i : IrInstruction}
    (hclosed : Closed code) (hi : code[k]? = some i) (htargets : targets i.kind ≠ [])
    (hnot : ¬ StoresName name (code.take k)) : ¬ StoresName name code := by
  obtain ⟨body, tail, rfl, hbody, htail⟩ := hclosed
  have hk : body.length ≤ k := by
    by_contra hlt
    rw [List.getElem?_append_left (by omega)] at hi
    exact htargets (hbody i (List.mem_of_getElem? hi))
  rw [List.getElem?_append_right hk] at hi
  have hlt := (List.getElem?_eq_some_iff.mp hi).1
  obtain rfl : k = body.length := by omega
  rw [List.take_left] at hnot
  rw [storesName_append]
  rintro (hbodyStores | ⟨j, hmem, hstores⟩)
  · exact hnot hbodyStores
  · obtain ⟨last, rfl⟩ := List.length_eq_one_iff.mp (show tail.length = 1 by omega)
    obtain rfl := List.mem_singleton.mp hmem
    rw [Nat.sub_self, List.getElem?_cons_zero, Option.some.injEq] at hi
    rw [← hi] at htargets
    obtain ⟨kind, result, ty, span⟩ := j
    cases kind with
    | storeLocal => exact htargets rfl
    | _ => cases hstores

theorem Shaped.typedFunction {function : IrFunction} {s : FunctionLowerer}
    (hblocks : function.blocks = s.blocks)
    (h : Shaped (function.params.map fun param => (param.name, param.ty)).reverse s)
    (hcode : VerifiableCode function) : TypedFunction function where
  typed := by
    rw [hblocks]
    exact h.typed
  blocks := by
    rw [hblocks]
    exact h.blocks
  reads := by
    intro name ty hread
    rw [hblocks] at hread
    obtain ⟨k, i, hi, hnot, ⟨hload, rfl⟩ | ⟨htargets, hlater⟩⟩ := mem_readTypes hread
    · exact h.firstReads k i hi name hload hnot
    · -- The other blocks are reached, so block 0 does not store the name at all.
      have hfirst := storesName_of_closed h.closed hi htargets hnot
      have hstored : ¬ Stored s.blocks name := by
        rintro ⟨j, block, hblock, hstores⟩
        by_cases hj : j = 0
        · rw [hj] at hblock
          rw [firstCode, hblock] at hfirst
          exact hfirst hstores
        · rw [← hblocks] at hblock
          exact not_storesName_of_leaf (hcode.1.rest j block hj hblock) name hstores
      obtain ⟨block, hmem, hload⟩ := List.mem_flatMap.mp hlater
      obtain ⟨j, hj⟩ := List.getElem?_of_mem hmem
      rw [List.getElem?_tail] at hj
      obtain ⟨i', hmem', hty⟩ := List.mem_filterMap.mp hload
      by_cases hname : i'.kind = .loadLocal name
      · rw [if_pos hname] at hty
        cases hty
        exact h.laterReads (j + 1) block (Nat.succ_ne_zero j) hj name hstored i' hmem' hname
      · rw [if_neg hname] at hty
        cases hty

theorem lowerProgram_typed (program : Program)
    (hcode : ∀ function ∈ allFunctions (lowerProgram program), VerifiableCode function)
    {function : IrFunction} (hfunction : function ∈ allFunctions (lowerProgram program)) :
    TypedFunction function := by
  have hverifiable := hcode function hfunction
  rcases List.mem_append.mp hfunction with hmem | hmem
  · obtain ⟨statement, _, hlowered⟩ := List.mem_filterMap.mp hmem
    cases statement with
    | function declaration span =>
      cases hlowered
      have hparams : (lowerFunction declaration span).params = _ :=
        congrArg Prod.snd (lowerStatements_signature declaration.body _)
      refine Shaped.typedFunction (s := lowerStatements declaration.body _) rfl ?_ hverifiable
      rw [hparams]
      exact lowerStatements_shaped declaration.body (new_layout _ _ _ _) (new_shaped _ _ _ _)
    | _ => cases hlowered
  · obtain rfl := List.mem_singleton.mp hmem
    obtain ⟨offset, hlayout, _⟩ := lowerStatements_numbering (program.body.filter isEntryStatement)
      "__entry" [] .undefined (program.span.getD emptySpan)
    have hparams : (lowerProgram program).entry.params = [] :=
      congrArg Prod.snd (lowerStatements_signature (program.body.filter isEntryStatement) _)
    have hbody := lowerStatements_shaped (program.body.filter isEntryStatement)
      (new_layout "__entry" [] .undefined (program.span.getD emptySpan)) (new_shaped _ _ _ _)
    refine Shaped.typedFunction rfl ?_ hverifiable
    rw [hparams]
    exact hbody.statement hlayout (returnCode_piece _ _ none (program.span.getD emptySpan))

end Tsvm.LoweredTypes
