import Tsvm.EntryOrders
import Tsvm.LoweringBlocks

set_option autoImplicit false

/-!
# The graph of the blocks

The block behind an `if` has a smaller number than the blocks of its arms, so
numbers say nothing about where a jump leads. The lowerer enters one block after
the other, and code only jumps to blocks that have not been entered yet.
-/
namespace Tsvm.BlockGraphs
open Ast Ir Lowering LoweringCode LoweringBlocks EntryOrders Relation

def LeadsTo (code : List IrInstruction) (t : ℕ) : Prop :=
  ∃ instruction ∈ code, t ∈ targets instruction.kind

def Edge (blocks : List IrBlock) (i t : ℕ) : Prop :=
  ∃ block : IrBlock, blocks[i]? = some block ∧ LeadsTo block.instructions t

theorem leadsTo_append {first second : List IrInstruction} {t : ℕ} :
    LeadsTo (first ++ second) t ↔ LeadsTo first t ∨ LeadsTo second t := by
  simp only [LeadsTo, List.mem_append, or_and_right, exists_or]

theorem leadsTo_singleton {instruction : IrInstruction} {t : ℕ} :
    LeadsTo [instruction] t ↔ t ∈ targets instruction.kind := by
  simp only [LeadsTo, List.mem_singleton, exists_eq_left]

theorem not_leadsTo_of_straight {code : List IrInstruction} (h : Straight code) (t : ℕ) :
    ¬ LeadsTo code t := by
  rintro ⟨instruction, hmem, ht⟩
  rw [h instruction hmem] at ht
  cases ht

theorem edge_modify {blocks : List IrBlock} {current : ℕ} (h : current < blocks.length)
    (code : List IrInstruction) {i t : ℕ} :
    Edge (blocks.modify current fun block =>
        { block with instructions := block.instructions ++ code }) i t ↔
      Edge blocks i t ∨ i = current ∧ LeadsTo code t := by
  constructor
  · rintro ⟨block, hblock, hleads⟩
    obtain ⟨old, hold, _, hcode⟩ := getElem?_modify_block hblock
    rw [hcode] at hleads
    rcases leadsTo_append.mp hleads with hleads | hleads
    · exact .inl ⟨old, hold, hleads⟩
    · by_cases hi : current = i
      · rw [if_pos hi] at hleads
        exact .inr ⟨hi.symm, hleads⟩
      · rw [if_neg hi] at hleads
        obtain ⟨_, hmem, _⟩ := hleads
        cases hmem
  · rintro (⟨old, hold, hleads⟩ | ⟨rfl, hleads⟩)
    · by_cases hi : current = i
      · refine ⟨_, by rw [List.getElem?_modify, hold, Option.map_eq_map, Option.map_some, if_pos hi], ?_⟩
        exact leadsTo_append.mpr (.inl hleads)
      · refine ⟨_, by rw [List.getElem?_modify, hold, Option.map_eq_map, Option.map_some, if_neg hi], ?_⟩
        exact hleads
    · have hold := List.getElem?_eq_getElem h
      refine ⟨_, by rw [List.getElem?_modify, hold, Option.map_eq_map, Option.map_some, if_pos rfl], ?_⟩
      exact leadsTo_append.mpr (.inr hleads)

theorem edge_append {blocks fresh : List IrBlock} (h : ∀ block ∈ fresh, block.instructions = [])
    {i t : ℕ} : Edge (blocks ++ fresh) i t ↔ Edge blocks i t := by
  constructor
  · rintro ⟨block, hblock, instruction, hmem, ht⟩
    by_cases hi : i < blocks.length
    · rw [List.getElem?_append_left hi] at hblock
      exact ⟨block, hblock, instruction, hmem, ht⟩
    · rw [List.getElem?_append_right (by omega)] at hblock
      rw [h block (List.mem_of_getElem? hblock)] at hmem
      cases hmem
  · rintro ⟨block, hblock, hleads⟩
    have hi := (List.getElem?_eq_some_iff.mp hblock).1
    exact ⟨block, (List.getElem?_append_left hi).trans hblock, hleads⟩

section

variable {s : FunctionLowerer}

theorem edge_appendStatement {lowered : StatementCode} (hcurrent : s.currentBlock < s.blocks.length)
    (hstraight : Straight lowered.code) {i t : ℕ} :
    Edge (appendStatement lowered s).blocks i t ↔ Edge s.blocks i t := by
  have hmodify : Edge (appendStatement lowered s).blocks i t ↔ _ :=
    edge_modify hcurrent lowered.code
  have hnot := not_leadsTo_of_straight hstraight t
  tauto

theorem edge_openArms (hcurrent : s.currentBlock < s.blocks.length) (test : Expression) {i t : ℕ} :
    Edge (openArms test s).blocks i t ↔ Edge s.blocks i t ∨
      i = s.currentBlock ∧ (t = s.blocks.length ∨ t = s.blocks.length + 1) := by
  have hplain := (expressionCode_wellNumbered s.locals test s.nextValue).plain
  have hnot := not_leadsTo_of_straight hplain.straight t
  rw [openArms_blocks test hcurrent, edge_append (by simp), edge_modify hcurrent, testCode,
    leadsTo_append, leadsTo_singleton]
  simp only [targets, List.mem_cons, List.not_mem_nil, or_false]
  tauto

theorem edge_closeArm (hcurrent : s.currentBlock < s.blocks.length) (merge next : BlockId)
    (span : Span) {i t : ℕ} :
    Edge (closeArm merge next span s).blocks i t ↔
      Edge s.blocks i t ∨ i = s.currentBlock ∧ t = merge := by
  have hmodify : Edge (closeArm merge next span s).blocks i t ↔ _ :=
    edge_modify hcurrent [⟨.jump merge, none, .undefined, span⟩]
  rw [hmodify, leadsTo_singleton, targets, List.mem_singleton]

end

mutual

def ifs : Statement → ℕ
  | .if _ consequent alternate _ => 1 + ifs consequent + alternateIfs alternate
  | .block body _ => bodyIfs body
  | .export inner _ => ifs inner
  | .variable _ _ | .return _ _ | .expression _ _ | .throw _ _ | .interface _ _ | .typeAlias _ _
  | .class _ _ | .function _ _ | .import _ _ | .empty _ | .error _ | .while _ _ _
  | .for _ _ _ _ _ => 0

def alternateIfs : Option Statement → ℕ
  | some alternate => ifs alternate
  | none => 0

def bodyIfs : List Statement → ℕ
  | [] => 0
  | statement :: statements => ifs statement + bodyIfs statements

end

/-- While the lowerer runs, it has entered the blocks of `order`. -/
structure Entered (order : List ℕ) (s : FunctionLowerer) : Prop where
  current : s.currentBlock ∈ order
  inside : ∀ i ∈ order, i < s.blocks.length
  targets : ∀ i t, Edge s.blocks i t → t < s.blocks.length
  forward : Forward order (Edge s.blocks)
  reached : ReflTransGen (Edge s.blocks) 0 s.currentBlock

/-- Below block `n` there is a way to a block that goes to `n`. -/
def Opens (blocks : List IrBlock) (n : ℕ) : Prop :=
  ∃ c, ReflTransGen (fun i t => Edge blocks i t ∧ t < n) 0 c ∧ Edge blocks c n

/-- The lowerer goes on from `s` to `s'` over `count` ifs. Each of them has three blocks,
    and the first one is where its test goes to. -/
structure Proceeds (order : List ℕ) (count : ℕ) (s s' : FunctionLowerer) : Prop where
  length : s'.blocks.length = s.blocks.length + 3 * count
  entered : ∃ fresh, Entered (order ++ fresh) s' ∧ ∀ i ∈ fresh, s.blocks.length ≤ i
  edges : ∀ i t, Edge s.blocks i t → Edge s'.blocks i t
  opens : ∀ n, s.blocks.length ≤ n → n < s'.blocks.length → n % 3 = s.blocks.length % 3 →
    Opens s'.blocks n

section

variable {order : List ℕ} {s s' s'' : FunctionLowerer}

theorem Entered.lt (h : Entered order s) : s.currentBlock < s.blocks.length :=
  h.inside _ h.current

theorem Entered.append (h : Entered order s) {lowered : StatementCode}
    (hstraight : Straight lowered.code) : Entered order (appendStatement lowered s) := by
  have hlength : (appendStatement lowered s).blocks.length = s.blocks.length :=
    List.length_modify _ _ _
  have hedges : Edge (appendStatement lowered s).blocks = Edge s.blocks :=
    funext₂ fun _ _ => propext (edge_appendStatement h.lt hstraight)
  refine ⟨h.current, ?_, ?_, ?_, ?_⟩
  · rw [hlength]
    exact h.inside
  · rw [hlength, hedges]
    exact h.targets
  · rw [hedges]
    exact h.forward
  · rw [hedges]
    exact h.reached

theorem Entered.opened (h : Entered order s) (test : Expression) :
    Entered (order ++ [s.blocks.length]) (openArms test s) := by
  have hlength := openArms_length test s
  have hedges {i t : ℕ} := edge_openArms h.lt test (i := i) (t := t)
  refine ⟨List.mem_append_right _ List.mem_cons_self, ?_, ?_, ?_, ?_⟩
  · intro i hi
    rcases List.mem_append.mp hi with hi | hi
    · have hlt := h.inside i hi
      omega
    · rw [List.mem_singleton] at hi
      omega
  · intro i t hedge
    rcases hedges.mp hedge with hold | ⟨_, ht⟩
    · have hlt := h.targets i t hold
      omega
    · omega
  · refine (h.forward.add fun i t hedge => ?_).enter _
    rcases hedges.mp hedge with hold | ⟨rfl, ht⟩
    · exact .inl hold
    · refine .inr ⟨h.current, fun hmem => ?_⟩
      have hlt := h.inside t hmem
      omega
  · have hreached := ReflTransGen.mono (fun _ _ hedge => hedges.mpr (.inl hedge)) _ _ h.reached
    exact hreached.tail (hedges.mpr (.inr ⟨rfl, .inl rfl⟩))

theorem Entered.closed (h : Entered order s) {merge next : ℕ} (span : Span)
    (hmerge : merge < s.blocks.length) (hfresh : merge ∉ order) (hnext : next < s.blocks.length)
    (hreached : ReflTransGen (Edge (closeArm merge next span s).blocks) 0 next) :
    Entered (order ++ [next]) (closeArm merge next span s) := by
  have hlength := closeArm_length merge next span s
  have hedges {i t : ℕ} := edge_closeArm h.lt merge next span (i := i) (t := t)
  refine ⟨List.mem_append_right _ List.mem_cons_self, ?_, ?_, ?_, hreached⟩
  · intro i hi
    rw [hlength]
    rcases List.mem_append.mp hi with hi | hi
    · exact h.inside i hi
    · rw [List.mem_singleton] at hi
      rw [hi]
      exact hnext
  · intro i t hedge
    rw [hlength]
    rcases hedges.mp hedge with hold | ⟨_, rfl⟩
    · exact h.targets i t hold
    · exact hmerge
  · refine (h.forward.add fun i t hedge => ?_).enter _
    rcases hedges.mp hedge with hold | ⟨rfl, rfl⟩
    · exact .inl hold
    · exact .inr ⟨h.current, hfresh⟩

theorem Opens.mono {blocks blocks' : List IrBlock} {n : ℕ} (h : Opens blocks n)
    (hedges : ∀ i t, Edge blocks i t → Edge blocks' i t) : Opens blocks' n := by
  obtain ⟨c, hpath, hedge⟩ := h
  exact ⟨c, ReflTransGen.mono (fun i t hstep => ⟨hedges i t hstep.1, hstep.2⟩) _ _ hpath,
    hedges c n hedge⟩

theorem Entered.opens (h : Entered order s) (test : Expression) :
    Opens (openArms test s).blocks s.blocks.length := by
  have hedges {i t : ℕ} := edge_openArms h.lt test (i := i) (t := t)
  refine ⟨s.currentBlock, ?_, hedges.mpr (.inr ⟨rfl, .inl rfl⟩)⟩
  exact ReflTransGen.mono (fun i t hedge => ⟨hedges.mpr (.inl hedge), h.targets i t hedge⟩) _ _
    h.reached

theorem Proceeds.refl (h : Entered order s) : Proceeds order 0 s s where
  length := rfl
  entered := ⟨[], by rw [List.append_nil]; exact h, fun _ hi => absurd hi List.not_mem_nil⟩
  edges _ _ hedge := hedge
  opens n hle hlt _ := by omega

theorem Proceeds.append (h : Entered order s) {lowered : StatementCode}
    (hstraight : Straight lowered.code) : Proceeds order 0 s (appendStatement lowered s) where
  length := List.length_modify _ _ _
  entered := ⟨[], by rw [List.append_nil]; exact h.append hstraight,
    fun _ hi => absurd hi List.not_mem_nil⟩
  edges _ _ hedge := (edge_appendStatement h.lt hstraight).mpr hedge
  opens n hle hlt _ := by
    have hlength : (appendStatement lowered s).blocks.length = s.blocks.length :=
      List.length_modify _ _ _
    omega

theorem Proceeds.emit (h : Entered order s) (kind : IrInstructionKind)
    (hstraight : LoweringCode.targets kind = []) (result : Option ValueId) (ty : IrType) (span : Span) :
    Proceeds order 0 s (s.emit kind result ty span) :=
  @Proceeds.append _ _ h ⟨[⟨kind, result, ty, span⟩], s.nextValue, s.locals⟩
    (straight_singleton.mpr hstraight)

theorem Proceeds.trans {n n' : ℕ} (h : Proceeds order n s s')
    (h' : ∀ {order' : List ℕ}, Entered order' s' → Proceeds order' n' s' s'') :
    Proceeds order (n + n') s s'' := by
  obtain ⟨fresh, hentered, hfresh⟩ := h.entered
  have hnext := h' hentered
  obtain ⟨fresh', hentered', hfresh'⟩ := hnext.entered
  have hlength := h.length
  have hlength' := hnext.length
  refine ⟨by omega, ⟨fresh ++ fresh', ?_, ?_⟩, fun i t hedge => hnext.edges i t (h.edges i t hedge), ?_⟩
  · rw [← List.append_assoc]
    exact hentered'
  · intro i hi
    rcases List.mem_append.mp hi with hi | hi
    · exact hfresh i hi
    · have hle := hfresh' i hi
      omega
  · intro k hle hlt hmod
    by_cases hk : k < s'.blocks.length
    · exact (h.opens k hle hk hmod).mono hnext.edges
    · exact hnext.opens k (by omega) hlt (by omega)

theorem Proceeds.secondArm {n : ℕ} (h : Entered order s) (test : Expression) (span : Span)
    (hfirst : Proceeds (order ++ [s.blocks.length]) n (openArms test s) s') :
    ∃ fresh, Entered (order ++ fresh) (closeArm (s.blocks.length + 2) (s.blocks.length + 1) span s') ∧
      ∀ i ∈ fresh, s.blocks.length ≤ i ∧ i ≠ s.blocks.length + 2 := by
  obtain ⟨fresh, hentered, hfresh⟩ := hfirst.entered
  have hopen := openArms_length test s
  have hlength := hfirst.length
  have hmerge : s.blocks.length + 2 ∉ order ++ [s.blocks.length] ++ fresh := by
    intro hmem
    rcases List.mem_append.mp hmem with hmem | hmem
    · rcases List.mem_append.mp hmem with hmem | hmem
      · have hlt := h.inside _ hmem
        omega
      · rw [List.mem_singleton] at hmem
        omega
    · have hle := hfresh _ hmem
      omega
  -- The test still goes to the second arm.
  have hsecond : ReflTransGen (Edge (openArms test s).blocks) 0 (s.blocks.length + 1) := by
    have hreached := ReflTransGen.mono (fun _ _ hedge => (edge_openArms h.lt test).mpr (.inl hedge))
      _ _ h.reached
    exact hreached.tail ((edge_openArms h.lt test).mpr (.inr ⟨rfl, .inr rfl⟩))
  have hreached := ReflTransGen.mono (fun i t hedge =>
    (edge_closeArm hentered.lt (s.blocks.length + 2) (s.blocks.length + 1) span).mpr
      (.inl (hfirst.edges i t hedge))) _ _ hsecond
  refine ⟨[s.blocks.length] ++ fresh ++ [s.blocks.length + 1], ?_, ?_⟩
  · rw [← List.append_assoc, ← List.append_assoc]
    exact hentered.closed span (by omega) hmerge (by omega) hreached
  · intro i hi
    simp only [List.mem_append, List.mem_singleton] at hi
    rcases hi with (hi | hi) | hi
    · omega
    · have hle := hfresh i hi
      omega
    · omega

theorem Proceeds.arms (h : Entered order s) (test : Expression) (consequent : Statement)
    (alternate : Option Statement) (span : Span)
    (hconsequent : ∀ {o : List ℕ} {t : FunctionLowerer}, Entered o t →
      Proceeds o (ifs consequent) t (lowerStatement consequent t))
    (halternate : ∀ {o : List ℕ} {t : FunctionLowerer}, Entered o t →
      Proceeds o (alternateIfs alternate) t (lowerAlternate alternate t)) :
    Proceeds order (1 + ifs consequent + alternateIfs alternate) s
      (lowerStatement (.if test consequent alternate span) s) := by
  rw [lowerStatement_if]
  dsimp only
  have hopen := openArms_length test s
  have hfirst := hconsequent (h.opened test)
  have hfirstLength := hfirst.length
  have hfirstEntered := hfirst.entered.choose_spec.1
  obtain ⟨fresh, hentered, hfresh⟩ := hfirst.secondArm h test span
  have hclose := closeArm_length (s.blocks.length + 2) (s.blocks.length + 1) span
    (lowerStatement consequent (openArms test s))
  have hsecond := halternate hentered
  have hsecondLength := hsecond.length
  obtain ⟨fresh', hentered', hfresh'⟩ := hsecond.entered
  have hmerge : s.blocks.length + 2 ∉ order ++ fresh ++ fresh' := by
    intro hmem
    rcases List.mem_append.mp hmem with hmem | hmem
    · rcases List.mem_append.mp hmem with hmem | hmem
      · have hlt := h.inside _ hmem
        omega
      · exact (hfresh _ hmem).2 rfl
    · have hle := hfresh' _ hmem
      omega
  have hedges {i t : ℕ} := edge_closeArm hentered'.lt (s.blocks.length + 2) (s.blocks.length + 2) span
    (i := i) (t := t)
  have hlength := closeArm_length (s.blocks.length + 2) (s.blocks.length + 2) span
    (lowerAlternate alternate (closeArm (s.blocks.length + 2) (s.blocks.length + 1) span
      (lowerStatement consequent (openArms test s))))
  have hreached := (ReflTransGen.mono (fun _ _ hedge => hedges.mpr (.inl hedge)) _ _
    hentered'.reached).tail (hedges.mpr (.inr ⟨rfl, rfl⟩))
  have hgrows (i t : ℕ) (hedge : Edge (lowerStatement consequent (openArms test s)).blocks i t) :=
    hedges.mpr (.inl (hsecond.edges i t
      ((edge_closeArm hfirstEntered.lt _ _ span).mpr (.inl hedge))))
  refine ⟨by omega, ⟨fresh ++ fresh' ++ [s.blocks.length + 2], ?_, ?_⟩, ?_, ?_⟩
  · rw [← List.append_assoc, ← List.append_assoc]
    exact hentered'.closed span (by omega) hmerge (by omega) hreached
  · intro i hi
    simp only [List.mem_append, List.mem_singleton] at hi
    rcases hi with (hi | hi) | hi
    · exact (hfresh i hi).1
    · have hle := hfresh' i hi
      omega
    · omega
  · intro i t hedge
    exact hgrows i t (hfirst.edges i t ((edge_openArms h.lt test).mpr (.inl hedge)))
  · intro k hle hlt hmod
    -- The `if` itself, one in its first arm, or one in the second.
    by_cases hself : k = s.blocks.length
    · rw [hself]
      exact ((h.opens test).mono hfirst.edges).mono hgrows
    by_cases hthen : k < (lowerStatement consequent (openArms test s)).blocks.length
    · exact (hfirst.opens k (by omega) hthen (by omega)).mono hgrows
    · refine (hsecond.opens k (by omega) (by omega) (by omega)).mono fun i t hedge => ?_
      exact hedges.mpr (.inl hedge)

end

mutual

theorem lowerStatement_proceeds : ∀ (statement : Statement) {order : List ℕ} {s : FunctionLowerer},
    Entered order s → Proceeds order (ifs statement) s (lowerStatement statement s)
  | .variable declaration span, _, _, h => by
    rw [lowerStatement, lowerVariable_eq]
    exact .append h (variableCode_wellNumbered _ declaration span _).straight
  | .return value span, _, _, h => by
    rw [lowerStatement, lowerReturn_eq]
    exact .append h (returnCode_wellNumbered _ value span _).straight
  | .expression value _, _, _, h | .throw value _, _, _, h => by
    rw [lowerStatement, lowerExpression_appendStatement]
    exact .append h (expressionStatementCode_wellNumbered _ value _).straight
  | .if test consequent alternate span, _, _, h =>
    .arms h test consequent alternate span (lowerStatement_proceeds consequent)
      (lowerAlternate_proceeds alternate)
  | .block body _, _, _, h => lowerStatements_proceeds body h
  | .export inner _, _, _, h => lowerStatement_proceeds inner h
  | .interface _ _, _, _, h | .typeAlias _ _, _, _, h | .class _ _, _, _, h
  | .function _ _, _, _, h | .import _ _, _, _, h | .empty _, _, _, h | .error _, _, _, h
  | .while _ _ _, _, _, h | .for _ _ _ _ _, _, _, h => .refl h

theorem lowerAlternate_proceeds : ∀ (alternate : Option Statement) {order : List ℕ}
    {s : FunctionLowerer}, Entered order s →
      Proceeds order (alternateIfs alternate) s (lowerAlternate alternate s)
  | some alternate, _, _, h => lowerStatement_proceeds alternate h
  | none, _, _, h => .refl h

theorem lowerStatements_proceeds : ∀ (statements : List Statement) {order : List ℕ}
    {s : FunctionLowerer}, Entered order s →
      Proceeds order (bodyIfs statements) s (lowerStatements statements s)
  | [], _, _, h => .refl h
  | statement :: statements, _, _, h =>
    (lowerStatement_proceeds statement h).trans fun h' => lowerStatements_proceeds statements h'

end

/-- The blocks of a function that was lowered from `count` ifs. -/
structure Built (function : IrFunction) (count : ℕ) : Prop where
  ids : ∀ i (block : IrBlock), function.blocks[i]? = some block → block.id = i
  length : function.blocks.length = 1 + 3 * count
  targets : ∀ i t, Edge function.blocks i t → t < function.blocks.length
  acyclic : Acyclic (Edge function.blocks)
  opens : ∀ n, 0 < n → n < function.blocks.length → n % 3 = 1 → Opens function.blocks n

theorem new_entered (name : String) (params : List IrParam) (returnType : IrType) (span : Span) :
    Entered [0] (.new name params returnType span) := by
  have hedges (i t : ℕ) : ¬ Edge [⟨0, []⟩] i t := by
    rintro ⟨block, hblock, instruction, hmem, _⟩
    obtain rfl := List.mem_singleton.mp (List.mem_of_getElem? hblock)
    cases hmem
  refine ⟨List.mem_cons_self, ?_, ?_, ?_, .refl⟩
  · intro i hi
    rw [List.mem_singleton.mp hi]
    exact Nat.one_pos
  · exact fun i t hedge => absurd hedge (hedges i t)
  · exact fun i t hedge => absurd hedge (hedges i t)

theorem Proceeds.built {name : String} {params : List IrParam} {returnType : IrType} {span : Span}
    {n : ℕ} {s : FunctionLowerer} (h : Proceeds [0] n (.new name params returnType span) s)
    (hids : ∀ i (block : IrBlock), s.blocks[i]? = some block → block.id = i) :
    Built s.finish n := by
  obtain ⟨fresh, hentered, _⟩ := h.entered
  exact ⟨hids, h.length, hentered.targets, hentered.forward.acyclic, fun k hk hlt hmod =>
    h.opens k hk hlt hmod⟩

theorem lowerFunction_built (function : FunctionDeclaration) (span : Span) :
    Built (lowerFunction function span) (bodyIfs function.body) := by
  obtain ⟨offset, hlayout, _⟩ := lowerStatements_numbering function.body _ _ _ _
  exact (lowerStatements_proceeds function.body (new_entered _ _ _ span)).built hlayout.ids

theorem entry_built (program : Program) :
    Built (lowerProgram program).entry (bodyIfs (program.body.filter isEntryStatement)) := by
  obtain ⟨offset, hnumbering⟩ := lowerProgram_numbering program
    (List.mem_append_right (lowerProgram program).functions (List.mem_singleton.mpr rfl))
  have hrun := lowerStatements_proceeds (program.body.filter isEntryStatement)
    (new_entered "__entry" [] .undefined (program.span.getD emptySpan))
  have hreturn := hrun.trans fun hentered => .emit hentered (.return none) rfl none .undefined
    (program.span.getD emptySpan)
  exact hreturn.built hnumbering.ids

/-- A block of the function may go to the block `t`. -/
def Goes (function : IrFunction) (i t : BlockId) : Prop :=
  ∃ block ∈ function.blocks, block.id = i ∧ LeadsTo block.instructions t

/-- The jumps of the blocks find a block, and lead in no circle. -/
structure AcyclicBlocks (function : IrFunction) : Prop where
  found : ∀ i t, Goes function i t → ∃ block ∈ function.blocks, block.id = t
  acyclic : Acyclic (Goes function)

theorem Built.goes_iff {function : IrFunction} {count : ℕ} (h : Built function count) {i t : ℕ} :
    Goes function i t ↔ Edge function.blocks i t := by
  constructor
  · rintro ⟨block, hmem, rfl, hleads⟩
    obtain ⟨k, hk⟩ := List.getElem?_of_mem hmem
    rw [h.ids k block hk]
    exact ⟨block, hk, hleads⟩
  · rintro ⟨block, hblock, hleads⟩
    exact ⟨block, List.mem_of_getElem? hblock, h.ids i block hblock, hleads⟩

/-- This holds of all functions, however many blocks they have. -/
theorem Built.acyclicBlocks {function : IrFunction} {count : ℕ} (h : Built function count) :
    AcyclicBlocks function where
  found := by
    intro i t hgoes
    have hlt := h.targets i t (h.goes_iff.mp hgoes)
    have hblock := List.getElem?_eq_getElem hlt
    exact ⟨_, List.getElem_mem hlt, h.ids t _ hblock⟩
  acyclic := by
    have hsame : Goes function = Edge function.blocks := funext₂ fun _ _ => propext h.goes_iff
    rw [hsame]
    exact h.acyclic

end Tsvm.BlockGraphs
