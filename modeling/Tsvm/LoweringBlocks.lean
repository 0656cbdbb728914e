import Mathlib.Logic.Function.Basic
import Tsvm.LoweringCode

set_option autoImplicit false

/-!
# The blocks of a lowered function

Values are numbered in the order the lowerer comes to them. `offset` is the
first number a block may use, and `none` before the lowerer has entered it. The
two arms of an `if` are numbered one after the other, and every jump goes to a
block with larger numbers.
-/
namespace Tsvm.LoweringBlocks
open Ast Ir Lowering LoweringCode

def totalResults (blocks : List IrBlock) : ℕ :=
  (blocks.map fun block => results block.instructions).sum

theorem totalResults_append (first second : List IrBlock) :
    totalResults (first ++ second) = totalResults first + totalResults second := by
  rw [totalResults, List.map_append, List.sum_append]
  rfl

theorem totalResults_modify {blocks : List IrBlock} {current : ℕ} (h : current < blocks.length)
    (code : List IrInstruction) :
    totalResults (blocks.modify current fun block =>
        { block with instructions := block.instructions ++ code }) =
      totalResults blocks + results code := by
  induction blocks generalizing current with
  | nil => cases h
  | cons block blocks ih =>
    cases current with
    | zero =>
      simp only [List.modify_zero_cons, totalResults, List.map_cons, List.sum_cons, results_append]
      omega
    | succ current =>
      have hrest := ih (Nat.lt_of_succ_lt_succ h)
      simp only [totalResults] at hrest
      simp only [List.modify_succ_cons, totalResults, List.map_cons, List.sum_cons, hrest]
      omega

/-- What the blocks look like while the lowerer is in block `current` and `n` is
    the next value. -/
structure Layout (offset : ℕ → Option ℕ) (blocks : List IrBlock) (current n : ℕ) : Prop where
  ids : ∀ i (block : IrBlock), blocks[i]? = some block → block.id = i
  current : ∃ (block : IrBlock) (c : ℕ), blocks[current]? = some block ∧ offset current = some c ∧
    c + results block.instructions = n ∧ Straight block.instructions
  numbered : ∀ i (block : IrBlock) c, blocks[i]? = some block → offset i = some c →
    Numbered c c block.instructions ∧ Tight c block.instructions ∧
      c + results block.instructions ≤ n
  later : ∀ i c, offset i = some c → i ≠ 0 → 0 < c
  pending : ∀ i (block : IrBlock), blocks[i]? = some block → offset i = none → block.instructions = []
  edges : ∀ i (block : IrBlock), blocks[i]? = some block → ∀ instruction ∈ block.instructions,
    ∀ t ∈ targets instruction.kind, t < blocks.length ∧
      ∀ b c, offset i = some b → offset t = some c → b + results block.instructions ≤ c
  fresh : ∀ i, blocks.length ≤ i → offset i = none
  total : totalResults blocks = n
  first : offset 0 = some 0

/-- The blocks that were there keep their offsets, and all new ones have been entered. -/
structure Grown (offset offset' : ℕ → Option ℕ) (length length' : ℕ) : Prop where
  old : ∀ i, i < length → offset' i = offset i
  le : length ≤ length'
  new : ∀ i, length ≤ i → i < length' → offset' i ≠ none

theorem Grown.refl (offset : ℕ → Option ℕ) (length : ℕ) : Grown offset offset length length :=
  ⟨fun _ _ => rfl, Nat.le_refl _, fun i hle hlt => by omega⟩

theorem Grown.trans {o₁ o₂ o₃ : ℕ → Option ℕ} {n₁ n₂ n₃ : ℕ} (h : Grown o₁ o₂ n₁ n₂)
    (h' : Grown o₂ o₃ n₂ n₃) : Grown o₁ o₃ n₁ n₃ where
  old := by
    intro i hi
    have hle := h.le
    rw [h'.old i (by omega), h.old i hi]
  le := Nat.le_trans h.le h'.le
  new := by
    intro i hle hlt
    by_cases hi : i < n₂
    · rw [h'.old i hi]
      exact h.new i hle hi
    · exact h'.new i (by omega) hlt

theorem getElem?_modify_block {blocks : List IrBlock} {current i : ℕ} {code : List IrInstruction}
    {block : IrBlock}
    (h : (blocks.modify current fun block =>
      { block with instructions := block.instructions ++ code })[i]? = some block) :
    ∃ old, blocks[i]? = some old ∧ block.id = old.id ∧
      block.instructions = old.instructions ++ (if current = i then code else []) := by
  rw [List.getElem?_modify] at h
  cases hold : blocks[i]? with
  | none => rw [hold] at h; cases h
  | some old =>
    rw [hold, Option.map_eq_map, Option.map_some] at h
    by_cases hi : current = i
    · simp only [if_pos hi] at h
      cases h
      exact ⟨old, rfl, rfl, by rw [if_pos hi]⟩
    · simp only [if_neg hi] at h
      cases h
      exact ⟨block, rfl, rfl, by rw [if_neg hi, List.append_nil]⟩

theorem Layout.append {offset : ℕ → Option ℕ} {blocks : List IrBlock} {current n : ℕ}
    (h : Layout offset blocks current n) (code : List IrInstruction) (hnumbered : Numbered n n code)
    (htight : Tight n code) (hstraight : Straight code) :
    Layout offset
      (blocks.modify current fun block => { block with instructions := block.instructions ++ code })
      current (n + results code) := by
  obtain ⟨now, c, hnow, hc, hn, hnowStraight⟩ := h.current
  refine ⟨?_, ⟨{ now with instructions := now.instructions ++ code }, c, ?_, hc, ?_, ?_⟩, ?_,
    h.later, ?_, ?_, ?_, ?_, h.first⟩
  · intro i block hblock
    obtain ⟨old, hold, hid, _⟩ := getElem?_modify_block hblock
    rw [hid]
    exact h.ids i old hold
  · simp [hnow]
  · rw [results_append, ← Nat.add_assoc, hn]
  · exact straight_append.mpr ⟨hnowStraight, hstraight⟩
  · intro i block b hblock hb
    obtain ⟨old, hold, _, hcode⟩ := getElem?_modify_block hblock
    obtain ⟨holdNumbered, holdTight, hle⟩ := h.numbered i old b hold hb
    rw [hcode]
    by_cases hi : current = i
    · subst hi
      rw [hold] at hnow
      cases hnow
      rw [hb] at hc
      cases hc
      rw [if_pos rfl, results_append]
      refine ⟨numbered_append.mpr ⟨holdNumbered, ?_⟩, holdTight.append ?_, by omega⟩
      · rw [hn]
        exact hnumbered.mono (by omega)
      · rw [hn]
        exact htight
    · rw [if_neg hi, List.append_nil]
      exact ⟨holdNumbered, holdTight, by omega⟩
  · intro i block hblock hnone
    obtain ⟨old, hold, _, hcode⟩ := getElem?_modify_block hblock
    have hi : current ≠ i := by
      rintro rfl
      rw [hc] at hnone
      cases hnone
    rw [hcode, if_neg hi, List.append_nil]
    exact h.pending i old hold hnone
  · intro i block hblock instruction hmem t ht
    obtain ⟨old, hold, _, hcode⟩ := getElem?_modify_block hblock
    rw [List.length_modify]
    by_cases hi : current = i
    · subst hi
      rw [hold] at hnow
      cases hnow
      rw [hcode, if_pos rfl] at hmem
      rw [straight_append.mpr ⟨hnowStraight, hstraight⟩ instruction hmem] at ht
      cases ht
    · rw [if_neg hi, List.append_nil] at hcode
      rw [hcode] at hmem ⊢
      exact h.edges i old hold instruction hmem t ht
  · intro i hi
    rw [List.length_modify] at hi
    exact h.fresh i hi
  · rw [totalResults_modify (List.getElem?_eq_some_iff.mp hnow).1, h.total]

/-- Entering a new block from the end of the current one, whose last instruction
    goes to blocks that have not been entered. -/
theorem Layout.leave {offset : ℕ → Option ℕ} {blocks : List IrBlock} {current n : ℕ}
    (h : Layout offset blocks current n) (low target : ℕ) (instruction : IrInstruction)
    (hvalues : Numbered low n [instruction]) (htight : Tight n [instruction])
    (hlow : ∀ c, offset current = some c → c ≤ low) (hpositive : 0 < n)
    (hproduces : produces instruction.kind = false)
    (htargets : ∀ t ∈ targets instruction.kind, t < blocks.length ∧ offset t = none)
    (htarget : target < blocks.length) (hpending : offset target = none) :
    Layout (Function.update offset target (some n))
      (blocks.modify current fun block =>
        { block with instructions := block.instructions ++ [instruction] })
      target n := by
  obtain ⟨now, c, hnow, hc, hn, hnowStraight⟩ := h.current
  have hne : current ≠ target := by
    rintro rfl
    rw [hc] at hpending
    cases hpending
  have hresults (i : ℕ) (code : List IrInstruction) :
      results (code ++ if current = i then [instruction] else []) = results code := by
    rw [results_append]
    by_cases hi : current = i
    · rw [if_pos hi, results_of_not_produces hproduces, Nat.add_zero]
    · rw [if_neg hi, results_nil, Nat.add_zero]
  have hother {i : ℕ} (hi : i ≠ target) : Function.update offset target (some n) i = offset i :=
    Function.update_of_ne hi _ _
  have hsame : Function.update offset target (some n) target = some n := Function.update_self _ _ _
  refine ⟨?_, ?_, ?_, ?_, ?_, ?_, ?_, ?_, ?_⟩
  · intro i block hblock
    obtain ⟨old, hold, hid, _⟩ := getElem?_modify_block hblock
    rw [hid]
    exact h.ids i old hold
  · obtain ⟨block, hblock⟩ : ∃ block, blocks[target]? = some block :=
      ⟨_, List.getElem?_eq_getElem htarget⟩
    have hempty := h.pending target block hblock hpending
    refine ⟨block, n, ?_, hsame, ?_, ?_⟩
    · simp [hblock, hne]
    · rw [hempty]
      rfl
    · rw [hempty]
      exact nofun
  · intro i block b hblock hb
    obtain ⟨old, hold, _, hcode⟩ := getElem?_modify_block hblock
    rw [hcode, hresults]
    by_cases hi : i = target
    · subst hi
      rw [hsame] at hb
      cases hb
      rw [h.pending i old hold hpending, if_neg hne]
      exact ⟨trivial, tight_nil _, Nat.le_refl _⟩
    · rw [hother hi] at hb
      obtain ⟨holdNumbered, holdTight, hle⟩ := h.numbered i old b hold hb
      refine ⟨numbered_append.mpr ⟨holdNumbered, ?_⟩, holdTight.append ?_, hle⟩
      · by_cases hcurrent : current = i
        · subst hcurrent
          rw [hold] at hnow
          cases hnow
          rw [hb] at hc
          cases hc
          rw [if_pos rfl, hn]
          exact hvalues.mono (hlow _ hb)
        · rw [if_neg hcurrent]
          trivial
      · by_cases hcurrent : current = i
        · subst hcurrent
          rw [hold] at hnow
          cases hnow
          rw [hb] at hc
          cases hc
          rw [if_pos rfl, hn]
          exact htight
        · rw [if_neg hcurrent]
          exact tight_nil _
  · intro i b hb hzero
    by_cases hi : i = target
    · rw [hi, hsame] at hb
      cases hb
      exact hpositive
    · rw [hother hi] at hb
      exact h.later i b hb hzero
  · intro i block hblock hnone
    obtain ⟨old, hold, _, hcode⟩ := getElem?_modify_block hblock
    have hi : i ≠ target := by
      rintro rfl
      rw [hsame] at hnone
      cases hnone
    rw [hother hi] at hnone
    have hcurrent : current ≠ i := by
      rintro rfl
      rw [hc] at hnone
      cases hnone
    rw [hcode, if_neg hcurrent, List.append_nil]
    exact h.pending i old hold hnone
  · intro i block hblock edge hmem t ht
    obtain ⟨old, hold, _, hcode⟩ := getElem?_modify_block hblock
    have hedge : t < blocks.length ∧ ∀ b d, offset i = some b → offset t = some d →
        b + results old.instructions ≤ d := by
      rw [hcode, List.mem_append] at hmem
      rcases hmem with hmem | hmem
      · exact h.edges i old hold edge hmem t ht
      · by_cases hcurrent : current = i
        · rw [if_pos hcurrent, List.mem_singleton] at hmem
          subst hmem
          obtain ⟨hlt, hnone⟩ := htargets t ht
          refine ⟨hlt, fun b d _ hd => ?_⟩
          rw [hnone] at hd
          cases hd
        · rw [if_neg hcurrent] at hmem
          cases hmem
    rw [List.length_modify, hcode, hresults]
    refine ⟨hedge.1, fun b d hb hd => ?_⟩
    have hi : i ≠ target := by
      rintro rfl
      rw [hcode, h.pending i old hold hpending, if_neg hne] at hmem
      cases hmem
    rw [hother hi] at hb
    by_cases hentered : t = target
    · subst hentered
      rw [hsame] at hd
      cases hd
      exact (h.numbered i old b hold hb).2.2
    · rw [hother hentered] at hd
      exact hedge.2 b d hb hd
  · intro i hi
    rw [List.length_modify] at hi
    rw [hother (by omega)]
    exact h.fresh i hi
  · rw [totalResults_modify (List.getElem?_eq_some_iff.mp hnow).1, h.total,
      results_of_not_produces hproduces, Nat.add_zero]
  · have hzero : (0 : ℕ) ≠ target := by
      rintro rfl
      rw [h.first] at hpending
      cases hpending
    rw [hother hzero]
    exact h.first

theorem Layout.create {offset : ℕ → Option ℕ} {blocks : List IrBlock} {current n : ℕ}
    (h : Layout offset blocks current n) :
    Layout offset (blocks ++ [⟨blocks.length, []⟩]) current n := by
  have hcases {i : ℕ} {block : IrBlock} (hblock : (blocks ++ [⟨blocks.length, []⟩])[i]? = some block) :
      blocks[i]? = some block ∨ i = blocks.length ∧ block = ⟨blocks.length, []⟩ := by
    by_cases hi : i < blocks.length
    · rw [List.getElem?_append_left hi] at hblock
      exact .inl hblock
    · rw [List.getElem?_append_right (by omega), List.getElem?_singleton] at hblock
      split at hblock
      · cases hblock
        exact .inr ⟨by omega, rfl⟩
      · cases hblock
  obtain ⟨now, c, hnow, hc, hn, hnowStraight⟩ := h.current
  refine ⟨?_, ⟨now, c, ?_, hc, hn, hnowStraight⟩, ?_, h.later, ?_, ?_, ?_, ?_, h.first⟩
  · intro i block hblock
    rcases hcases hblock with hold | ⟨rfl, rfl⟩
    · exact h.ids i block hold
    · rfl
  · rw [List.getElem?_append_left (List.getElem?_eq_some_iff.mp hnow).1]
    exact hnow
  · intro i block b hblock hb
    rcases hcases hblock with hold | ⟨rfl, rfl⟩
    · exact h.numbered i block b hold hb
    · rw [h.fresh _ (Nat.le_refl _)] at hb
      cases hb
  · intro i block hblock hnone
    rcases hcases hblock with hold | ⟨rfl, rfl⟩
    · exact h.pending i block hold hnone
    · rfl
  · intro i block hblock instruction hmem t ht
    rcases hcases hblock with hold | ⟨rfl, rfl⟩
    · obtain ⟨hlt, hoffset⟩ := h.edges i block hold instruction hmem t ht
      rw [List.length_append]
      exact ⟨by omega, hoffset⟩
    · cases hmem
  · intro i hi
    rw [List.length_append, List.length_singleton] at hi
    exact h.fresh i (by omega)
  · rw [totalResults_append, h.total]
    rfl

/-- The two arms of an `if` and the block behind it, which come after the `k`
    blocks that were there. -/
theorem Grown.arms {o o₂ o₃ : ℕ → Option ℕ} {k l₂ l₃ n₁ n₂ n₃ : ℕ}
    (hfirst : Grown (Function.update o k (some n₁)) o₂ (k + 3) l₂)
    (hsecond : Grown (Function.update o₂ (k + 1) (some n₂)) o₃ l₂ l₃) :
    Grown o (Function.update o₃ (k + 2) (some n₃)) k l₃ := by
  have hle₂ := hfirst.le
  have hle₃ := hsecond.le
  have hother {f : ℕ → Option ℕ} {i j : ℕ} {v : Option ℕ} (hi : i ≠ j) :
      Function.update f j v i = f i := Function.update_of_ne hi _ _
  have hsame {f : ℕ → Option ℕ} {j : ℕ} {v : Option ℕ} : Function.update f j v j = v :=
    Function.update_self _ _ _
  refine ⟨?_, by omega, ?_⟩
  · intro i hi
    rw [hother (by omega), hsecond.old i (by omega), hother (by omega), hfirst.old i (by omega),
      hother (by omega)]
  · intro i hle hlt
    by_cases hmerge : i = k + 2
    · rw [hmerge, hsame]
      exact nofun
    rw [hother hmerge]
    by_cases hi : l₂ ≤ i
    · exact hsecond.new i hi hlt
    rw [hsecond.old i (by omega)]
    by_cases helse : i = k + 1
    · rw [helse, hsame]
      exact nofun
    rw [hother helse]
    by_cases hi : k + 3 ≤ i
    · exact hfirst.new i hi (by omega)
    have hthen : i = k := by omega
    rw [hthen, hfirst.old k (by omega), hsame]
    exact nofun

/-- Blocks stay, and code is only added at their ends. -/
def CodeGrows (s s' : FunctionLowerer) : Prop :=
  ∀ (i : ℕ) (block : IrBlock), s.blocks[i]? = some block →
    ∃ block' : IrBlock, s'.blocks[i]? = some block' ∧
      block.instructions <+: block'.instructions

theorem CodeGrows.refl (s : FunctionLowerer) : CodeGrows s s :=
  fun _ block h => ⟨block, h, List.prefix_rfl⟩

theorem CodeGrows.trans {s₁ s₂ s₃ : FunctionLowerer} (h : CodeGrows s₁ s₂)
    (h' : CodeGrows s₂ s₃) : CodeGrows s₁ s₃ := by
  intro i block hblock
  obtain ⟨block₂, hblock₂, hprefix⟩ := h i block hblock
  obtain ⟨block₃, hblock₃, hprefix'⟩ := h' i block₂ hblock₂
  exact ⟨block₃, hblock₃, hprefix.trans hprefix'⟩

theorem CodeGrows.modify (s : FunctionLowerer) (code : List IrInstruction) {s' : FunctionLowerer}
    (h : s'.blocks = s.blocks.modify s.currentBlock fun block =>
      { block with instructions := block.instructions ++ code }) : CodeGrows s s' := by
  intro i block hblock
  rw [h, List.getElem?_modify, hblock]
  by_cases hi : s.currentBlock = i
  · exact ⟨_, by rw [Option.map_eq_map, Option.map_some, if_pos hi], List.prefix_append _ _⟩
  · exact ⟨block, by rw [Option.map_eq_map, Option.map_some, if_neg hi], List.prefix_rfl⟩

abbrev LayoutOf (offset : ℕ → Option ℕ) (s : FunctionLowerer) : Prop :=
  Layout offset s.blocks s.currentBlock s.nextValue

/-- The lowerer goes on from `s` to `s'`: it adds to the code and the numbers, and
    has left no new block behind unentered. -/
structure Advances (offset : ℕ → Option ℕ) (s s' : FunctionLowerer) : Prop where
  layout : ∃ offset', LayoutOf offset' s' ∧ Grown offset offset' s.blocks.length s'.blocks.length
  code : CodeGrows s s'
  next : s.nextValue ≤ s'.nextValue

theorem Advances.refl {offset : ℕ → Option ℕ} {s : FunctionLowerer} (h : LayoutOf offset s) :
    Advances offset s s := ⟨⟨offset, h, .refl _ _⟩, .refl s, Nat.le_refl _⟩

theorem Advances.code_append {offset : ℕ → Option ℕ} {s : FunctionLowerer}
    {lowered : StatementCode} (h : LayoutOf offset s)
    (hcode : WellNumberedStatement s.nextValue lowered) :
    Advances offset s (appendStatement lowered s) where
  layout := by
    refine ⟨offset, ?_, ?_⟩
    · change Layout offset _ _ lowered.next
      rw [hcode.next]
      exact Layout.append h _ hcode.numbered hcode.tight hcode.straight
    · change Grown _ _ _ (s.blocks.modify _ _).length
      rw [List.length_modify]
      exact .refl _ _
  code := .modify s lowered.code rfl
  next := by
    change _ ≤ lowered.next
    rw [hcode.next]
    exact Nat.le_add_right _ _

def expressionStatementCode (types : List (String × IrType)) (expression : Expression) (n : ℕ) :
    StatementCode :=
  let lowered := expressionCode types expression n
  ⟨lowered.code, lowered.next, types⟩

theorem expressionStatementCode_wellNumbered (types : List (String × IrType))
    (expression : Expression) (n : ℕ) :
    WellNumberedStatement n (expressionStatementCode types expression n) :=
  have h := expressionCode_wellNumbered types expression n
  ⟨h.numbered, h.tight, h.plain.straight, h.next⟩

theorem lowerExpression_appendStatement (expression : Expression) (s : FunctionLowerer) :
    (lowerExpression expression s).2 =
      appendStatement (expressionStatementCode s.locals expression s.nextValue) s := by
  rw [lowerExpression_eq]
  rfl

def openArms (test : Expression) (s : FunctionLowerer) : FunctionLowerer :=
  let lowered := lowerExpression test s
  let k := s.blocks.length
  ((lowered.2.createBlock.2.createBlock.2.createBlock.2).emit
    (.branch lowered.1.1 k (k + 1)) none .undefined test.span).enterBlock k

def closeArm (merge next : BlockId) (span : Span) (s : FunctionLowerer) : FunctionLowerer :=
  (s.emit (.jump merge) none .undefined span).enterBlock next

theorem lowerStatement_if (test : Expression) (consequent : Statement)
    (alternate : Option Statement) (span : Span) (s : FunctionLowerer) :
    lowerStatement (.if test consequent alternate span) s =
      let k := s.blocks.length
      closeArm (k + 2) (k + 2) span (lowerAlternate alternate
        (closeArm (k + 2) (k + 1) span (lowerStatement consequent (openArms test s)))) := by
  simp only [lowerStatement, openArms, closeArm, lowerExpression_eq, FunctionLowerer.createBlock,
    append, List.length_append, List.length_modify, List.length_singleton]

theorem modify_append_left {α : Type} {xs ys : List α} {k : ℕ} (h : k < xs.length) (f : α → α) :
    (xs ++ ys).modify k f = xs.modify k f ++ ys := by
  induction xs generalizing k with
  | nil => cases h
  | cons x xs ih =>
    cases k with
    | zero => rfl
    | succ k =>
      rw [List.cons_append, List.modify_succ_cons, List.modify_succ_cons, List.cons_append,
        ih (Nat.lt_of_succ_lt_succ h)]

def testCode (types : List (String × IrType)) (test : Expression) (k n : ℕ) : List IrInstruction :=
  let lowered := expressionCode types test n
  lowered.code ++ [⟨.branch lowered.value k (k + 1), none, .undefined, test.span⟩]

theorem openArms_blocks (test : Expression) {s : FunctionLowerer}
    (hcurrent : s.currentBlock < s.blocks.length) :
    (openArms test s).blocks =
      (s.blocks.modify s.currentBlock fun block =>
        { block with
          instructions := block.instructions ++ testCode s.locals test s.blocks.length s.nextValue })
      ++ [⟨s.blocks.length, []⟩, ⟨s.blocks.length + 1, []⟩, ⟨s.blocks.length + 2, []⟩] := by
  have hmodified {code : List IrInstruction} : s.currentBlock <
      (s.blocks.modify s.currentBlock fun block =>
        { block with instructions := block.instructions ++ code }).length := by
    rw [List.length_modify]
    exact hcurrent
  simp only [openArms, lowerExpression_eq, FunctionLowerer.createBlock, FunctionLowerer.emit,
    FunctionLowerer.enterBlock, LoweringCode.append, testCode, List.append_assoc,
    modify_append_left hmodified, List.modify_modify_eq, Function.comp_def, List.length_append,
    List.length_modify, List.length_singleton, List.cons_append, List.nil_append]
  rfl

theorem openArms_length (test : Expression) (s : FunctionLowerer) :
    (openArms test s).blocks.length = s.blocks.length + 3 := by
  simp [openArms, lowerExpression_eq, FunctionLowerer.createBlock, FunctionLowerer.emit,
    FunctionLowerer.enterBlock, append]

theorem openArms_next (test : Expression) (s : FunctionLowerer) :
    s.nextValue < (openArms test s).nextValue := by
  have hcode := expressionCode_wellNumbered s.locals test s.nextValue
  have hfirst := hcode.first
  have hvalue := hcode.value
  have hnext : (openArms test s).nextValue = (expressionCode s.locals test s.nextValue).next := by
    simp only [openArms, lowerExpression_eq]
    rfl
  omega

theorem openArms_layout {offset : ℕ → Option ℕ} {s : FunctionLowerer} (h : LayoutOf offset s)
    (test : Expression) :
    LayoutOf (Function.update offset s.blocks.length (some (openArms test s).nextValue))
      (openArms test s) := by
  have hcode := expressionCode_wellNumbered s.locals test s.nextValue
  have hfirst := hcode.first
  have hvalue := hcode.value
  obtain ⟨now, c, hnow, hc, hn, _⟩ := h.current
  have htest := Layout.append h _ hcode.numbered hcode.tight hcode.plain.straight
  rw [← hcode.next] at htest
  have hlength {code : List IrInstruction} : (s.blocks.modify s.currentBlock fun block =>
      { block with instructions := block.instructions ++ code }).length = s.blocks.length :=
    List.length_modify _ _ _
  have hthree := htest.create.create.create
  have hbranch := hthree.leave s.nextValue s.blocks.length
    ⟨.branch (expressionCode s.locals test s.nextValue).value s.blocks.length
      (s.blocks.length + 1), none, .undefined, test.span⟩
    (numbered_effect rfl ?_)
    (.inr (usesLast_singleton List.mem_cons_self hvalue)) ?_ ?_ rfl ?_ ?_ ?_
  · simpa only [LayoutOf, openArms, lowerExpression_eq, FunctionLowerer.createBlock,
      FunctionLowerer.emit, FunctionLowerer.enterBlock, LoweringCode.append] using hbranch
  · intro v hv
    obtain rfl := List.mem_singleton.mp hv
    omega
  · intro b hb
    rw [hc] at hb
    cases hb
    omega
  · omega
  · intro t ht
    simp only [targets, List.mem_cons, List.not_mem_nil, or_false] at ht
    simp only [List.length_append, List.length_singleton, hlength]
    rcases ht with rfl | rfl
    · exact ⟨by omega, h.fresh _ (Nat.le_refl _)⟩
    · exact ⟨by omega, h.fresh _ (Nat.le_succ _)⟩
  · simp only [List.length_append, List.length_singleton, hlength]
    omega
  · exact h.fresh _ (Nat.le_refl _)

theorem Layout.current_lt {offset : ℕ → Option ℕ} {blocks : List IrBlock} {current n : ℕ}
    (h : Layout offset blocks current n) : current < blocks.length := by
  obtain ⟨_, _, hnow, _⟩ := h.current
  exact (List.getElem?_eq_some_iff.mp hnow).1

theorem openArms_codeGrows {s : FunctionLowerer} (h : s.currentBlock < s.blocks.length)
    (test : Expression) : CodeGrows s (openArms test s) := by
  intro i block hblock
  have hgrows : CodeGrows s
      (append (testCode s.locals test s.blocks.length s.nextValue) s.nextValue s) :=
    .modify s (testCode s.locals test s.blocks.length s.nextValue) rfl
  obtain ⟨block', hblock', hprefix⟩ := hgrows i block hblock
  have hlt := (List.getElem?_eq_some_iff.mp hblock').1
  refine ⟨block', ?_, hprefix⟩
  rw [openArms_blocks test h]
  exact (List.getElem?_append_left hlt).trans hblock'

theorem closeArm_layout {offset : ℕ → Option ℕ} {s : FunctionLowerer} (h : LayoutOf offset s)
    {merge next : ℕ} (span : Span) (hpositive : 0 < s.nextValue) (hmerge : merge < s.blocks.length)
    (hnext : next < s.blocks.length) (hmergePending : offset merge = none)
    (hnextPending : offset next = none) :
    LayoutOf (Function.update offset next (some s.nextValue)) (closeArm merge next span s) := by
  refine Layout.leave h s.nextValue next _ (numbered_effect rfl nofun)
    (.inl (List.forall_mem_singleton.mpr rfl)) ?_ hpositive rfl ?_ hnext hnextPending
  · intro c hc
    obtain ⟨_, b, _, hb, hn, _⟩ := h.current
    rw [hb] at hc
    cases hc
    omega
  · intro t ht
    obtain rfl := List.mem_singleton.mp ht
    exact ⟨hmerge, hmergePending⟩

theorem closeArm_length (merge next : BlockId) (span : Span) (s : FunctionLowerer) :
    (closeArm merge next span s).blocks.length = s.blocks.length := List.length_modify _ _ _

theorem closeArm_codeGrows (merge next : BlockId) (span : Span) (s : FunctionLowerer) :
    CodeGrows s (closeArm merge next span s) :=
  .modify s [⟨.jump merge, none, .undefined, span⟩] rfl

theorem Advances.closeConsequent {offset : ℕ → Option ℕ} {s t : FunctionLowerer}
    (h : LayoutOf offset s) (test : Expression) (span : Span)
    (hconsequent : Advances
      (Function.update offset s.blocks.length (some (openArms test s).nextValue))
      (openArms test s) t) :
    ∃ o₂, Grown (Function.update offset s.blocks.length (some (openArms test s).nextValue)) o₂
        (s.blocks.length + 3) t.blocks.length ∧ o₂ (s.blocks.length + 2) = none ∧
      LayoutOf (Function.update o₂ (s.blocks.length + 1) (some t.nextValue))
        (closeArm (s.blocks.length + 2) (s.blocks.length + 1) span t) := by
  have hopen := openArms_next test s
  obtain ⟨⟨o₂, hthen, hgrown⟩, _, hnext⟩ := hconsequent
  rw [openArms_length] at hgrown
  have hle := hgrown.le
  have hpending {i : ℕ} (hi : s.blocks.length < i) (hi' : i < s.blocks.length + 3) :
      o₂ i = none := by
    rw [hgrown.old i hi', Function.update_of_ne (by omega)]
    exact h.fresh i (by omega)
  exact ⟨o₂, hgrown, hpending (by omega) (by omega), closeArm_layout hthen span (by omega)
    (by omega) (by omega) (hpending (by omega) (by omega)) (hpending (by omega) (by omega))⟩

/-- An `if`, given what its arms do. -/
theorem Advances.arms {offset : ℕ → Option ℕ} {s : FunctionLowerer} (h : LayoutOf offset s)
    (test : Expression) (consequent : Statement) (alternate : Option Statement) (span : Span)
    (hconsequent : ∀ {o : ℕ → Option ℕ} {t : FunctionLowerer}, LayoutOf o t →
      Advances o t (lowerStatement consequent t))
    (halternate : ∀ {o : ℕ → Option ℕ} {t : FunctionLowerer}, LayoutOf o t →
      Advances o t (lowerAlternate alternate t)) :
    Advances offset s (lowerStatement (.if test consequent alternate span) s) := by
  rw [lowerStatement_if]
  have hopen := openArms_next test s
  -- Both arms start with a block that is entered for the first time.
  have hthen := hconsequent (openArms_layout h test)
  have hthenNext := hthen.next
  obtain ⟨o₂, hfirst, hpending, hclosed⟩ := hthen.closeConsequent h test span
  obtain ⟨⟨o₃, helse, hsecond⟩, helseCode, helseNext⟩ := halternate hclosed
  rw [closeArm_length] at hsecond
  have hle₂ := hfirst.le
  have hle₃ := hsecond.le
  have hcloseNext : (closeArm (s.blocks.length + 2) (s.blocks.length + 1) span
      (lowerStatement consequent (openArms test s))).nextValue =
        (lowerStatement consequent (openArms test s)).nextValue := rfl
  have hmerge : o₃ (s.blocks.length + 2) = none := by
    rw [hsecond.old _ (by omega), Function.update_of_ne (by omega)]
    exact hpending
  refine ⟨⟨_, closeArm_layout helse span (by omega) (by omega) (by omega) hmerge hmerge, ?_⟩, ?_, ?_⟩
  · rw [closeArm_length]
    exact hfirst.arms hsecond
  · exact (openArms_codeGrows h.current_lt test).trans (hthen.code.trans
      ((closeArm_codeGrows _ _ span _).trans (helseCode.trans (closeArm_codeGrows _ _ span _))))
  · change s.nextValue ≤ (lowerAlternate alternate _).nextValue
    omega

mutual

theorem lowerStatement_advances : ∀ (statement : Statement) {offset : ℕ → Option ℕ}
    {s : FunctionLowerer}, LayoutOf offset s → Advances offset s (lowerStatement statement s)
  | .variable declaration span, _, _, h => by
    rw [lowerStatement, lowerVariable_eq]
    exact .code_append h (variableCode_wellNumbered _ declaration span _)
  | .return value span, _, _, h => by
    rw [lowerStatement, lowerReturn_eq]
    exact .code_append h (returnCode_wellNumbered _ value span _)
  | .expression value _, _, _, h | .throw value _, _, _, h => by
    rw [lowerStatement, lowerExpression_appendStatement]
    exact .code_append h (expressionStatementCode_wellNumbered _ value _)
  | .if test consequent alternate span, _, _, h =>
    .arms h test consequent alternate span (lowerStatement_advances consequent)
      (lowerAlternate_advances alternate)
  | .block body _, _, _, h => lowerStatements_advances body h
  | .export inner _, _, _, h => lowerStatement_advances inner h
  | .interface _ _, _, _, h | .typeAlias _ _, _, _, h | .class _ _, _, _, h
  | .function _ _, _, _, h | .import _ _, _, _, h | .empty _, _, _, h | .error _, _, _, h
  | .while _ _ _, _, _, h | .for _ _ _ _ _, _, _, h => .refl h

theorem lowerAlternate_advances : ∀ (alternate : Option Statement) {offset : ℕ → Option ℕ}
    {s : FunctionLowerer}, LayoutOf offset s → Advances offset s (lowerAlternate alternate s)
  | some alternate, _, _, h => lowerStatement_advances alternate h
  | none, _, _, h => .refl h

theorem lowerStatements_advances : ∀ (statements : List Statement) {offset : ℕ → Option ℕ}
    {s : FunctionLowerer}, LayoutOf offset s → Advances offset s (lowerStatements statements s)
  | [], _, _, h => .refl h
  | statement :: statements, _, _, h => by
    obtain ⟨⟨o₁, hfirst, hgrown⟩, hcode, hnext⟩ := lowerStatement_advances statement h
    obtain ⟨⟨o₂, hrest, hgrown'⟩, hcode', hnext'⟩ := lowerStatements_advances statements hfirst
    exact ⟨⟨o₂, hrest, hgrown.trans hgrown'⟩, hcode.trans hcode', Nat.le_trans hnext hnext'⟩

end

def signature (s : FunctionLowerer) : String × List IrParam := (s.name, s.params)

theorem openArms_signature (test : Expression) (s : FunctionLowerer) :
    signature (openArms test s) = signature s := by
  simp only [openArms, lowerExpression_eq]
  rfl

mutual

theorem lowerStatement_signature : ∀ (statement : Statement) (s : FunctionLowerer),
    signature (lowerStatement statement s) = signature s
  | .variable declaration span, s => by
    rw [lowerStatement, lowerVariable_eq]
    rfl
  | .return value span, s => by
    rw [lowerStatement, lowerReturn_eq]
    rfl
  | .expression value _, s | .throw value _, s => by
    rw [lowerStatement, lowerExpression_appendStatement]
    rfl
  | .if test consequent alternate span, s => by
    rw [lowerStatement_if]
    have halternate := lowerAlternate_signature alternate
      (closeArm (s.blocks.length + 2) (s.blocks.length + 1) span
        (lowerStatement consequent (openArms test s)))
    have hconsequent := lowerStatement_signature consequent (openArms test s)
    exact halternate.trans (hconsequent.trans (openArms_signature test s))
  | .block body _, s => lowerStatements_signature body s
  | .export inner _, s => lowerStatement_signature inner s
  | .interface _ _, _ | .typeAlias _ _, _ | .class _ _, _ | .function _ _, _ | .import _ _, _
  | .empty _, _ | .error _, _ | .while _ _ _, _ | .for _ _ _ _ _, _ => rfl

theorem lowerAlternate_signature : ∀ (alternate : Option Statement) (s : FunctionLowerer),
    signature (lowerAlternate alternate s) = signature s
  | some alternate, s => lowerStatement_signature alternate s
  | none, _ => rfl

theorem lowerStatements_signature : ∀ (statements : List Statement) (s : FunctionLowerer),
    signature (lowerStatements statements s) = signature s
  | [], _ => rfl
  | statement :: statements, s =>
    (lowerStatements_signature statements (lowerStatement statement s)).trans
      (lowerStatement_signature statement s)

end

/-- How the values of a function are numbered: block 0 starts with value 0, and a
    block is only left for one that starts behind all its values. -/
structure Numbering (function : IrFunction) (offset : ℕ → ℕ) : Prop where
  first : offset 0 = 0
  ids : ∀ i (block : IrBlock), function.blocks[i]? = some block → block.id = i
  later : ∀ i, i < function.blocks.length → i ≠ 0 → 0 < offset i
  numbered : ∀ i (block : IrBlock), function.blocks[i]? = some block →
    Numbered (offset i) (offset i) block.instructions
  tight : ∀ i (block : IrBlock), function.blocks[i]? = some block →
    Tight (offset i) block.instructions
  bound : ∀ i (block : IrBlock), function.blocks[i]? = some block →
    offset i + results block.instructions ≤ totalResults function.blocks
  edges : ∀ i (block : IrBlock), function.blocks[i]? = some block →
    ∀ instruction ∈ block.instructions, ∀ t ∈ targets instruction.kind,
      t < function.blocks.length ∧ offset i + results block.instructions ≤ offset t

theorem new_layout (name : String) (params : List IrParam) (returnType : IrType) (span : Span) :
    LayoutOf (Function.update (fun _ => none) 0 (some 0))
      (.new name params returnType span) := by
  have hblock {i : ℕ} {block : IrBlock} (h : ([⟨0, []⟩] : List IrBlock)[i]? = some block) :
      i = 0 ∧ block = ⟨0, []⟩ := by
    cases i with
    | zero =>
      cases h
      exact ⟨rfl, rfl⟩
    | succ i => cases h
  refine ⟨?_, ⟨⟨0, []⟩, 0, rfl, rfl, rfl, nofun⟩, ?_, ?_, ?_, ?_, ?_, rfl, rfl⟩
  · intro i block h
    obtain ⟨rfl, rfl⟩ := hblock h
    rfl
  · intro i block c h hc
    obtain ⟨rfl, rfl⟩ := hblock h
    cases hc
    exact ⟨trivial, tight_nil 0, Nat.le_refl _⟩
  · intro i c hc hi
    rw [Function.update_of_ne hi] at hc
    cases hc
  · intro i block h _
    obtain ⟨rfl, rfl⟩ := hblock h
    rfl
  · intro i block h instruction hmem
    obtain ⟨rfl, rfl⟩ := hblock h
    cases hmem
  · intro i hi
    change 1 ≤ i at hi
    exact Function.update_of_ne (by omega) _ _

theorem Layout.numbering {offset : ℕ → Option ℕ} {s : FunctionLowerer} (h : LayoutOf offset s)
    (hentered : ∀ i, i < s.blocks.length → offset i ≠ none) :
    Numbering s.finish fun i => (offset i).getD 0 where
  first := by
    rw [h.first]
    rfl
  ids := h.ids
  numbered := by
    intro i block hblock
    obtain ⟨c, hc⟩ := Option.ne_none_iff_exists'.mp
      (hentered i (List.getElem?_eq_some_iff.mp hblock).1)
    rw [hc]
    exact (h.numbered i block c hblock hc).1
  later := by
    intro i hi hzero
    obtain ⟨c, hc⟩ := Option.ne_none_iff_exists'.mp (hentered i hi)
    rw [hc]
    exact h.later i c hc hzero
  tight := by
    intro i block hblock
    obtain ⟨c, hc⟩ := Option.ne_none_iff_exists'.mp
      (hentered i (List.getElem?_eq_some_iff.mp hblock).1)
    rw [hc]
    exact (h.numbered i block c hblock hc).2.1
  bound := by
    intro i block hblock
    obtain ⟨c, hc⟩ := Option.ne_none_iff_exists'.mp
      (hentered i (List.getElem?_eq_some_iff.mp hblock).1)
    rw [hc]
    have hle := (h.numbered i block c hblock hc).2.2
    rw [← h.total] at hle
    exact hle
  edges := by
    intro i block hblock instruction hmem t ht
    obtain ⟨hlt, hedge⟩ := h.edges i block hblock instruction hmem t ht
    obtain ⟨b, hb⟩ := Option.ne_none_iff_exists'.mp
      (hentered i (List.getElem?_eq_some_iff.mp hblock).1)
    obtain ⟨c, hc⟩ := Option.ne_none_iff_exists'.mp (hentered t hlt)
    refine ⟨hlt, ?_⟩
    rw [hb, hc]
    exact hedge b c hb hc

theorem lowerStatements_numbering (statements : List Statement) (name : String)
    (params : List IrParam) (returnType : IrType) (span : Span) :
    ∃ offset, LayoutOf offset (lowerStatements statements (.new name params returnType span)) ∧
      ∀ i, i < (lowerStatements statements (.new name params returnType span)).blocks.length →
        offset i ≠ none := by
  obtain ⟨⟨offset, hlayout, hgrown⟩, _, _⟩ :=
    lowerStatements_advances statements (new_layout name params returnType span)
  refine ⟨offset, hlayout, fun i hi => ?_⟩
  by_cases hzero : i = 0
  · rw [hzero, hlayout.first]
    exact nofun
  · exact hgrown.new i (Nat.one_le_iff_ne_zero.mpr hzero) hi

/-- The functions that are compiled for a program, the entry last. -/
def allFunctions (ir : IrProgram) : List IrFunction := ir.functions ++ [ir.entry]

/-- Every function the lowerer produces has its values numbered along its jumps. -/
theorem lowerProgram_numbering (program : Program) {function : IrFunction}
    (hfunction : function ∈ allFunctions (lowerProgram program)) :
    ∃ offset, Numbering function offset := by
  rcases List.mem_append.mp hfunction with hmem | hmem
  · obtain ⟨statement, _, hlowered⟩ := List.mem_filterMap.mp hmem
    cases statement with
    | function declaration span =>
      cases hlowered
      obtain ⟨offset, hlayout, hentered⟩ := lowerStatements_numbering declaration.body _ _ _ _
      exact ⟨_, hlayout.numbering hentered⟩
    | _ => cases hlowered
  · obtain rfl := List.mem_singleton.mp hmem
    obtain ⟨offset, hlayout, hentered⟩ :=
      lowerStatements_numbering (program.body.filter isEntryStatement) "__entry" [] .undefined
        (program.span.getD emptySpan)
    have hreturn := Layout.append hlayout
      [⟨.return none, none, .undefined, program.span.getD emptySpan⟩] (numbered_effect rfl nofun) (.inl (List.forall_mem_singleton.mpr rfl))
      (straight_singleton.mpr rfl)
    refine ⟨_, Layout.numbering hreturn fun i hi => hentered i ?_⟩
    exact Nat.lt_of_lt_of_eq hi (List.length_modify _ _ _)

end Tsvm.LoweringBlocks
