import Tsvm.AbruptCompletions
import Tsvm.EnvironmentRuns

set_option autoImplicit false

/-!
# What the code of the statements does

An activation is followed from inside a block. Up to its first `if` the frame has all
values that were numbered before, behind it no value is used. An `if` takes two turns
of the loop over the blocks, and there is no second one.
-/
namespace Tsvm.StatementRuns
open Ast Bytecode BytecodeVerifier Interop Ir Lowering Compilation RuntimeValues Interpreter
  InterpreterSteps
open LoweringCode LoweringBlocks LoweredChecks CompiledOperands CompiledSlots FunctionSlots
  CompiledCode ExpressionRuns SourceChecks BlockVisits AbruptCompletions SourceMeaning
  EnvironmentRuns

variable {ν : Type}

section

variable [F64 ν] (m : BytecodeModule) (call : Call ν) (compiled : BytecodeFunction)

def proceed (turns : ℕ) (code : List Instruction) (frame : Frame ν) : Run ν (RuntimeValue ν) := do
  let (flow, frame) ← executeBlock m call code frame
  match flow with
  | .continue => pure .undefined
  | .jump next => executeFrame m call compiled turns next frame
  | .return value => pure value

variable {m call compiled} {turns : ℕ}

theorem executeFrame_proceeds {id : UInt32} {block : BytecodeBlock}
    (h : findBlock compiled id = .ok block) (frame : Frame ν) :
    executeFrame m call compiled (turns + 1) id frame =
      proceed m call compiled turns block.instructions frame := by
  rw [executeFrame, h]
  rfl

theorem proceed_nil (frame : Frame ν) :
    proceed m call compiled turns [] frame = pure .undefined := rfl

theorem proceed_congr {code code' : List Instruction} {frame frame' : Frame ν} {s t : Machine ν}
    (h : executeBlock m call code frame s = executeBlock m call code' frame' t) :
    proceed m call compiled turns code frame s = proceed m call compiled turns code' frame' t := by
  change FailState.bind _ _ s = FailState.bind _ _ t
  unfold FailState.bind
  rw [h]

theorem proceed_error {code : List Instruction} {frame : Frame ν} {s t : Machine ν} {e : Stop}
    (h : executeBlock m call code frame s = (.error e, t)) :
    proceed m call compiled turns code frame s = (.error e, t) :=
  FailState.bind_error h

theorem proceed_continue {instruction : Instruction} {rest : List Instruction}
    {frame frame' : Frame ν}
    (h : executeInstruction m call instruction frame = pure (.continue, frame')) :
    proceed m call compiled turns (instruction :: rest) frame =
      proceed m call compiled turns rest frame' := by
  rw [proceed, executeBlock, h]
  rfl

theorem proceed_jump {instruction : Instruction} {rest : List Instruction} {frame : Frame ν}
    {next : UInt32} (h : executeInstruction m call instruction frame = pure (.jump next, frame)) :
    proceed m call compiled turns (instruction :: rest) frame =
      executeFrame m call compiled turns next frame := by
  rw [proceed, executeBlock, h]
  rfl

theorem proceed_return {instruction : Instruction} {rest : List Instruction} {frame : Frame ν}
    {value : RuntimeValue ν}
    (h : executeInstruction m call instruction frame = pure (.return value, frame)) :
    proceed m call compiled turns (instruction :: rest) frame = pure value := by
  rw [proceed, executeBlock, h]
  rfl

end

section

variable [F64 ν] {m : BytecodeModule} {call : Call ν} {final : LocalSlots}
  {instruction : IrInstruction} {compiled : Instruction} {locals : Locals ν}
  {values : List (RuntimeValue ν)}

theorem run_branch (h : Allotted m final instruction compiled) {id thenBlock elseBlock : ℕ}
    {condition : RuntimeValue ν} (hkind : instruction.kind = .branch id thenBlock elseBlock)
    (hcondition : Holds values id condition) (hid : id < 2 ^ 32) :
    executeInstruction m call compiled ⟨locals, values⟩ =
      pure (.jump (.ofNat (if truthy condition then thenBlock else elseBlock)),
        ⟨locals, values⟩) := by
  obtain ⟨slots, _, hrefers⟩ := refers_of_kind h hkind
  obtain ⟨opcode, operands, tag, src⟩ := compiled
  cases hrefers with
  | branch =>
    have htarget : operand
        ⟨.branch, [.ofNat id, .ofNat thenBlock, .ofNat elseBlock], tag, src⟩
          (if truthy condition then 1 else 2) =
        .ok (.ofNat (if truthy condition then thenBlock else elseBlock)) := by
      cases truthy condition <;> rfl
    simp only [executeInstruction]
    change FailState.lift ((⟨locals, values⟩ : Frame ν).value (.ofNat id)) >>= _ = _
    rw [hcondition.read hid]
    change FailState.lift (operand _ (if truthy condition then 1 else 2)) >>= _ = _
    rw [htarget]
    rfl

theorem run_jump (h : Allotted m final instruction compiled) {target : ℕ}
    (hkind : instruction.kind = .jump target) (frame : Frame ν) :
    executeInstruction m call compiled frame = pure (.jump (.ofNat target), frame) := by
  obtain ⟨slots, _, hrefers⟩ := refers_of_kind h hkind
  obtain ⟨opcode, operands, tag, src⟩ := compiled
  cases hrefers with
  | jump => rfl

theorem run_return (h : Allotted m final instruction compiled) {id : ℕ} {value : RuntimeValue ν}
    (hkind : instruction.kind = .return (some id)) (hvalue : Holds values id value)
    (hid : id < 2 ^ 32) :
    executeInstruction m call compiled ⟨locals, values⟩ =
      pure (.return value, ⟨locals, values⟩) := by
  obtain ⟨slots, _, hrefers⟩ := refers_of_kind h hkind
  obtain ⟨opcode, operands, tag, src⟩ := compiled
  cases hrefers with
  | «return» =>
    change FailState.lift ((⟨locals, values⟩ : Frame ν).value (.ofNat id)) >>= _ = _
    rw [hvalue.read hid]
    rfl

theorem run_returnVoid (h : Allotted m final instruction compiled)
    (hkind : instruction.kind = .return none) (frame : Frame ν) :
    executeInstruction m call compiled frame = pure (.return .undefined, frame) := by
  obtain ⟨slots, _, hrefers⟩ := refers_of_kind h hkind
  obtain ⟨opcode, operands, tag, src⟩ := compiled
  cases hrefers with
  | «return» => rfl

end

section

variable {m : BytecodeModule} {final : LocalSlots} {params known known' : List String}
  {types : List (String × IrType)}

theorem slotted_of_allotted {code : List IrInstruction} {compiled : List Instruction}
    (hcode : List.Forall₂ (Allotted m final) code compiled)
    (hcheck : checkCode code known = some known') (h : Slotted final known) :
    Slotted final known' := by
  intro name hname
  rcases checkCode_stores hcheck hname with hold | ⟨instruction, hmem, value, hkind⟩
  · exact h name hold
  · obtain ⟨k, hk⟩ := List.getElem?_of_mem hmem
    obtain ⟨compiledInstruction, _, hallotted⟩ := forall₂_getElem? hcode.flip hk
    obtain ⟨slots, hkeeps, _⟩ := refers_of_kind hallotted hkind
    rw [hkeeps name _ (localId_lookup name slots)]
    exact fun h => nomatch h

variable [F64 ν] {call : Call ν} {compiled : BytecodeFunction}

/-- In front of any other code the code of an expression evaluates it. -/
theorem evaluate_proceeds (hslots : SlotsFor params 0 final) (expression : Expression) {n : ℕ}
    {code : List Instruction}
    (hcode : List.Forall₂ (Allotted m final) (expressionCode types expression n).code code)
    (hsize : (expressionCode types expression n).next ≤ 2 ^ 32)
    (hcheck : checkExpression types expression known = some known') {env : Environment ν}
    {frame : Frame ν} (h : Corresponds final known env frame.locals)
    (hvalues : frame.values.length = n) (turns : ℕ) (rest : List Instruction) (s : Machine ν) :
    FailState.wp (evaluate call expression env) s
      (fun r t => ∃ after : Frame ν, Corresponds final known' r.2 after.locals ∧
        after.values.length = (expressionCode types expression n).next ∧
        Holds after.values (expressionCode types expression n).value r.1 ∧
        proceed m call compiled turns (code ++ rest) frame s =
          proceed m call compiled turns rest after t)
      (fun e t => proceed m call compiled turns (code ++ rest) frame s = (.error e, t)) := by
  obtain ⟨locals, values⟩ := frame
  have hslotted := slotted_of_allotted hcode
    ((congrFun (checkCode_expressionCode types expression n) known).trans hcheck) h.slotted
  have hruns : Mirrors final known' (evaluate call expression env)
      (runExpression (slotOf final) call expression locals) :=
    evaluate_mirrors types hslots expression hcheck hslotted h
  have hsimulates : Simulates m call code (results (expressionCode types expression n).code)
      (fun value values => Holds values (expressionCode types expression n).value value) locals
      values (runExpression (slotOf final) call expression locals) :=
    runExpression_simulates types expression hcode hsize locals hvalues
  refine FailState.wp_mono (hruns s) ?_ ?_
  · rintro ⟨value, env'⟩ t ⟨locals', hrun, hafter⟩
    obtain ⟨pushed, hlength, hfound, hexec⟩ := FailState.wp_ok (hsimulates rest s) hrun
    refine ⟨⟨locals', values ++ pushed⟩, hafter, ?_, hfound, proceed_congr hexec⟩
    exact next_length (expressionCode_wellNumbered types expression n) hvalues hlength
  · intro e t hrun
    have hexec := FailState.wp_error (hsimulates rest s) hrun
    exact proceed_error hexec

omit [F64 ν] in
theorem leafCode_eq (types : List (String × IrType)) (expression : Expression)
    (h : leafExpression params expression = true) :
    ∃ kind ty span, ∀ n, expressionCode types expression n = .ofValue [] n kind ty span := by
  cases expression with
  | identifier | number | string | boolean | null | undefined | error =>
    exact ⟨_, _, _, fun _ => rfl⟩
  | object properties span =>
    obtain rfl := List.isEmpty_iff.mp h
    exact ⟨_, _, _, fun _ => rfl⟩
  | array elements span =>
    obtain rfl := List.isEmpty_iff.mp h
    exact ⟨_, _, _, fun _ => rfl⟩
  | call callee arguments span =>
    obtain rfl := List.isEmpty_iff.mp h
    exact ⟨_, _, _, fun _ => rfl⟩
  | member | binary => cases h
  | unary operator argument span => exact leafCode_eq types argument h
  | assignment left operator right span =>
    cases left with
    | identifier | member => cases h
    | _ => exact leafCode_eq types right h

omit [F64 ν] in
theorem leafExpression_check (types : List (String × IrType)) (expression : Expression)
    (h : leafExpression params expression = true) :
    checkExpression types expression params = some params := by
  cases expression with
  | identifier name span => exact if_pos (List.contains_iff_mem.mp h)
  | number | string | boolean | null | undefined | error => rfl
  | object properties span =>
    obtain rfl := List.isEmpty_iff.mp h
    rfl
  | array elements span =>
    obtain rfl := List.isEmpty_iff.mp h
    rfl
  | call callee arguments span =>
    obtain rfl := List.isEmpty_iff.mp h
    rfl
  | member | binary => cases h
  | unary operator argument span => exact leafExpression_check types argument h
  | assignment left operator right span =>
    cases left with
    | identifier | member => cases h
    | _ => exact leafExpression_check types right h

end

/-- The lowerer goes on from `s` to `last`. -/
structure Before (last s : FunctionLowerer) : Prop where
  current : s.currentBlock < s.blocks.length
  code : CodeGrows s last
  next : s.nextValue ≤ last.nextValue

theorem Before.advances {last s s' : FunctionLowerer} {offset : ℕ → Option ℕ}
    (h : Before last s') (hlayout : LayoutOf offset s) (hadvances : Advances offset s s') :
    Before last s :=
  ⟨hlayout.current_lt, hadvances.code.trans h.code, Nat.le_trans hadvances.next h.next⟩

def rest (compiled : BytecodeFunction) (s : FunctionLowerer) : List Instruction :=
  (((compiled.blocks[s.currentBlock]?).map BytecodeBlock.instructions).getD []).drop
    (currentCode s).length

section

variable {m : BytecodeModule} {final : LocalSlots} {function : IrFunction}
  {last s s' : FunctionLowerer} {compiled : BytecodeFunction}

theorem compiled_block (h : FunctionCode m function compiled final) {i : ℕ} {block : IrBlock}
    (hblock : function.blocks[i]? = some block) :
    ∃ compiledBlock, compiled.blocks[i]? = some compiledBlock ∧
      findBlock compiled (.ofNat i) = .ok compiledBlock ∧
      List.Forall₂ (Allotted m final) block.instructions compiledBlock.instructions := by
  obtain ⟨compiledBlock, hcompiled, _, hcode⟩ := forall₂_getElem? h.code.blocks.flip hblock
  refine ⟨compiledBlock, hcompiled, ?_, hcode⟩
  have hids (j : ℕ) (found : BytecodeBlock) (hfound : compiled.blocks[j]? = some found) :
      found.id = .ofNat j := by
    obtain ⟨source, hsource, hid, _⟩ := forall₂_getElem? h.code.blocks hfound
    rw [hid, h.ids j source hsource]
  have hlt := (List.getElem?_eq_some_iff.mp hblock).1
  have hlength := h.length
  rw [findBlock_eq_ok_iff hids, UInt32.toNat_ofNat', Nat.mod_eq_of_lt (by omega)]
  exact hcompiled

theorem currentCode_of_getElem? {block : IrBlock} (h : s.blocks[s.currentBlock]? = some block) :
    currentCode s = block.instructions := by
  rw [currentCode, h]
  rfl

theorem rest_append (h : FunctionCode m last.finish compiled final) {code : List IrInstruction}
    (hcurrent : s.currentBlock < s.blocks.length)
    (hblocks : s'.blocks = s.blocks.modify s.currentBlock fun block =>
      { block with instructions := block.instructions ++ code })
    (hsame : s'.currentBlock = s.currentBlock) (hgrows : CodeGrows s' last) :
    ∃ first, List.Forall₂ (Allotted m final) code first ∧
      rest compiled s = first ++ rest compiled s' := by
  obtain ⟨block, hblock⟩ : ∃ block, s.blocks[s.currentBlock]? = some block :=
    ⟨_, List.getElem?_eq_getElem hcurrent⟩
  have hblock' := getElem?_modify_current hblock code
  rw [← hblocks, ← hsame] at hblock'
  obtain ⟨lowered, hlowered, added, hadded⟩ := hgrows _ _ hblock'
  obtain ⟨compiledBlock, hcompiled, _, hcode⟩ := compiled_block h hlowered
  rw [← hadded, List.append_assoc] at hcode
  obtain ⟨before, behind, hsplit, hbefore, hbehind⟩ := forall₂_append hcode
  obtain ⟨first, second, rfl, hfirst, _⟩ := forall₂_append hbehind
  refine ⟨first, hfirst, ?_⟩
  rw [rest, rest, currentCode_of_getElem? hblock, currentCode_of_getElem? hblock', ← hsame,
    hcompiled, Option.map_some, Option.getD_some, hsplit, hbefore.length_eq, List.drop_left,
    List.length_append, hbefore.length_eq, hfirst.length_eq, ← List.length_append,
    ← List.append_assoc, List.drop_left]

variable {ν : Type} [F64 ν] {call : Call ν}

theorem executeFrame_enters (h : FunctionCode m last.finish compiled final)
    (hcurrent : s.currentBlock < s.blocks.length) (hempty : currentCode s = [])
    (hgrows : CodeGrows s last) (turns : ℕ) (frame : Frame ν) :
    executeFrame m call compiled (turns + 1) (.ofNat s.currentBlock) frame =
      proceed m call compiled turns (rest compiled s) frame := by
  obtain ⟨lowered, hlowered, _⟩ := hgrows _ _ (List.getElem?_eq_getElem hcurrent)
  obtain ⟨compiledBlock, hcompiled, hfound, _⟩ := compiled_block h hlowered
  rw [executeFrame_proceeds hfound, rest, hempty, hcompiled]
  rfl

end

section

variable {params : List String} {phase phase' : Phase}

mutual

theorem checkStatement_branched : ∀ (statement : Statement) {phase : Phase},
    checkStatement params statement .branched = some phase → phase = .branched
  | .variable _ _, _, h => by cases h
  | .return value _, _, h => by
    cases value with
    | none => exact (Option.some.inj h).symm
    | some expression => cases h
  | .expression value _, _, h | .throw value _, _, h => by
    by_cases hleaf : leafExpression params value = true
    · exact (Option.some.inj ((if_pos hleaf).symm.trans h)).symm
    · cases (if_neg hleaf).symm.trans h
  | .if _ _ _ _, _, h => by cases h
  | .block body _, _, h => checkStatements_branched body h
  | .export inner _, _, h => checkStatement_branched inner h
  | .interface _ _, _, h | .typeAlias _ _, _, h | .class _ _, _, h | .function _ _, _, h
  | .import _ _, _, h | .empty _, _, h | .error _, _, h | .while _ _ _, _, h
  | .for _ _ _ _ _, _, h => (Option.some.inj h).symm

theorem checkStatements_branched : ∀ (statements : List Statement) {phase : Phase},
    checkStatements params statements .branched = some phase → phase = .branched
  | [], _, h => (Option.some.inj h).symm
  | statement :: statements, _, h => by
    obtain ⟨between, hfirst, hrest⟩ := Option.bind_eq_some_iff.mp h
    rw [checkStatement_branched statement hfirst] at hrest
    exact checkStatements_branched statements hrest

end

theorem checkAlternate_branched (alternate : Option Statement)
    (h : checkAlternate params alternate .branched = some phase) : phase = .branched := by
  cases alternate with
  | none => exact (Option.some.inj h).symm
  | some alternate => exact checkStatement_branched alternate h

theorem checkTest_branched {test : Expression} (h : checkTest test phase = some phase') :
    phase' = .branched := by
  cases phase with
  | straight known types ends =>
    obtain ⟨_, _, hphase⟩ := Option.bind_eq_some_iff.mp h
    exact (Option.some.inj hphase).symm
  | branched => cases h

end

/-- The turns that the `if` ahead may take. -/
def turnsAhead : Phase → ℕ
  | .straight _ _ _ => 2
  | .branched => 0

/-- A frame behind the code of `s`. -/
def Fits (final : LocalSlots) (params : List String) (s : FunctionLowerer) (env : Environment ν)
    (frame : Frame ν) : Phase → Prop
  | .straight known types _ => params ⊆ known ∧ s.locals = types ∧
      Corresponds final known env frame.locals ∧ frame.values.length = s.nextValue
  | .branched => Corresponds final params env frame.locals ∧ frame.values.length ≤ s.nextValue

/-- The function that is lowered up to `last`, and the code it is compiled to. -/
structure CodeOf (m : BytecodeModule) (last : FunctionLowerer) (compiled : BytecodeFunction)
    (final : LocalSlots) (params : List String) : Prop where
  code : FunctionCode m last.finish compiled final
  slots : SlotsFor params 0 final
  size : last.nextValue ≤ 2 ^ 32

section

variable [F64 ν] (m : BytecodeModule) (call : Call ν) (compiled : BytecodeFunction)
  (final : LocalSlots) (params : List String)

/-- `run` is what is left to do where a statement ends so. -/
def Leaves (run : Except Stop (RuntimeValue ν) × Machine ν) (k : ℕ) (phase : Phase)
    (s : FunctionLowerer) : Outcome ν → Machine ν → Prop
  | .continue env, t => ∃ frame, Fits final params s env frame phase ∧
      run = proceed m call compiled (turnsAhead phase + k) (rest compiled s) frame t
  | .return value, t => run = (.ok value, t)

/-- The code from `s` to `s'` does what `d` does. -/
def Performs (phase phase' : Phase) (s s' : FunctionLowerer)
    (d : Environment ν → Run ν (Outcome ν)) : Prop :=
  ∀ env frame k t, Fits final params s env frame phase →
    FailState.wp (d env) t
      (Leaves m call compiled final params
        (proceed m call compiled (turnsAhead phase + k) (rest compiled s) frame t) k phase' s')
      (fun e u =>
        proceed m call compiled (turnsAhead phase + k) (rest compiled s) frame t = (.error e, u))

variable {m call compiled final params} {phase phase' phase'' : Phase}
  {last s s' s'' : FunctionLowerer} {d d' : Environment ν → Run ν (Outcome ν)}

theorem Performs.skip : Performs m call compiled final params phase phase s s
    fun env => pure (.continue env) :=
  fun _ frame _ _ hfits => ⟨frame, hfits, rfl⟩

theorem Performs.seq (h : Performs m call compiled final params phase phase' s s' d)
    (h' : Performs m call compiled final params phase' phase'' s' s'' d') :
    Performs m call compiled final params phase phase'' s s'' fun env => (do
      match ← d env with
      | .continue env => d' env
      | .return value => pure (.return value)) := by
  intro env frame k t hfits
  rw [FailState.wp_bind]
  refine FailState.wp_mono (h env frame k t hfits) ?_ fun e u hrun => hrun
  intro outcome u hleaves
  cases outcome with
  | «continue» env =>
    obtain ⟨after, hafter, hrun⟩ := hleaves
    rw [hrun]
    exact h' env after k u hafter
  | «return» value => exact hleaves

variable (call) in
theorem expression_leads (h : CodeOf m last compiled final params) (expression : Expression)
    {n : ℕ} {lowered : StatementCode} {tail : List IrInstruction} {known known' : List String}
    (hcode : lowered.code = (expressionCode s.locals expression s.nextValue).code ++ tail)
    (hsame : ∀ code, List.Forall₂ (Allotted m final)
      (expressionCode s.locals expression s.nextValue).code code →
        List.Forall₂ (Allotted m final) (expressionCode s.locals expression n).code code)
    (hnext : (expressionCode s.locals expression n).next ≤ lowered.next)
    (hcurrent : s.currentBlock < s.blocks.length)
    (hbefore : Before last (appendStatement lowered s))
    (hcheck : checkExpression s.locals expression known = some known') {env : Environment ν}
    {frame : Frame ν} (hcorresponds : Corresponds final known env frame.locals)
    (hvalues : frame.values.length = n) (turns : ℕ) (t : Machine ν) :
    ∃ behind, List.Forall₂ (Allotted m final) tail behind ∧
      FailState.wp (evaluate call expression env) t
        (fun r u => ∃ after : Frame ν, Corresponds final known' r.2 after.locals ∧
          after.values.length = (expressionCode s.locals expression n).next ∧
          Holds after.values (expressionCode s.locals expression n).value r.1 ∧
          proceed m call compiled turns (rest compiled s) frame t =
            proceed m call compiled turns (behind ++ rest compiled (appendStatement lowered s))
              after u)
        (fun e u => proceed m call compiled turns (rest compiled s) frame t = (.error e, u)) := by
  have hblocks : (appendStatement lowered s).blocks = s.blocks.modify s.currentBlock fun block =>
      { block with instructions := block.instructions ++ lowered.code } := rfl
  obtain ⟨first, hfirst, hrest⟩ := rest_append h.code hcurrent hblocks rfl hbefore.code
  rw [hcode] at hfirst
  obtain ⟨code, behind, rfl, hexpression, htail⟩ := forall₂_append hfirst
  refine ⟨behind, htail, ?_⟩
  rw [hrest, List.append_assoc]
  exact evaluate_proceeds h.slots expression (hsame code hexpression)
    (Nat.le_trans hnext (Nat.le_trans hbefore.next h.size)) hcheck hcorresponds hvalues turns _ t

omit [F64 ν] in
theorem allotted_renumber {kind : IrInstructionKind} {ty : IrType} {span : Span} {n : ℕ} (k : ℕ)
    {code : List Instruction}
    (h : List.Forall₂ (Allotted m final) (Lowered.ofValue [] n kind ty span).code code) :
    List.Forall₂ (Allotted m final) (Lowered.ofValue [] k kind ty span).code code := by
  obtain ⟨instruction, none, hinstruction, hnone, rfl⟩ := List.forall₂_cons_left_iff.mp h
  exact .cons ⟨hinstruction.refers, hinstruction.typeTag⟩ hnone

theorem expression_performs (h : CodeOf m last compiled final params) (value : Expression)
    (hcurrent : s.currentBlock < s.blocks.length)
    (hbefore : Before last (lowerExpression value s).2)
    (hcheck : checkValue params value phase = some phase') :
    Performs m call compiled final params phase phase' s (lowerExpression value s).2
      fun env => (do
        let result ← evaluate call value env
        pure (.continue result.2)) := by
  rw [lowerExpression_appendStatement] at hbefore ⊢
  intro env frame k t hfits
  rw [FailState.wp_bind]
  cases phase with
  | straight known types ends =>
    obtain ⟨hparams, rfl, hcorresponds, hvalues⟩ := hfits
    obtain ⟨known', hknown, hphase⟩ := Option.bind_eq_some_iff.mp hcheck
    cases hphase
    obtain ⟨behind, htail, hrun⟩ := expression_leads call h value
      (List.append_nil _).symm (fun _ hcode => hcode) (Nat.le_refl _) hcurrent hbefore hknown
      hcorresponds hvalues (turnsAhead (.straight known s.locals ends) + k) t
    obtain rfl := List.forall₂_nil_left_iff.mp htail
    refine FailState.wp_mono hrun ?_ fun e u hrun => hrun
    rintro ⟨value, env'⟩ u ⟨after, hafter, hlength, _, hproceed⟩
    exact ⟨after, ⟨List.Subset.trans hparams (checkExpression_subset hknown), rfl, hafter, hlength⟩,
      hproceed⟩
  | branched =>
    obtain ⟨hcorresponds, hvalues⟩ := hfits
    by_cases hleaf : leafExpression params value = true
    · have hphase : some Phase.branched = some phase' := (if_pos hleaf).symm.trans hcheck
      cases hphase
      obtain ⟨kind, ty, span, hcode⟩ := leafCode_eq s.locals value hleaf
      have hnext : (expressionStatementCode s.locals value s.nextValue).next = s.nextValue + 1 := by
        rw [expressionStatementCode, hcode]
        rfl
      have hafter : (expressionCode s.locals value frame.values.length).next =
          frame.values.length + 1 := by
        rw [hcode]
        rfl
      obtain ⟨behind, htail, hrun⟩ := expression_leads (n := frame.values.length) call h
        value (List.append_nil _).symm
        (fun code hallotted => by
          rw [hcode] at hallotted ⊢
          exact allotted_renumber _ hallotted)
        (by omega) hcurrent hbefore (leafExpression_check s.locals value hleaf) hcorresponds rfl
        (turnsAhead .branched + k) t
      obtain rfl := List.forall₂_nil_left_iff.mp htail
      refine FailState.wp_mono hrun ?_ fun e u hrun => hrun
      rintro ⟨value, env'⟩ u ⟨after, hlocals, hlength, _, hproceed⟩
      refine ⟨after, ⟨hlocals, ?_⟩, hproceed⟩
      change after.values.length ≤ (expressionStatementCode s.locals _ s.nextValue).next
      omega
    · have hnone : none = some phase' := (if_neg hleaf).symm.trans hcheck
      cases hnone

theorem return_performs (h : CodeOf m last compiled final params)
    (value : Option Expression) (span : Span) (hcurrent : s.currentBlock < s.blocks.length)
    (hbefore : Before last (lowerReturn value span s))
    (hcheck : checkReturn value phase = some phase') :
    Performs m call compiled final params phase phase' s (lowerReturn value span s)
      (evaluateReturn call value) := by
  rw [lowerReturn_eq] at hbefore ⊢
  intro env frame k t hfits
  cases value with
  | none =>
    have hblocks : (appendStatement (returnCode s.locals none span s.nextValue) s).blocks =
        s.blocks.modify s.currentBlock fun block => { block with
          instructions := block.instructions ++ [⟨.return none, none, .undefined, span⟩] } := rfl
    obtain ⟨first, hfirst, hrest⟩ := rest_append h.code hcurrent hblocks rfl hbefore.code
    obtain ⟨instruction, none, hinstruction, hnone, rfl⟩ := List.forall₂_cons_left_iff.mp hfirst
    rw [hrest, List.cons_append, proceed_return (run_returnVoid hinstruction rfl frame)]
    rfl
  | some expression =>
    cases phase with
    | straight known types ends =>
      obtain ⟨hparams, rfl, hcorresponds, hvalues⟩ := hfits
      obtain ⟨known', hknown, hphase⟩ := Option.bind_eq_some_iff.mp hcheck
      have hwell := expressionCode_wellNumbered s.locals expression s.nextValue
      have hvalue := hwell.value
      have hnext := Nat.le_trans hbefore.next h.size
      change (expressionCode s.locals expression s.nextValue).next ≤ _ at hnext
      obtain ⟨behind, htail, hrun⟩ := expression_leads (n := s.nextValue) call h expression rfl
        (fun _ hcode => hcode) (Nat.le_refl _) hcurrent hbefore hknown hcorresponds hvalues
        (turnsAhead (.straight known s.locals ends) + k) t
      obtain ⟨instruction, none, hinstruction, hnone, rfl⟩ := List.forall₂_cons_left_iff.mp htail
      rw [evaluateReturn, FailState.wp_bind]
      refine FailState.wp_mono hrun ?_ fun e u hrun => hrun
      rintro ⟨result, env'⟩ u ⟨⟨locals, values⟩, _, _, hfound, hproceed⟩
      rw [List.cons_append,
        proceed_return (run_return hinstruction rfl hfound (by omega))] at hproceed
      exact hproceed
    | branched => cases hcheck

def initialValue (declaration : VariableDeclaration) (span : Span) : Expression :=
  declaration.initializer.getD (.undefined span)

def localType (types : List (String × IrType)) (declaration : VariableDeclaration) (span : Span) :
    IrType :=
  let declaredType := (declaration.ty.map typeFromNode).getD .unknown
  if declaredType.isUnknown then expressionType types (initialValue declaration span)
  else declaredType

omit [F64 ν] in
theorem variableCode_eq (types : List (String × IrType)) (declaration : VariableDeclaration)
    (span : Span) (n : ℕ) :
    variableCode types declaration span n =
      ⟨(expressionCode types (initialValue declaration span) n).code ++
          [⟨.storeLocal declaration.name
              (expressionCode types (initialValue declaration span) n).value, none,
            localType types declaration span, span⟩],
        (expressionCode types (initialValue declaration span) n).next,
        (declaration.name, localType types declaration span) :: types⟩ := by
  obtain ⟨kind, name, ty, initializer⟩ := declaration
  cases initializer with
  | some expression =>
    simp only [variableCode, localType, initialValue, Option.getD_some, expressionCode_type]
  | none => rfl

omit [F64 ν] in
theorem checkVariable_eq (declaration : VariableDeclaration) (span : Span) (known : List String)
    (types : List (String × IrType)) (ends : Bool) :
    checkVariable declaration (.straight known types ends) =
      (checkExpression types (initialValue declaration span) known).map fun known =>
        .straight (declaration.name :: known)
          ((declaration.name, localType types declaration span) :: types) ends := by
  obtain ⟨kind, name, ty, initializer⟩ := declaration
  cases initializer with
  | some expression =>
    simp only [checkVariable, localType, initialValue, Option.getD_some]
    cases checkExpression types expression known <;> rfl
  | none => rfl

theorem evaluateVariable_eq (declaration : VariableDeclaration) (span : Span)
    (env : Environment ν) :
    evaluateVariable call declaration env = (do
      let result ← evaluate call (initialValue declaration span) env
      pure (.continue ((declaration.name, result.1) :: result.2))) := by
  obtain ⟨kind, name, ty, initializer⟩ := declaration
  cases initializer <;> rfl

theorem variable_performs (h : CodeOf m last compiled final params)
    (declaration : VariableDeclaration) (span : Span) (hcurrent : s.currentBlock < s.blocks.length)
    (hbefore : Before last (lowerVariable declaration span s))
    (hcheck : checkVariable declaration phase = some phase') :
    Performs m call compiled final params phase phase' s (lowerVariable declaration span s)
      (evaluateVariable call declaration) := by
  rw [lowerVariable_eq] at hbefore ⊢
  intro env frame k t hfits
  cases phase with
  | straight known types ends =>
    obtain ⟨hparams, rfl, hcorresponds, hvalues⟩ := hfits
    rw [checkVariable_eq declaration span] at hcheck
    obtain ⟨known', hknown, rfl⟩ := Option.map_eq_some_iff.mp hcheck
    rw [variableCode_eq] at hbefore ⊢
    have hwell := expressionCode_wellNumbered s.locals (initialValue declaration span) s.nextValue
    have hvalue := hwell.value
    have hnext := Nat.le_trans hbefore.next h.size
    have hid : (expressionCode s.locals (initialValue declaration span) s.nextValue).value <
        2 ^ 32 := by
      change (expressionCode s.locals (initialValue declaration span) s.nextValue).next ≤ _ at hnext
      omega
    obtain ⟨behind, htail, hrun⟩ := expression_leads (n := s.nextValue) call h
      (initialValue declaration span) rfl (fun _ hcode => hcode) (Nat.le_refl _) hcurrent hbefore
      hknown hcorresponds hvalues (turnsAhead (.straight known s.locals ends) + k) t
    obtain ⟨instruction, none, hinstruction, hnone, rfl⟩ := List.forall₂_cons_left_iff.mp htail
    obtain rfl := List.forall₂_nil_left_iff.mp hnone
    rw [evaluateVariable_eq declaration span, FailState.wp_bind]
    refine FailState.wp_mono hrun ?_ fun e u hrun => hrun
    rintro ⟨result, env'⟩ u ⟨⟨locals, values⟩, hafter, hlength, hfound, hproceed⟩
    rw [List.cons_append, List.nil_append,
      proceed_continue (run_storeLocal hinstruction rfl hfound hid)] at hproceed
    have hslot : final.ids.lookup declaration.name ≠ none := by
      obtain ⟨slots, hkeeps, _⟩ := refers_of_kind hinstruction rfl
      rw [hkeeps declaration.name _ (localId_lookup declaration.name slots)]
      exact fun h => nomatch h
    have hsubset := List.Subset.trans hparams (checkExpression_subset hknown)
    exact ⟨⟨storeSlot locals (slotOf final declaration.name) result, values⟩,
      ⟨List.subset_cons_of_subset declaration.name hsubset, rfl,
        hafter.store h.slots hslot result, hlength⟩, hproceed⟩
  | branched => cases hcheck

omit [F64 ν] in
theorem openArms_code (hcurrent : s.currentBlock < s.blocks.length) (test : Expression) :
    currentCode (openArms test s) = [] := by
  have hblock : (openArms test s).blocks[s.blocks.length]? = some ⟨s.blocks.length, []⟩ := by
    rw [openArms_blocks test hcurrent, List.getElem?_append_right (by rw [List.length_modify]),
      List.length_modify, Nat.sub_self]
    rfl
  exact currentCode_of_getElem? hblock

omit [F64 ν] in
theorem closeArm_code {offset : ℕ → Option ℕ} (h : LayoutOf offset s) {merge next : ℕ}
    (hnext : next < s.blocks.length) (hpending : offset next = none) (span : Span) :
    currentCode (closeArm merge next span s) = [] := by
  obtain ⟨block, hblock⟩ : ∃ block, s.blocks[next]? = some block :=
    ⟨_, List.getElem?_eq_getElem hnext⟩
  have hne : s.currentBlock ≠ next := by
    obtain ⟨_, c, _, hc, _⟩ := h.current
    rintro rfl
    rw [hpending] at hc
    cases hc
  have hsame : (closeArm merge next span s).blocks[next]? = some block := by
    change (s.blocks.modify s.currentBlock _)[next]? = some block
    rw [List.getElem?_modify_ne _ _ hne, hblock]
  exact (currentCode_of_getElem? hsame).trans (h.pending next block hblock hpending)

omit [F64 ν] in
theorem openArms_codeGrows_test (hcurrent : s.currentBlock < s.blocks.length) (test : Expression)
    (next : ℕ) : CodeGrows (appendStatement
        ⟨testCode s.locals test s.blocks.length s.nextValue, next, s.locals⟩ s)
      (openArms test s) := by
  intro i block hblock
  refine ⟨block, ?_, List.prefix_rfl⟩
  rw [openArms_blocks test hcurrent]
  exact (List.getElem?_append_left (List.getElem?_eq_some_iff.mp hblock).1).trans hblock

variable (call) in
theorem test_leads (h : CodeOf m last compiled final params) (test : Expression)
    {known known' : List String} (hcurrent : s.currentBlock < s.blocks.length)
    (hbefore : Before last (openArms test s))
    (hcheck : checkExpression s.locals test known = some known') {env : Environment ν}
    {frame : Frame ν} (hcorresponds : Corresponds final known env frame.locals)
    (hvalues : frame.values.length = s.nextValue) (turns : ℕ) (t : Machine ν) :
    FailState.wp (evaluate call test env) t
      (fun r u => ∃ after : Frame ν, Corresponds final known' r.2 after.locals ∧
        after.values.length = (openArms test s).nextValue ∧
        proceed m call compiled turns (rest compiled s) frame t =
          executeFrame m call compiled turns
            (.ofNat (if truthy r.1 then s.blocks.length else s.blocks.length + 1)) after u)
      (fun e u => proceed m call compiled turns (rest compiled s) frame t = (.error e, u)) := by
  have hopen : (openArms test s).nextValue = (expressionCode s.locals test s.nextValue).next := by
    simp only [openArms, lowerExpression_eq]
    rfl
  have hwell := expressionCode_wellNumbered s.locals test s.nextValue
  have hvalue := hwell.value
  have hnext := Nat.le_trans hbefore.next h.size
  let lowered : StatementCode := ⟨testCode s.locals test s.blocks.length s.nextValue,
    (expressionCode s.locals test s.nextValue).next, s.locals⟩
  have hlength : (appendStatement lowered s).blocks.length = s.blocks.length :=
    List.length_modify _ _ _
  have htest : Before last (appendStatement lowered s) :=
    ⟨Nat.lt_of_lt_of_eq hcurrent hlength.symm,
      (openArms_codeGrows_test hcurrent test lowered.next).trans hbefore.code,
      hopen.symm.trans_le hbefore.next⟩
  obtain ⟨behind, htail, hrun⟩ := expression_leads (n := s.nextValue) call h test rfl
    (fun _ hcode => hcode) (Nat.le_refl _) hcurrent htest hcheck hcorresponds hvalues turns t
  obtain ⟨instruction, none, hinstruction, hnone, rfl⟩ := List.forall₂_cons_left_iff.mp htail
  refine FailState.wp_mono hrun ?_ fun e u hrun => hrun
  rintro ⟨condition, env'⟩ u ⟨⟨locals, values⟩, hafter, hlength, hfound, hproceed⟩
  rw [List.cons_append,
    proceed_jump (run_branch hinstruction rfl hfound (by omega))] at hproceed
  exact ⟨_, hafter, hlength.trans hopen.symm, hproceed⟩

theorem arm_leads (h : FunctionCode m last.finish compiled final) {merge next : ℕ} {span : Span}
    (hcurrent : s.currentBlock < s.blocks.length)
    (hgrows : CodeGrows (closeArm merge next span s) last) (turns : ℕ) (frame : Frame ν) :
    proceed m call compiled turns (rest compiled s) frame =
      executeFrame m call compiled turns (.ofNat merge) frame := by
  have hblocks : (s.emit (.jump merge) none .undefined span).blocks =
      s.blocks.modify s.currentBlock fun block => { block with
        instructions := block.instructions ++ [⟨.jump merge, none, .undefined, span⟩] } := rfl
  obtain ⟨first, hfirst, hrest⟩ := rest_append h hcurrent hblocks rfl hgrows
  obtain ⟨instruction, none, hinstruction, hnone, rfl⟩ := List.forall₂_cons_left_iff.mp hfirst
  rw [hrest, List.cons_append, proceed_jump (run_jump hinstruction rfl frame)]

theorem arm_performs {merged : FunctionLowerer} (h : FunctionCode m last.finish compiled final)
    (hperforms : Performs m call compiled final params .branched .branched s s' d)
    (hempty : currentCode s = []) (hbefore : Before last s)
    (hcurrent : s'.currentBlock < s'.blocks.length) {next : ℕ} {span : Span}
    (hgrows : CodeGrows (closeArm merged.currentBlock next span s') last)
    (hmergedEmpty : currentCode merged = []) (hmerged : Before last merged)
    (hnext : s'.nextValue ≤ merged.nextValue) (env : Environment ν) (frame : Frame ν) (k : ℕ)
    (t : Machine ν) (hfits : Fits final params s env frame .branched) :
    FailState.wp (d env) t
      (Leaves m call compiled final params
        (executeFrame m call compiled (k + 2) (.ofNat s.currentBlock) frame t) k .branched merged)
      (fun e u =>
        executeFrame m call compiled (k + 2) (.ofNat s.currentBlock) frame t = (.error e, u)) := by
  have harm := hperforms env frame (k + 1) t hfits
  have hturns : turnsAhead .branched + (k + 1) = k + 1 := Nat.zero_add _
  rw [hturns] at harm
  rw [executeFrame_enters h hbefore.current hempty hbefore.code (k + 1) frame]
  refine FailState.wp_mono harm ?_ fun e u hrun => hrun
  intro outcome u hleaves
  cases outcome with
  | «continue» env =>
    obtain ⟨after, ⟨hlocals, hvalues⟩, hrun⟩ := hleaves
    refine ⟨after, ⟨hlocals, Nat.le_trans hvalues hnext⟩, hrun.trans ?_⟩
    have hbehind : turnsAhead .branched + k = k := Nat.zero_add k
    rw [hturns, hbehind, arm_leads h hcurrent hgrows,
      executeFrame_enters h hmerged.current hmergedEmpty hmerged.code k after]
  | «return» value => exact hleaves

section Arms

variable {offset : ℕ → Option ℕ} (test : Expression) (consequent : Statement)
  (alternate : Option Statement) (span : Span)

def secondArm (s : FunctionLowerer) : FunctionLowerer :=
  closeArm (s.blocks.length + 2) (s.blocks.length + 1) span
    (lowerStatement consequent (openArms test s))

def behindArms (s : FunctionLowerer) : FunctionLowerer :=
  closeArm (s.blocks.length + 2) (s.blocks.length + 2) span
    (lowerAlternate alternate (secondArm test consequent span s))

omit [F64 ν] in
theorem secondArm_code (h : LayoutOf offset s) :
    currentCode (secondArm test consequent span s) = [] := by
  obtain ⟨o₂, hlayout, hgrown⟩ :=
    (lowerStatement_advances consequent (openArms_layout h test)).layout
  rw [openArms_length] at hgrown
  have hle := hgrown.le
  have hpending : o₂ (s.blocks.length + 1) = none := by
    rw [hgrown.old _ (by omega), Function.update_of_ne (by omega)]
    exact h.fresh _ (by omega)
  exact closeArm_code hlayout (by omega) hpending span

omit [F64 ν] in
theorem behindArms_code (h : LayoutOf offset s) :
    currentCode (behindArms test consequent alternate span s) = [] := by
  have hthen := lowerStatement_advances consequent (openArms_layout h test)
  obtain ⟨o₂, hfirst, hmerge, hclosed⟩ := hthen.closeConsequent h test span
  obtain ⟨o₃, hlayout, hgrown⟩ := (lowerAlternate_advances alternate hclosed).layout
  rw [closeArm_length] at hgrown
  have hle₂ := hfirst.le
  have hle₃ := hgrown.le
  have hpending : o₃ (s.blocks.length + 2) = none := by
    rw [hgrown.old _ (by omega), Function.update_of_ne (by omega)]
    exact hmerge
  exact closeArm_code hlayout (Nat.lt_of_lt_of_le (by omega) hle₃) hpending span

/-- An `if` in front of which there was none. -/
theorem if_performs (h : CodeOf m last compiled final params) (hlayout : LayoutOf offset s)
    (hbefore : Before last (behindArms test consequent alternate span s))
    (hcheck : checkTest test phase = some .branched)
    (hthen : Performs m call compiled final params .branched .branched (openArms test s)
      (lowerStatement consequent (openArms test s)) (evaluateStatement call consequent))
    (helse : Performs m call compiled final params .branched .branched
      (secondArm test consequent span s)
      (lowerAlternate alternate (secondArm test consequent span s))
      (evaluateAlternate call alternate)) :
    Performs m call compiled final params phase .branched s
      (behindArms test consequent alternate span s)
      (evaluateStatement call (.if test consequent alternate span)) := by
  cases phase with
  | branched => cases hcheck
  | straight known types ends =>
    have hopen := openArms_layout hlayout test
    have hthenAdvances := lowerStatement_advances consequent hopen
    obtain ⟨o₂, hfirst, _, hclosed⟩ := hthenAdvances.closeConsequent hlayout test span
    have helseAdvances := lowerAlternate_advances alternate hclosed
    obtain ⟨o₂', hthenLayout, _⟩ := hthenAdvances.layout
    obtain ⟨o₃, helseLayout, _⟩ := helseAdvances.layout
    have hcloseFirst := closeArm_codeGrows (s.blocks.length + 2) (s.blocks.length + 1) span
      (lowerStatement consequent (openArms test s))
    have hcloseSecond := closeArm_codeGrows (s.blocks.length + 2) (s.blocks.length + 2) span
      (lowerAlternate alternate (secondArm test consequent span s))
    -- The lowerer comes from each of these states to the next one.
    have hsecond : Before last (secondArm test consequent span s) :=
      ⟨hclosed.current_lt, helseAdvances.code.trans (hcloseSecond.trans hbefore.code),
        Nat.le_trans helseAdvances.next hbefore.next⟩
    have hopenBefore : Before last (openArms test s) :=
      ⟨hopen.current_lt, hthenAdvances.code.trans (hcloseFirst.trans hsecond.code),
        Nat.le_trans hthenAdvances.next hsecond.next⟩
    intro env frame k t hfits
    obtain ⟨hparams, rfl, hcorresponds, hvalues⟩ := hfits
    obtain ⟨known', hknown, _⟩ := Option.bind_eq_some_iff.mp hcheck
    have htest := test_leads call h test hlayout.current_lt hopenBefore hknown
      hcorresponds hvalues (turnsAhead (.straight known s.locals ends) + k) t
    have hturns : turnsAhead (.straight known s.locals ends) + k = k + 2 := Nat.add_comm 2 k
    rw [hturns] at htest ⊢
    rw [evaluateStatement, FailState.wp_bind]
    refine FailState.wp_mono htest ?_ fun e u hrun => hrun
    rintro ⟨condition, env'⟩ u ⟨after, hafter, hlength, hproceed⟩
    dsimp only at hproceed ⊢
    rw [hproceed]
    have hlocals := hafter.mono (List.Subset.trans hparams (checkExpression_subset hknown))
    have hgrowsFirst : CodeGrows (closeArm
        (behindArms test consequent alternate span s).currentBlock (s.blocks.length + 1) span
        (lowerStatement consequent (openArms test s))) last := hsecond.code
    have hgrowsSecond : CodeGrows (closeArm
        (behindArms test consequent alternate span s).currentBlock (s.blocks.length + 2) span
        (lowerAlternate alternate (secondArm test consequent span s))) last := hbefore.code
    by_cases hcondition : truthy condition = true
    · rw [if_pos hcondition, if_pos hcondition]
      exact arm_performs h.code hthen (openArms_code hlayout.current_lt test) hopenBefore
        hthenLayout.current_lt hgrowsFirst
        (behindArms_code test consequent alternate span hlayout) hbefore
        helseAdvances.next env' after k u ⟨hlocals, Nat.le_of_eq hlength⟩
    · rw [if_neg hcondition, if_neg hcondition]
      exact arm_performs h.code helse (secondArm_code test consequent span hlayout) hsecond
        helseLayout.current_lt hgrowsSecond
        (behindArms_code test consequent alternate span hlayout) hbefore (Nat.le_refl _) env'
        after k u ⟨hlocals, (Nat.le_of_eq hlength).trans hthenAdvances.next⟩

end Arms

mutual

/-- The code of a statement does what the statement means, if the check accepts it. -/
theorem lowerStatement_performs (h : CodeOf m last compiled final params)
    (statement : Statement) {offset : ℕ → Option ℕ} {s : FunctionLowerer}
    {phase phase' : Phase} (hlayout : LayoutOf offset s)
    (hbefore : Before last (lowerStatement statement s))
    (hcheck : checkStatement params statement phase = some phase') :
    Performs m call compiled final params phase phase' s (lowerStatement statement s)
      (evaluateStatement call statement) := by
  cases statement with
  | «variable» declaration span =>
    exact variable_performs h declaration span hlayout.current_lt hbefore hcheck
  | «return» value span =>
    exact return_performs h value span hlayout.current_lt hbefore hcheck
  | expression value span =>
    exact expression_performs h value hlayout.current_lt hbefore hcheck
  | throw value span =>
    exact expression_performs h value hlayout.current_lt hbefore hcheck
  | «if» test consequent alternate span =>
    rw [lowerStatement_if] at hbefore ⊢
    obtain ⟨phase₁, htest, hrest⟩ := Option.bind_eq_some_iff.mp hcheck
    obtain rfl := checkTest_branched htest
    obtain ⟨phase₂, hconsequent, halternate⟩ := Option.bind_eq_some_iff.mp hrest
    obtain rfl := checkStatement_branched consequent hconsequent
    obtain rfl := checkAlternate_branched alternate halternate
    have hopen := openArms_layout hlayout test
    have hthenAdvances := lowerStatement_advances consequent hopen
    obtain ⟨o₂, _, _, hclosed⟩ := hthenAdvances.closeConsequent hlayout test span
    have helseAdvances := lowerAlternate_advances alternate hclosed
    obtain ⟨o₃, helseLayout, _⟩ := helseAdvances.layout
    have helseBefore : Before last (lowerAlternate alternate (secondArm test consequent span s)) :=
      ⟨helseLayout.current_lt, (closeArm_codeGrows _ _ span _).trans hbefore.code, hbefore.next⟩
    have hsecond := helseBefore.advances hclosed helseAdvances
    have hthenBefore : Before last (lowerStatement consequent (openArms test s)) :=
      ⟨hthenAdvances.layout.choose_spec.1.current_lt,
        (closeArm_codeGrows _ _ span _).trans hsecond.code, hsecond.next⟩
    exact if_performs test consequent alternate span h hlayout hbefore htest
      (lowerStatement_performs h consequent hopen hthenBefore hconsequent)
      (lowerAlternate_performs h alternate hclosed helseBefore halternate)
  | block body span => exact lowerStatements_performs h body hlayout hbefore hcheck
  | «export» inner span => exact lowerStatement_performs h inner hlayout hbefore hcheck
  | interface | typeAlias | «class» | function | «import» | empty | error | «while» | «for» =>
    cases hcheck
    exact .skip

theorem lowerAlternate_performs (h : CodeOf m last compiled final params)
    (alternate : Option Statement) {offset : ℕ → Option ℕ} {s : FunctionLowerer}
    {phase phase' : Phase} (hlayout : LayoutOf offset s)
    (hbefore : Before last (lowerAlternate alternate s))
    (hcheck : checkAlternate params alternate phase = some phase') :
    Performs m call compiled final params phase phase' s (lowerAlternate alternate s)
      (evaluateAlternate call alternate) := by
  match alternate with
  | some alternate => exact lowerStatement_performs h alternate hlayout hbefore hcheck
  | none =>
    cases hcheck
    exact .skip

theorem lowerStatements_performs (h : CodeOf m last compiled final params)
    (statements : List Statement) {offset : ℕ → Option ℕ} {s : FunctionLowerer}
    {phase phase' : Phase} (hlayout : LayoutOf offset s)
    (hbefore : Before last (lowerStatements statements s))
    (hcheck : checkStatements params statements phase = some phase') :
    Performs m call compiled final params phase phase' s (lowerStatements statements s)
      (evaluateStatements call statements) := by
  match statements with
  | [] =>
    cases hcheck
    exact .skip
  | statement :: statements =>
    obtain ⟨between, hfirst, hrest⟩ := Option.bind_eq_some_iff.mp hcheck
    obtain ⟨o₁, hnext, _⟩ := (lowerStatement_advances statement hlayout).layout
    have hbetween := hbefore.advances hnext (lowerStatements_advances statements hnext)
    exact (lowerStatement_performs h statement hlayout hbetween hfirst).seq
      (lowerStatements_performs h statements hnext hbefore hrest)

end

end

end Tsvm.StatementRuns
