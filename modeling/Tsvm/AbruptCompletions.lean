import Tsvm.ActivationPoints
import Tsvm.BlockVisits
import Tsvm.OperatorMeaning
import Tsvm.VariableReads

set_option autoImplicit false

/-!
# Returns and throws

The last instruction of a `return` ends the activation, wherever the lowerer has put
it. A `throw` is lowered to its expression only, and the activation goes on behind it.
-/
namespace Tsvm.AbruptCompletions
open Ast Bytecode BytecodeVerifier Interop Ir Lowering Compilation RuntimeValues Interpreter
  InterpreterSteps Relation
open Parsing Pipeline Semantic LoweringCode LoweringBlocks CompiledCode CompiledValues
  TopLevelFunctions BlockVisits ActivationPoints VariableReads OperatorMeaning

inductive AbruptKind where
  | «return»
  | throw
  deriving DecidableEq

structure Ending where
  kind : AbruptKind
  block : ℕ
  index : ℕ
  deriving DecidableEq

def currentCode (s : FunctionLowerer) : List IrInstruction :=
  ((s.blocks[s.currentBlock]?).map IrBlock.instructions).getD []

def endsHere (kind : AbruptKind) (s : FunctionLowerer) : Ending :=
  ⟨kind, s.currentBlock, (currentCode s).length - 1⟩

mutual

/-- The returns and throws of a statement, each where the lowerer puts its code. -/
def endings : Statement → FunctionLowerer → List Ending
  | .return value span, s => [endsHere .return (lowerReturn value span s)]
  | .throw value _, s => [endsHere .throw (lowerExpression value s).2]
  | .if test consequent alternate span, s =>
    let merge := s.blocks.length + 2
    let next := s.blocks.length + 1
    endings consequent (openArms test s) ++ alternateEndings alternate
      (closeArm merge next span (lowerStatement consequent (openArms test s)))
  | .block body _, s => bodyEndings body s
  | .export inner _, s => endings inner s
  | .variable _ _, _ | .expression _ _, _ | .interface _ _, _ | .typeAlias _ _, _ | .class _ _, _
  | .function _ _, _ | .import _ _, _ | .empty _, _ | .error _, _ | .while _ _ _, _
  | .for _ _ _ _ _, _ => []

def alternateEndings : Option Statement → FunctionLowerer → List Ending
  | some alternate, s => endings alternate s
  | none, _ => []

def bodyEndings : List Statement → FunctionLowerer → List Ending
  | [], _ => []
  | statement :: statements, s =>
    endings statement s ++ bodyEndings statements (lowerStatement statement s)

end

def functionEndings (function : FunctionDeclaration) (span : Span) : List Ending :=
  bodyEndings function.body (.new function.name
    (function.params.map fun param => ⟨param.name, (param.ty.map typeFromNode).getD .unknown⟩)
    ((function.returnType.map typeFromNode).getD .undefined) span)

def entryEndings (program : Program) : List Ending :=
  bodyEndings (program.body.filter isEntryStatement)
    (.new "__entry" [] .undefined (program.span.getD emptySpan))

def programEndings (program : Program) : List (List Ending) :=
  ((program.body.filterMap plainFunction).map fun binding =>
    functionEndings binding.declaration binding.statementSpan) ++ [entryEndings program]

/-- Behind the expression of a `throw` there is nothing that leaves the block. -/
def Ends : AbruptKind → IrInstructionKind → Prop
  | .return, kind => ∃ value, kind = .return value
  | .throw, kind => terminates kind = false

def Stands (blocks : List IrBlock) (ending : Ending) : Prop :=
  ∃ (block : IrBlock) (instruction : IrInstruction), blocks[ending.block]? = some block ∧
    block.instructions[ending.index]? = some instruction ∧ Ends ending.kind instruction.kind

theorem Stands.grows {s s' : FunctionLowerer} {ending : Ending} (h : Stands s.blocks ending)
    (hgrows : CodeGrows s s') : Stands s'.blocks ending := by
  obtain ⟨block, instruction, hblock, hinstruction, hends⟩ := h
  obtain ⟨block', hblock', hprefix⟩ := hgrows _ block hblock
  obtain ⟨added, hadded⟩ := hprefix
  refine ⟨block', instruction, hblock', ?_, hends⟩
  rw [← hadded]
  exact (List.getElem?_append_left (List.getElem?_eq_some_iff.mp hinstruction).1).trans hinstruction

structure Reached (s s' : FunctionLowerer) (found : List Ending) : Prop where
  current : s'.currentBlock < s'.blocks.length
  length : s.blocks.length ≤ s'.blocks.length
  grows : CodeGrows s s'
  stands : ∀ ending ∈ found, Stands s'.blocks ending

namespace Reached

variable {s s' s'' : FunctionLowerer} {found found' : List Ending}

theorem refl (h : s.currentBlock < s.blocks.length) : Reached s s [] :=
  ⟨h, Nat.le_refl _, .refl s, fun _ hmem => absurd hmem List.not_mem_nil⟩

theorem trans (h : Reached s s' found) (h' : Reached s' s'' found') :
    Reached s s'' (found ++ found') where
  current := h'.current
  length := Nat.le_trans h.length h'.length
  grows := h.grows.trans h'.grows
  stands := by
    intro ending hmem
    rcases List.mem_append.mp hmem with hmem | hmem
    · exact (h.stands ending hmem).grows h'.grows
    · exact h'.stands ending hmem

theorem code (h : s.currentBlock < s.blocks.length) (lowered : StatementCode) :
    Reached s (appendStatement lowered s) [] where
  current := Nat.lt_of_lt_of_eq h (List.length_modify _ _ _).symm
  length := Nat.le_of_eq (List.length_modify _ _ _).symm
  grows := .modify s lowered.code rfl
  stands := fun _ hmem => absurd hmem List.not_mem_nil

theorem openArms (h : s.currentBlock < s.blocks.length) (test : Expression) :
    Reached s (openArms test s) [] where
  current := by
    rw [openArms_length]
    exact Nat.lt_add_of_pos_right (by omega)
  length := by
    rw [openArms_length]
    omega
  grows := openArms_codeGrows h test
  stands := fun _ hmem => absurd hmem List.not_mem_nil

theorem closeArm (merge next : BlockId) (h : next < s.blocks.length) (span : Span) :
    Reached s (closeArm merge next span s) [] where
  current := Nat.lt_of_lt_of_eq h (closeArm_length merge next span s).symm
  length := Nat.le_of_eq (closeArm_length merge next span s).symm
  grows := closeArm_codeGrows merge next span s
  stands := fun _ hmem => absurd hmem List.not_mem_nil

theorem ends (h : s.currentBlock < s.blocks.length) {lowered : StatementCode}
    {before : List IrInstruction} {instruction : IrInstruction} (kind : AbruptKind)
    (hcode : lowered.code = before ++ [instruction]) (hends : Ends kind instruction.kind) :
    Reached s (appendStatement lowered s) [endsHere kind (appendStatement lowered s)] where
  current := (code h lowered).current
  length := (code h lowered).length
  grows := (code h lowered).grows
  stands := by
    intro ending hmem
    obtain rfl := List.mem_singleton.mp hmem
    have hblock : (appendStatement lowered s).blocks[s.currentBlock]? = some
        { s.blocks[s.currentBlock] with
          instructions := s.blocks[s.currentBlock].instructions ++ lowered.code } := by
      change (s.blocks.modify _ _)[s.currentBlock]? = _
      rw [List.getElem?_modify, List.getElem?_eq_getElem h, Option.map_eq_map, Option.map_some]
      exact congrArg some (if_pos rfl)
    refine ⟨_, instruction, hblock, ?_, hends⟩
    change (_ ++ lowered.code)[(currentCode (appendStatement lowered s)).length - 1]? = _
    have hlength : (currentCode (appendStatement lowered s)).length =
        (s.blocks[s.currentBlock].instructions ++ lowered.code).length := by
      change (((appendStatement lowered s).blocks[s.currentBlock]?.map _).getD []).length = _
      rw [hblock]
      rfl
    rw [hlength, hcode, ← List.append_assoc, List.length_append, List.length_singleton,
      Nat.add_sub_cancel, List.getElem?_concat_length]

end Reached

theorem returnCode_ends (types : List (String × IrType)) (value : Option Expression) (span : Span)
    (n : ℕ) : ∃ before instruction, (returnCode types value span n).code = before ++ [instruction] ∧
      Ends .return instruction.kind := by
  cases value with
  | some expression => exact ⟨_, _, rfl, _, rfl⟩
  | none => exact ⟨[], _, rfl, _, rfl⟩

theorem expressionCode_ends (types : List (String × IrType)) (expression : Expression) (n : ℕ) :
    ∃ before instruction, (expressionCode types expression n).code = before ++ [instruction] ∧
      Ends .throw instruction.kind := by
  have hcode := expressionCode_wellNumbered types expression n
  have hne : (expressionCode types expression n).code ≠ [] := by
    intro hempty
    have hnext := hcode.next
    have hvalue := hcode.value
    have hfirst := hcode.first
    rw [hempty, results_nil] at hnext
    omega
  exact ⟨_, _, (List.dropLast_append_getLast hne).symm, hcode.plain _ (List.getLast_mem hne)⟩

mutual

theorem lowerStatement_reached : ∀ (statement : Statement) {s : FunctionLowerer},
    s.currentBlock < s.blocks.length →
      Reached s (lowerStatement statement s) (endings statement s)
  | .variable declaration span, s, h => by
    rw [lowerStatement, lowerVariable_eq, endings]
    exact .code h _
  | .return value span, s, h => by
    obtain ⟨before, instruction, hcode, hends⟩ := returnCode_ends s.locals value span s.nextValue
    rw [lowerStatement, endings, lowerReturn_eq]
    exact .ends h .return hcode hends
  | .throw value span, s, h => by
    obtain ⟨before, instruction, hcode, hends⟩ := expressionCode_ends s.locals value s.nextValue
    rw [lowerStatement, endings, lowerExpression_appendStatement]
    exact .ends h .throw hcode hends
  | .expression value span, s, h => by
    rw [lowerStatement, lowerExpression_appendStatement, endings]
    exact .code h _
  | .if test consequent alternate span, s, h => by
    have hopen := Reached.openArms h test
    have hthen := lowerStatement_reached consequent hopen.current
    have hlength := openArms_length test s
    have hthenLength := hthen.length
    have hinside : s.blocks.length + 1 <
        (lowerStatement consequent (openArms test s)).blocks.length := by omega
    have hclose := Reached.closeArm (s.blocks.length + 2) (s.blocks.length + 1) hinside span
    have helse := lowerAlternate_reached alternate hclose.current
    have hcloseLength := hclose.length
    have helseLength := helse.length
    have hmerge : s.blocks.length + 2 < (lowerAlternate alternate (closeArm (s.blocks.length + 2)
        (s.blocks.length + 1) span
        (lowerStatement consequent (openArms test s)))).blocks.length := by omega
    have hend := Reached.closeArm (s.blocks.length + 2) (s.blocks.length + 2) hmerge span
    have hall := (((hopen.trans hthen).trans hclose).trans helse).trans hend
    rw [lowerStatement_if, endings]
    simpa only [List.nil_append, List.append_nil] using hall
  | .block body _, _, h => by
    rw [lowerStatement, endings]
    exact lowerStatements_reached body h
  | .export inner _, _, h => by
    rw [lowerStatement, endings]
    exact lowerStatement_reached inner h
  | .interface _ _, _, h | .typeAlias _ _, _, h | .class _ _, _, h | .function _ _, _, h
  | .import _ _, _, h | .empty _, _, h | .error _, _, h | .while _ _ _, _, h
  | .for _ _ _ _ _, _, h => .refl h

theorem lowerAlternate_reached : ∀ (alternate : Option Statement) {s : FunctionLowerer},
    s.currentBlock < s.blocks.length →
      Reached s (lowerAlternate alternate s) (alternateEndings alternate s)
  | some alternate, _, h => lowerStatement_reached alternate h
  | none, _, h => .refl h

theorem lowerStatements_reached : ∀ (statements : List Statement) {s : FunctionLowerer},
    s.currentBlock < s.blocks.length →
      Reached s (lowerStatements statements s) (bodyEndings statements s)
  | [], _, h => .refl h
  | statement :: statements, _, h =>
    have hfirst := lowerStatement_reached statement h
    hfirst.trans (lowerStatements_reached statements hfirst.current)

end

theorem programEndings_stands (program : Program) :
    List.Forall₂ (fun function found => ∀ ending ∈ found, Stands function.blocks ending)
      (allFunctions (lowerProgram program)) (programEndings program) := by
  rw [allFunctions, lowerProgram_functions, programEndings]
  refine List.rel_append ?_ (.cons ?_ .nil)
  · rw [List.forall₂_map_left_iff, List.forall₂_map_right_iff, List.forall₂_same]
    intro binding _
    exact (lowerStatements_reached binding.declaration.body Nat.one_pos).stands
  · intro ending hmem
    have hpositive : (FunctionLowerer.new "__entry" [] .undefined
        (program.span.getD emptySpan)).currentBlock < _ := Nat.one_pos
    have hreached := lowerStatements_reached (program.body.filter isEntryStatement) hpositive
    exact (hreached.stands ending hmem).grows (.modify _ _ rfl)

section

variable {ν : Type} [F64 ν] (m : BytecodeModule) (host : HostEnvironment ν)

def Executed (p : Point ν) : Prop := ∃ flow frame machine, Executes m host p flow frame machine

omit [F64 ν] in
def EndOf (found : List Ending) (kind : AbruptKind) (p : Point ν) : Prop :=
  ∃ ending ∈ found, ending.kind = kind ∧ p.block.id.toNat = ending.block ∧ p.pc = ending.index

/-- Once an activation has executed a return or a throw it comes to no other point, and
    with a throw the call does not end with a value. -/
structure CompletesAbruptly (found : List Ending) (start : Point ν) : Prop where
  last : ∀ kind p q, Path m host start p → EndOf found kind p → Executed m host p →
    ¬ Flow m host p q
  thrown : ∀ p, Path m host start p → EndOf found .throw p → Executed m host p →
    ∀ fuel value, (resume m host fuel start start.machine).1 ≠ .ok value

/-- An activation comes to no other point once it has executed a return. Once it has executed
    a throw it goes on with the next instruction of the block. -/
structure OnlyReturnsEnd (found : List Ending) (start : Point ν) : Prop where
  returns : ∀ p q, Path m host start p → EndOf found .return p → Executed m host p →
    ¬ Flow m host p q
  throws : ∀ p, Path m host start p → EndOf found .throw p → Executed m host p →
    ∃ frame machine, Flow m host p (p.after frame machine)

end

variable {ν : Type} [F64 ν] {m : BytecodeModule} {host : HostEnvironment ν} {function : IrFunction}
  {c : Compiler} {p q start : Point ν}

omit [F64 ν] in
theorem placed_of_findBlock
    (hids : ∀ i (block : IrBlock), function.blocks[i]? = some block → block.id = i) {id : UInt32}
    (hblock : findBlock (compileFunction function c).1 id = .ok p.block)
    (hruns : p.function = (compileFunction function c).1) :
    Placed function (compileFunction function c).1 p := by
  have hid := (findBlock_eq_ok hblock).2
  have hget := (findBlock_eq_ok_iff (compiled_ids hids c)).mp hblock
  obtain ⟨block, hsource, _, hcode⟩ := forall₂_getElem? (compileFunction_forall₂ function c) hget
  refine ⟨hruns, ?_, ?_⟩
  · rw [hid]
    exact (List.getElem?_eq_some_iff.mp hsource).1
  · rw [irCode, hid, hsource]
    exact hcode

theorem placed_of_path
    (hids : ∀ i (block : IrBlock), function.blocks[i]? = some block → block.id = i)
    (hbegins : Begins (compileFunction function c).1 start) (hpath : Path m host start p) :
    Placed function (compileFunction function c).1 p := by
  induction hpath with
  | refl =>
    obtain ⟨block, args, machine, hblock, rfl⟩ := hbegins
    exact placed_of_findBlock hids hblock rfl
  | tail _ hflow ih =>
    cases hflow with
    | next hnext => exact ih.next hnext
    | jump hexec hblock =>
      rw [ih.runs] at hblock
      exact placed_of_findBlock hids hblock ih.runs

omit [F64 ν] in
theorem Placed.ends (h : Placed function (compileFunction function c).1 p) {found : List Ending}
    (hstands : ∀ ending ∈ found, Stands function.blocks ending) {kind : AbruptKind}
    (hend : EndOf found kind p) :
    ∃ instruction compiled, p.instruction = some compiled ∧ Compiles instruction compiled ∧
      Ends kind instruction.kind := by
  obtain ⟨ending, hmem, rfl, hblock, hpc⟩ := hend
  obtain ⟨block, instruction, hget, hinstruction, hends⟩ := hstands ending hmem
  have hcode : irCode function p = block.instructions := by
    rw [irCode, hblock, hget]
    rfl
  rw [← hpc, ← hcode] at hinstruction
  obtain ⟨compiled, hcompiled, hcompiles⟩ := forall₂_getElem? h.code.flip hinstruction
  exact ⟨instruction, compiled, hcompiled, hcompiles, hends⟩

theorem flow_executes (h : Flow m host p q) :
    ∃ flow frame machine, Executes m host p flow frame machine ∧
      ∀ value, flow ≠ .return value := by
  cases h with
  | next hnext =>
    obtain ⟨frame, machine, hexec, _⟩ := hnext
    exact ⟨_, frame, machine, hexec, fun value h => nomatch h⟩
  | jump hexec _ => exact ⟨_, _, _, hexec, fun value h => nomatch h⟩

theorem not_flow_of_return {instruction : IrInstruction} {compiled : Instruction}
    (hi : p.instruction = some compiled) (hcompiles : Compiles instruction compiled)
    (hends : Ends .return instruction.kind) : ¬ Flow m host p q := by
  have hop : compiled.opcode = .return := by
    obtain ⟨value, hkind⟩ := hends
    obtain ⟨s, slots, rfl⟩ := hcompiles
    obtain ⟨kind, result, ty, span⟩ := instruction
    cases hkind
    rfl
  intro hflow
  obtain ⟨flow, frame, machine, hexec, hnot⟩ := flow_executes hflow
  obtain ⟨instruction, hinstruction, heffect⟩ := hexec.effect
  rw [hi] at hinstruction
  cases hinstruction
  cases heffect with
  | push hpush => rw [hop] at hpush; cases hpush
  | storeLocal hstore => rw [hop] at hstore; cases hstore
  | storeMember hstore => rw [hop] at hstore; cases hstore
  | branch hbranch => rw [hop] at hbranch; cases hbranch
  | jump hjump => rw [hop] at hjump; cases hjump
  | «return» _ value => exact hnot value rfl

theorem flow_of_throw {instruction : IrInstruction} {compiled : Instruction}
    (hi : p.instruction = some compiled) (hcompiles : Compiles instruction compiled)
    (hends : Ends .throw instruction.kind) (hexecuted : Executed m host p) :
    ∃ frame machine, Flow m host p (p.after frame machine) := by
  have hop : compiled.opcode ≠ .branch ∧ compiled.opcode ≠ .jump ∧ compiled.opcode ≠ .return := by
    obtain ⟨s, slots, rfl⟩ := hcompiles
    obtain ⟨kind, result, ty, span⟩ := instruction
    cases kind with
    | loadConst constant =>
      cases constant <;> exact ⟨(fun h => nomatch h), (fun h => nomatch h), (fun h => nomatch h)⟩
    | branch _ _ _ => cases hends
    | jump _ => cases hends
    | «return» _ => cases hends
    | _ => exact ⟨(fun h => nomatch h), (fun h => nomatch h), (fun h => nomatch h)⟩
  obtain ⟨flow, frame, machine, hexec⟩ := hexecuted
  obtain ⟨instruction, hinstruction, heffect⟩ := hexec.effect
  rw [hi] at hinstruction
  cases hinstruction
  cases heffect with
  | branch hbranch => exact absurd hbranch hop.1
  | jump hjump => exact absurd hjump hop.2.1
  | «return» hreturn => exact absurd hreturn hop.2.2
  | push | storeLocal | storeMember => exact ⟨_, machine, .next ⟨_, machine, hexec, rfl⟩⟩

def FunctionEndings (program : Program) (found : List Ending) (compiled : BytecodeFunction) :
    Prop :=
  ∃ i : ℕ, (programEndings program)[i]? = some found ∧
    (compile (lowerProgram program)).functions[i]? = some compiled

/-- At every depth of blocks and ifs, returns end the activation and throws do not. -/
theorem compiled_onlyReturnsEnd (program : Program) {found : List Ending}
    {compiled : BytecodeFunction} (hfunction : FunctionEndings program found compiled)
    (hbegins : Begins compiled start) :
    OnlyReturnsEnd (compile (lowerProgram program)) host found start := by
  obtain ⟨i, hfound, hcompiled⟩ := hfunction
  obtain ⟨function, hi, hstands⟩ := forall₂_getElem? (programEndings_stands program) hfound
  obtain ⟨function', c, hi', rfl⟩ := compileFunctions_getElem? hcompiled
  rw [show (allFunctions (lowerProgram program))[i]? = some function' from hi'] at hi
  cases hi
  obtain ⟨offset, hnumbering⟩ := lowerProgram_numbering program (List.mem_of_getElem? hi')
  constructor
  · intro p q hpath hend _
    obtain ⟨instruction, compiled, hinstruction, hcompiles, hends⟩ :=
      Placed.ends (placed_of_path hnumbering.ids hbegins hpath) hstands hend
    exact not_flow_of_return hinstruction hcompiles hends
  · intro p hpath hend hexecuted
    obtain ⟨instruction, compiled, hinstruction, hcompiles, hends⟩ :=
      Placed.ends (placed_of_path hnumbering.ids hbegins hpath) hstands hend
    exact flow_of_throw hinstruction hcompiles hends hexecuted

def firstPoint (program : Program) (i : ℕ) (args : List (RuntimeValue ν)) :
    Option (List Ending × BytecodeFunction × Point ν) := do
  let found ← (programEndings program)[i]?
  let compiled ← (compile (lowerProgram program)).functions[i]?
  let block ← (findBlock compiled 0).toOption
  pure (found, compiled, entry compiled block args .new)

omit [F64 ν] in
theorem firstPoint_eq_some {program : Program} {i : ℕ} {args : List (RuntimeValue ν)}
    {found : List Ending} {compiled : BytecodeFunction}
    (h : firstPoint program i args = some (found, compiled, start)) :
    FunctionEndings program found compiled ∧ Begins compiled start := by
  obtain ⟨found', hfound, h₁⟩ := Option.bind_eq_some_iff.mp h
  obtain ⟨compiled', hcompiled, h₂⟩ := Option.bind_eq_some_iff.mp h₁
  obtain ⟨block, hblock, h₃⟩ := Option.bind_eq_some_iff.mp h₂
  cases h₃
  exact ⟨⟨i, hfound, hcompiled⟩, block, args, .new, toOption_eq_some.mp hblock, rfl⟩

/-- A function with a return and a throw in the arms of an `if`. -/
theorem positiveSource_onlyReturnsEnd :
    let source :=
      "function f(x: number): number { if (x > 0) { return x; } else { throw x; } return 1; }"
    let program := (parseSource source).program
    ∃ found compiled, ∃ start : Point Int, FunctionEndings program found compiled ∧
      Begins compiled start ∧ found = [⟨.return, 1, 1⟩, ⟨.throw, 2, 0⟩, ⟨.return, 3, 1⟩] ∧
      OnlyReturnsEnd (compile (lowerProgram program)) .new found start := by
  intro source program
  have hcomputed : ∃ result ∈ firstPoint program 0 ([.number 2] : List (RuntimeValue Int)),
      result.1 = [⟨.return, 1, 1⟩, ⟨.throw, 2, 0⟩, ⟨.return, 3, 1⟩] := by decide +kernel
  obtain ⟨⟨found, compiled, start⟩, hstart, hfound⟩ := hcomputed
  obtain ⟨hfunction, hbegins⟩ := firstPoint_eq_some hstart
  exact ⟨found, compiled, start, hfunction, hbegins, hfound,
    compiled_onlyReturnsEnd program hfunction hbegins⟩

/-- The throw is executed, and the function goes on and returns 2. -/
theorem throwSource_goes_on :
    let source := "function f(): number { throw 1; return 2; } console.log(f());"
    let program := (parseSource source).program
    (analyzeSource .listed source).diagnostics = [] ∧
      ∃ found compiled, ∃ start q : Point Int, FunctionEndings program found compiled ∧
        Begins compiled start ∧ EndOf found .throw start ∧
        Flow (compile (lowerProgram program)) .new start q ∧
        (resume (compile (lowerProgram program)) .new 5 start start.machine).1 = .ok (.number 2) ∧
        ¬ CompletesAbruptly (compile (lowerProgram program)) .new found start := by
  intro source program
  refine ⟨by decide +kernel, ?_⟩
  have hcomputed : ∃ result ∈ firstPoint program 0 ([] : List (RuntimeValue Int)),
      (⟨.throw, 0, 0⟩ : Ending) ∈ result.1 ∧ result.2.2.block.id.toNat = 0 ∧
      (advance (compile (lowerProgram program)) .new result.2.2).isSome = true ∧
      (resume (compile (lowerProgram program)) .new 5 result.2.2 result.2.2.machine).1.toOption =
        some (.number 2) := by decide +kernel
  obtain ⟨⟨found, compiled, start⟩, hstart, hmem, hblock, hadvance, hvalue⟩ := hcomputed
  obtain ⟨hfunction, hbegins⟩ := firstPoint_eq_some hstart
  obtain ⟨q, hq⟩ := Option.isSome_iff_exists.mp hadvance
  have hflow := advance_flow _ _ hq
  have hpc : start.pc = 0 := by
    obtain ⟨block, args, machine, _, hentry⟩ := hbegins
    rw [hentry]
    rfl
  have hend : EndOf found .throw start := ⟨_, hmem, rfl, hblock, hpc⟩
  obtain ⟨flow, frame, machine, hexec, _⟩ := flow_executes hflow
  refine ⟨found, compiled, start, q, hfunction, hbegins, hend, hflow,
    toOption_eq_some.mp hvalue, fun habrupt => ?_⟩
  exact habrupt.last .throw start q .refl hend ⟨flow, frame, machine, hexec⟩ hflow

end Tsvm.AbruptCompletions
