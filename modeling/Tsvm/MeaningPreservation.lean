import Tsvm.StatementRuns

set_option autoImplicit false

/-!
# An accepted source and its module

Each function of the module does what its declaration in the source means, however its
calls are answered. By recursion on the depth of the calls the whole run of the module is
an evaluation of the source, up to the budgets they need.
-/
namespace Tsvm.MeaningPreservation
open Ast Bytecode BytecodeVerifier Interop Ir Lowering Compilation RuntimeValues Interpreter
  InterpreterSteps
open Parsing Semantic Pipeline LoweringCode LoweringBlocks LoweredChecks CompiledOperands
  CompiledSlots FunctionSlots BytecodeVerifierFacts CompilerAcceptance ExpressionRuns SourceChecks
  TopLevelFunctions AbruptCompletions VariableReads SourceMeaning EnvironmentRuns StatementRuns
open FailState (Extends SameEnds)

variable {ν : Type}

theorem lookup_zip {α : Type} {names : List String} (hnodup : names.Nodup) {values : List α}
    {name : String} {i : ℕ} (h : names[i]? = some name) :
    (names.zip values).lookup name = values[i]? := by
  induction names generalizing values i with
  | nil => cases h
  | cons first names ih =>
    cases values with
    | nil => rfl
    | cons value values =>
      obtain ⟨hfirst, hrest⟩ := List.nodup_cons.mp hnodup
      rw [List.zip_cons_cons]
      cases i with
      | zero =>
        cases h
        exact List.lookup_cons_self
      | succ i =>
        have hne : name ≠ first := by
          rintro rfl
          exact hfirst (List.mem_of_getElem? h)
        rw [List.lookup_cons, beq_false_of_ne hne]
        exact ih hrest h

theorem corresponds_new {final : LocalSlots} {params : List IrParam}
    (hkeeps : Keeps (parameterSlots params) final)
    (hslots : SlotsFor (params.map IrParam.name) 0 final)
    (hnodup : (params.map IrParam.name).Nodup) {values : List (RuntimeValue ν)}
    (hlength : values.length = params.length) :
    Corresponds final (params.map IrParam.name) ((params.map IrParam.name).zip values) values := by
  intro name hname
  obtain ⟨slot, hslot⟩ :=
    Option.ne_none_iff_exists'.mp ((parameterSlots_knows params name).mp hname)
  obtain ⟨i, hi, rfl⟩ := parameterSlots_lookup hslot
  have hcount := hslots.count
  have hroom := hslots.room
  have hlt := (List.getElem?_eq_some_iff.mp hi).1
  rw [List.length_map] at hcount hlt
  have hvalue : values[i]? = some values[i] := List.getElem?_eq_getElem (by omega)
  refine ⟨.ofNat i, values[i], hkeeps name _ hslot, ?_, ?_⟩
  · rw [lookup_zip hnodup hi, hvalue]
  · rw [UInt32.toNat_ofNat', Nat.mod_eq_of_lt (by omega), hvalue]

theorem resize_length (values : List (RuntimeValue ν)) (length : ℕ) :
    (resize values length).length = length := by
  rw [resize, List.length_append, List.length_take, List.length_replicate]
  omega

section

variable [F64 ν] {m : BytecodeModule} {compiled : BytecodeFunction} {final : LocalSlots}
  {last : FunctionLowerer}

/-- However calls are answered, the compiled code does what the body means. -/
def Implements (ν : Type) [F64 ν] (m : BytecodeModule) (source : SourceFunction)
    (compiled : BytecodeFunction) : Prop :=
  ∀ (call : Call ν) args k, executeFrame m call compiled (k + 3) 0 (.new compiled args) =
    evaluateBody call source args

theorem body_implements {name : String} {params : List IrParam} {returnType : IrType} {span : Span}
    {body : List Statement} {phase : Phase}
    (h : CodeOf m last compiled final (params.map IrParam.name))
    (hbefore : Before last (lowerStatements body (.new name params returnType span)))
    (hparams : last.params = params) (hnodup : (params.map IrParam.name).Nodup)
    (hcheck : checkStatements (params.map IrParam.name) body (.straight (params.map IrParam.name)
      (params.map fun param => (param.name, param.ty)).reverse false) = some phase)
    (hend : ∀ (call : Call ν) turns frame, proceed m call compiled turns
      (rest compiled (lowerStatements body (.new name params returnType span))) frame =
        pure .undefined) :
    Implements ν m ⟨name, params.map IrParam.name, body⟩ compiled := by
  intro call args k
  have hlayout := new_layout name params returnType span
  have hperforms : Performs m call compiled final (params.map IrParam.name) _ phase _ _
      (evaluateStatements call body) := lowerStatements_performs h body hlayout hbefore hcheck
  have hnew := hbefore.advances hlayout (lowerStatements_advances body hlayout)
  have hcount : compiled.params.length = params.length := by
    rw [h.code.params, List.length_map]
    exact congrArg List.length hparams
  have hkeeps := h.code.code.keeps
  rw [show last.finish.params = params from hparams] at hkeeps
  have hframe : Frame.new compiled args = ⟨resize args params.length, []⟩ := by
    rw [Frame.new, hcount]
  have hcorresponds := corresponds_new hkeeps h.slots hnodup (resize_length args params.length)
  funext t
  have hrun := hperforms _ ⟨resize args params.length, []⟩ k t
    ⟨List.Subset.refl _, rfl, hcorresponds, rfl⟩
  rw [show turnsAhead (.straight _ _ false) + k = k + 2 from Nat.add_comm 2 k] at hrun
  have henter : executeFrame m call compiled (k + 3) 0 ⟨resize args params.length, []⟩ =
      proceed m call compiled (k + 2) (rest compiled (.new name params returnType span))
        ⟨resize args params.length, []⟩ :=
    executeFrame_enters h.code hnew.current rfl hnew.code (k + 2) _
  rw [hframe, henter, evaluateBody, List.length_map]
  change _ = FailState.bind _ _ t
  unfold FailState.wp at hrun
  unfold FailState.bind
  cases hbody : evaluateStatements call body
      ((params.map IrParam.name).zip (resize args params.length)) t with
  | mk outcome u =>
    rw [hbody] at hrun
    cases outcome with
    | error e => exact hrun
    | ok outcome =>
      cases outcome with
      | «continue» env =>
        obtain ⟨after, _, hproceed⟩ := hrun
        rw [hproceed, hend]
      | «return» value => exact hrun

theorem before_refl {offset : ℕ → Option ℕ} (h : LayoutOf offset last) : Before last last :=
  ⟨h.current_lt, .refl last, Nat.le_refl _⟩

omit [F64 ν] in
theorem rest_last (h : FunctionCode m last.finish compiled final)
    (hcurrent : last.currentBlock < last.blocks.length) : rest compiled last = [] := by
  obtain ⟨block, hblock⟩ : ∃ block, last.blocks[last.currentBlock]? = some block :=
    ⟨_, List.getElem?_eq_getElem hcurrent⟩
  obtain ⟨compiledBlock, hcompiled, _, hcode⟩ := compiled_block h hblock
  rw [rest, hcompiled, currentCode_of_getElem? hblock, hcode.length_eq]
  exact List.drop_length

theorem function_implements {declaration : FunctionDeclaration} {span : Span}
    (h : FunctionCode m (lowerFunction declaration span) compiled final)
    (hsize : totalResults (lowerFunction declaration span).blocks ≤ 2 ^ 32)
    (hnodup : (declaration.params.map Parameter.name).Nodup)
    (hcheck : verifiableFunction declaration = true) :
    Implements ν m ⟨declaration.name, declaration.params.map Parameter.name, declaration.body⟩
      compiled := by
  let params := declaration.params.map fun param =>
    (⟨param.name, (param.ty.map typeFromNode).getD .unknown⟩ : IrParam)
  have hnames : params.map IrParam.name = declaration.params.map Parameter.name := List.map_map
  have htypes : params.map (fun param => (param.name, param.ty)) =
      declaration.params.map fun param => (param.name, (param.ty.map typeFromNode).getD .unknown) :=
    List.map_map
  obtain ⟨offset, hlayout, _⟩ := lowerStatements_numbering declaration.body declaration.name params
    ((declaration.returnType.map typeFromNode).getD .undefined) span
  have hparams : (lowerFunction declaration span).params = params :=
    congrArg Prod.snd (lowerStatements_signature declaration.body _)
  have hslots := h.code.slots
  rw [hparams] at hslots
  rw [← hnames] at hnodup ⊢
  have hend (call : Call ν) (turns : ℕ) (frame : Frame ν) : proceed m call compiled turns
      (rest compiled (lowerStatements declaration.body (.new declaration.name params
        ((declaration.returnType.map typeFromNode).getD .undefined) span))) frame =
      pure .undefined := by
    rw [rest_last h hlayout.current_lt, proceed_nil]
  unfold verifiableFunction at hcheck
  rw [← hnames, ← htypes] at hcheck
  dsimp only at hcheck
  cases hphase : checkStatements (params.map IrParam.name) declaration.body
      (.straight (params.map IrParam.name)
        (params.map fun param => (param.name, param.ty)).reverse false) with
  | none =>
    rw [hphase] at hcheck
    cases hcheck
  | some phase =>
    refine body_implements ⟨h, hslots, ?_⟩ (before_refl hlayout) hparams hnodup hphase hend
    rw [← hlayout.total]
    exact hsize

theorem entry_implements {program : Program}
    (h : FunctionCode m (lowerProgram program).entry compiled final)
    (hsize : totalResults (lowerProgram program).entry.blocks ≤ 2 ^ 32)
    (hcheck : verifiableEntry (program.body.filter isEntryStatement) = true) :
    Implements ν m ⟨"__entry", [], program.body.filter isEntryStatement⟩ compiled := by
  let span := program.span.getD emptySpan
  let s := lowerStatements (program.body.filter isEntryStatement)
    (.new "__entry" [] .undefined span)
  let last := s.emit (.return none) none .undefined span
  obtain ⟨offset, hlayout, _⟩ := lowerStatements_numbering (program.body.filter isEntryStatement)
    "__entry" [] .undefined span
  have hlast : LayoutOf offset last := Layout.append hlayout
    [⟨.return none, none, .undefined, span⟩] (numbered_effect rfl nofun)
    (.inl (List.forall_mem_singleton.mpr rfl)) (straight_singleton.mpr rfl)
  have hblocks : last.blocks = s.blocks.modify s.currentBlock fun block => { block with
      instructions := block.instructions ++ [⟨.return none, none, .undefined, span⟩] } := rfl
  have hparams : last.params = [] :=
    congrArg Prod.snd (lowerStatements_signature (program.body.filter isEntryStatement) _)
  have hslots := h.code.slots
  rw [show (lowerProgram program).entry.params = [] from hparams] at hslots
  have hend (call : Call ν) (turns : ℕ) (frame : Frame ν) :
      proceed m call compiled turns (rest compiled s) frame = pure .undefined := by
    obtain ⟨first, hfirst, hrest⟩ := rest_append h hlayout.current_lt hblocks rfl (.refl last)
    obtain ⟨instruction, none, hinstruction, hnone, rfl⟩ := List.forall₂_cons_left_iff.mp hfirst
    rw [hrest, List.cons_append, proceed_return (run_returnVoid hinstruction rfl frame)]
  obtain ⟨phase, hphase⟩ := Option.isSome_iff_exists.mp hcheck
  have hcode : CodeOf m last compiled final (([] : List IrParam).map IrParam.name) := by
    refine ⟨h, hslots, ?_⟩
    rw [← hlast.total]
    exact hsize
  have hbefore : Before last s := ⟨hlayout.current_lt, .modify s _ hblocks, Nat.le_refl _⟩
  exact body_implements hcode hbefore hparams .nil hphase hend

end

theorem sourceFunctions_names (program : Program) :
    (sourceFunctions program).map SourceFunction.name =
      (compile (lowerProgram program)).functions.map BytecodeFunction.name := by
  rw [compile_names, sourceFunctions, List.map_append, List.map_map]
  rfl

theorem functions_implement [F64 ν] (order : IterationOrder) {source : String}
    (hquiet : (analyzeSource order source).diagnostics = [])
    (hsize : irSize (lowerProgram (parseSource source).program) ≤ 2 ^ 32)
    (hverifiable : Verifiable (parseSource source).program = true) :
    List.Forall₂ (Implements ν (compile (lowerProgram (parseSource source).program)))
      (sourceFunctions (parseSource source).program)
      (compile (lowerProgram (parseSource source).program)).functions := by
  have hresults {function : IrFunction}
      (hmem : function ∈ allFunctions (lowerProgram (parseSource source).program)) :
      totalResults function.blocks ≤ 2 ^ 32 := by
    have hle := functionSize_le_irSize hmem
    have htotal := totalResults_le_blocksSize function.blocks
    unfold functionSize at hle
    omega
  rw [Verifiable, Bool.and_eq_true, List.all_eq_true] at hverifiable
  have hcode := compile_functionCode (parseSource source).program hsize
  rw [allFunctions, lowerProgram_functions] at hcode
  obtain ⟨functions, entries, hsplit, hfunctions, hentries⟩ := forall₂_append hcode
  rw [hsplit, sourceFunctions]
  refine List.rel_append ?_ ?_
  · rw [List.forall₂_map_left_iff] at hfunctions ⊢
    refine List.Forall₂.imp ?_ ((List.forall₂_and_left _ _).mpr ⟨fun _ hmem => hmem, hfunctions⟩)
    rintro binding compiled ⟨hmem, h⟩
    refine function_implements h (hresults ?_) (parameters_nodup order hquiet hmem) ?_
    · rw [allFunctions, lowerProgram_functions]
      exact List.mem_append_left _ (List.mem_map_of_mem hmem)
    · obtain ⟨statement, hstatement, hplain⟩ := List.mem_filterMap.mp hmem
      cases statement with
      | function declaration span =>
        cases hplain
        exact hverifiable.1 _ hstatement
      | _ => cases hplain
  · obtain ⟨compiled, none, h, hnone, rfl⟩ := List.forall₂_cons_left_iff.mp hentries
    obtain rfl := List.forall₂_nil_left_iff.mp hnone
    refine .cons (entry_implements h (hresults ?_) hverifiable.2) .nil
    exact List.mem_append_right _ List.mem_cons_self

section

variable [F64 ν] {m : BytecodeModule} {program : Program} {host : HostEnvironment ν}

theorem find_related {R : SourceFunction → BytecodeFunction → Prop} {name : String}
    {sources : List SourceFunction} {functions : List BytecodeFunction}
    (hnames : sources.map SourceFunction.name = functions.map BytecodeFunction.name)
    (h : List.Forall₂ R sources functions) :
    (sources.find? (fun function => function.name == name) = none ∧
        functions.find? (fun function => function.name == name) = none) ∨
      ∃ source compiled, sources.find? (fun function => function.name == name) = some source ∧
        functions.find? (fun function => function.name == name) = some compiled ∧
        R source compiled := by
  induction h with
  | nil => exact .inl ⟨rfl, rfl⟩
  | @cons source compiled sources functions hrelated _ ih =>
    obtain ⟨hname, hrest⟩ := List.cons.inj hnames
    rw [List.find?_cons, List.find?_cons, hname]
    cases compiled.name == name with
    | true => exact .inr ⟨source, compiled, rfl, rfl, hrelated⟩
    | false => exact ih hrest

theorem callFunction_eq (fuel : ℕ) (name : String) (args : List (RuntimeValue ν)) :
    callFunction m host (fuel + 1) name args =
      (if name = "console.log" then do
        FailState.modify fun s => { s with console := s.console ++ args }
        pure .undefined
      else do
        match ← callHost host name args with
        | some result => pure result
        | none => do
          let function ← FailState.lift (findFunction m name)
          executeFrame m (callFunction m host fuel) function (fuel + 1) 0
            (.new function args)) := by
  rw [callFunction, dispatch]
  by_cases hconsole : name = "console.log"
  · rw [if_pos hconsole, if_pos hconsole]
    rfl
  · rw [if_neg hconsole, if_neg hconsole, bind_assoc]
    congr 1
    funext answer
    cases answer with
    | some result => rfl
    | none =>
      dsimp only
      rw [bind_assoc]
      rfl

/-- The functions of the module are those of the source, under their names. -/
structure Matches (ν : Type) [F64 ν] (program : Program) (m : BytecodeModule) : Prop where
  names : (sourceFunctions program).map SourceFunction.name =
    m.functions.map BytecodeFunction.name
  functions : List.Forall₂ (Implements ν m) (sourceFunctions program) m.functions

theorem Matches.call (h : Matches ν program m) (name : String) :
    (findSource program name = .error (.runtime (.unknownFunction name)) ∧
        findFunction m name = .error (.runtime (.unknownFunction name))) ∨
      ∃ source compiled, findSource program name = .ok source ∧
        findFunction m name = .ok compiled ∧ Implements ν m source compiled := by
  rcases find_related h.names h.functions with ⟨hsource, hfunction⟩ | ⟨source, compiled, hsource,
    hfunction, himplements⟩
  · exact .inl ⟨by rw [findSource, hsource], by rw [findFunction, hfunction]⟩
  · exact .inr ⟨source, compiled, by rw [findSource, hsource], by rw [findFunction, hfunction],
      himplements⟩

/-- An activation takes at most three turns, so two more than the depth of the calls are
    enough. -/
theorem evaluateCall_extends (h : Matches ν program m) (fuel : ℕ) :
    ExtendsCall (evaluateCall program host fuel) (callFunction m host (fuel + 2)) := by
  induction fuel with
  | zero => exact fun name args => .fail _ _
  | succ fuel ih =>
    intro name args
    rw [show fuel + 1 + 2 = (fuel + 2) + 1 by omega, callFunction_eq, evaluateCall]
    by_cases hconsole : name = "console.log"
    · rw [if_pos hconsole, if_pos hconsole]
      exact .refl _ _
    · rw [if_neg hconsole, if_neg hconsole]
      refine .bind (.refl _ _) fun answer => ?_
      cases answer with
      | some result => exact .refl _ _
      | none =>
        rcases h.call name with ⟨hsource, hfunction⟩ | ⟨source, compiled, hsource, hfunction,
          himplements⟩
        · simp only [hsource, hfunction]
          exact .refl _ _
        · simp only [hsource, hfunction]
          change Extends _ (evaluateBody (evaluateCall program host fuel) source args)
            (executeFrame m (callFunction m host (fuel + 2)) compiled (fuel + 3) 0
              (.new compiled args))
          rw [← himplements (evaluateCall program host fuel) args fuel]
          exact executeFrame_extends ih compiled (Nat.le_refl _) 0 _

theorem callFunction_extends_source (h : Matches ν program m) (fuel : ℕ) :
    ExtendsCall (callFunction m host fuel) (evaluateCall program host fuel) := by
  induction fuel with
  | zero => exact fun name args => .fail _ _
  | succ fuel ih =>
    intro name args
    rw [callFunction_eq, evaluateCall]
    by_cases hconsole : name = "console.log"
    · rw [if_pos hconsole, if_pos hconsole]
      exact .refl _ _
    · rw [if_neg hconsole, if_neg hconsole]
      refine .bind (.refl _ _) fun answer => ?_
      cases answer with
      | some result => exact .refl _ _
      | none =>
        rcases h.call name with ⟨hsource, hfunction⟩ | ⟨source, compiled, hsource, hfunction,
          himplements⟩
        · simp only [hsource, hfunction]
          exact .refl _ _
        · simp only [hsource, hfunction]
          change Extends _
            (executeFrame m (callFunction m host fuel) compiled (fuel + 1) 0 (.new compiled args))
            (evaluateBody (evaluateCall program host fuel) source args)
          rw [← himplements (evaluateCall program host fuel) args fuel]
          exact executeFrame_extends ih compiled (by omega) 0 _

theorem calls_sameEnds (h : Matches ν program m) (name : String) (args : List (RuntimeValue ν)) :
    SameEnds .outOfFuel (fun fuel => callFunction m host fuel name args)
      fun fuel => evaluateCall program host fuel name args :=
  .of_extends (fun fuel => ⟨fuel, callFunction_extends_source h fuel name args⟩)
    fun fuel => ⟨fuel + 2, evaluateCall_extends h fuel name args⟩

end

section

variable [F64 ν]

/-- What can be done with a prepared module can be done with the program, and the other way
    round: a call inside a run, a call from the host, and a whole run. -/
structure PreservesMeaning (program : Program) (prepared : PreparedModule)
    (host : HostEnvironment ν) : Prop where
  calls : ∀ name args, SameEnds .outOfFuel
    (fun fuel => Interpreter.callFunction prepared.module host fuel name args)
    fun fuel => evaluateCall program host fuel name args
  callsFromHost : ∀ name (args : List (InteropValue ν)) (result : Except Stop (InteropValue ν)),
    result ≠ .error .outOfFuel →
      ((∃ fuel, prepared.callFunction host fuel name args = result) ↔
        ∃ fuel, ((evaluateCall program host fuel name (runtimeArguments args).1 >>= returnToHost)
          (runtimeArguments args).2).1 = result)
  runs : ∀ result : Except Stop (ExecutionOutput ν), result ≠ .error .outOfFuel →
    ((∃ fuel, prepared.executeWithHost host fuel = result) ↔
      ∃ fuel, (evaluateProgram program host fuel .new).1 = result)

theorem fromSource_eq_ok {order : IterationOrder} {source : String} {prepared : PreparedModule}
    (h : PreparedModule.fromSource order source = .ok prepared) :
    (analyzeSource order source).diagnostics = [] ∧
      prepared.module = compile (lowerProgram (parseSource source).program) := by
  unfold PreparedModule.fromSource at h
  cases hmodule : (compileSource order source).module with
  | none =>
    simp only [hmodule] at h
    cases h
  | some m =>
    have hprepared : prepared.module = m := by
      simp only [hmodule, PreparedModule.ofModule] at h
      split at h
      · rw [← Except.ok.inj h]
      · cases h
    refine ⟨?_, hprepared.trans (compileSource_module hmodule)⟩
    unfold compileSource lowerSource at hmodule
    by_cases hquiet : (analyzeSource order source).diagnostics.isEmpty = true
    · exact List.isEmpty_iff.mp hquiet
    · rw [if_neg hquiet] at hmodule
      cases hmodule

theorem fromSource_matches (order : IterationOrder) (source : String) {prepared : PreparedModule}
    (h : PreparedModule.fromSource order source = .ok prepared)
    (hsize : irSize (lowerProgram (parseSource source).program) < 2 ^ 32) :
    Matches ν (parseSource source).program prepared.module := by
  obtain ⟨hquiet, hmodule⟩ := fromSource_eq_ok h
  have haccepted := prepared.accepted
  rw [hmodule, compile_accepted_iff _ hsize] at haccepted
  rw [hmodule]
  exact ⟨sourceFunctions_names _, functions_implement order hquiet (Nat.le_of_lt hsize) haccepted⟩

theorem PreservesMeaning.of_calls {program : Program} {prepared : PreparedModule}
    {host : HostEnvironment ν} (hcalls : ∀ name args, SameEnds .outOfFuel
      (fun fuel => Interpreter.callFunction prepared.module host fuel name args)
      fun fuel => evaluateCall program host fuel name args) :
    PreservesMeaning program prepared host := by
  refine ⟨hcalls, fun name args result hresult => ?_, fun result hresult => ?_⟩
  · exact ((hcalls name _).bind returnToHost).result _ hresult
  · exact ((hcalls "__entry" []).bind finishRun).result .new hresult

/-- A source that is prepared is executed as it is written. -/
theorem fromSource_preservesMeaning (order : IterationOrder) (source : String)
    {prepared : PreparedModule} (h : PreparedModule.fromSource order source = .ok prepared)
    (hsize : irSize (lowerProgram (parseSource source).program) < 2 ^ 32)
    (host : HostEnvironment ν) :
    PreservesMeaning (parseSource source).program prepared host := by
  have hmatches : Matches ν (parseSource source).program prepared.module :=
    fromSource_matches order source h hsize
  exact .of_calls fun name args => calls_sameEnds hmatches name args

theorem fromSource_of_accepted (order : IterationOrder) {source : String}
    (hquiet : (analyzeSource order source).diagnostics.isEmpty = true)
    (hverified : verifyModule (compile (lowerProgram (parseSource source).program)) = .ok ()) :
    ∃ prepared, PreparedModule.fromSource order source = .ok prepared := by
  refine ⟨⟨compile (lowerProgram (parseSource source).program), hverified⟩, ?_⟩
  simp only [PreparedModule.fromSource, compileSource_eq_some hquiet, PreparedModule.ofModule]
  split
  · rfl
  · rename_i herror
    rw [hverified] at herror
    cases herror

/-- A function with an `if` whose test calls another one, and a compound assignment. -/
theorem checkSource_preservesMeaning :
    let source := "function over(x: number): boolean { return x > 9; }
function warn() { console.log(1); return; }
function check(x: number) { if (over(x)) { warn(); } }
let box = { n: 4 }; box.n += 7; check(box.n);"
    ∃ prepared, PreparedModule.fromSource .listed source = .ok prepared ∧
      PreservesMeaning (parseSource source).program prepared (.new : HostEnvironment Int) := by
  intro source
  have hcomputed : (analyzeSource .listed source).diagnostics.isEmpty = true ∧
      verify (compile (lowerProgram (parseSource source).program)) = [] ∧
      irSize (lowerProgram (parseSource source).program) < 2 ^ 32 := by decide +kernel
  obtain ⟨hquiet, hverified, hsize⟩ := hcomputed
  obtain ⟨prepared, hprepared⟩ :=
    fromSource_of_accepted .listed hquiet ((accepted_iff _).mpr hverified)
  exact ⟨prepared, hprepared, fromSource_preservesMeaning .listed source hprepared hsize .new⟩

end

end Tsvm.MeaningPreservation
