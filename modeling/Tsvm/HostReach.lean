import Tsvm.CallGraphs
import Tsvm.DomFetch

set_option autoImplicit false

/-!
# What a run can ask of its host

A host is asked for every name that is called, so what a program can do to the page around
it is decided by the names it calls. A run asks the host for nothing but the names that the
call graph leads to from the function it starts with, and a host that answers these in the
same way cannot be told from it.
-/
namespace Tsvm.HostReach
open Ast Bytecode Interop Ir Lowering RuntimeValues Interpreter InterpreterSteps
open Parsing Pipeline Compilation Semantic SourceMeaning MeaningPreservation
  LoweringCode LoweringBlocks CompiledOperands TopLevelFunctions ExpressionRuns StoreTypings
  CallGraphs Modules DomFetch
open Relation (ReflTransGen)

variable {ν α β : Type}

/-- `d'` does what `d` does, and on the way the host is asked for nothing but `P`. -/
def Asks (P : HostCall ν → Prop) (d d' : Run ν α) : Prop :=
  ∀ s, d' s = d s ∧ ∃ asked, (d s).2.hostCalls = s.hostCalls ++ asked ∧ ∀ call ∈ asked, P call

namespace Asks

variable {P : HostCall ν → Prop}

theorem of_silent {d : Run ν α} (h : ∀ s, (d s).2.hostCalls = s.hostCalls) : Asks P d d :=
  fun s => ⟨rfl, [], by rw [h, List.append_nil], nofun⟩

theorem pure (a : α) : Asks P (Pure.pure a : Run ν α) (Pure.pure a) := of_silent fun _ => rfl

theorem lift (x : Except Stop α) : Asks P (FailState.lift x : Run ν α) (FailState.lift x) :=
  of_silent fun _ => rfl

theorem fail (e : Stop) : Asks P (FailState.fail e : Run ν α) (FailState.fail e) :=
  of_silent fun _ => rfl

theorem read : Asks P (FailState.read : Run ν (Machine ν)) FailState.read := of_silent fun _ => rfl

theorem setHeap (heap : Store ν) : Asks P (Interpreter.setHeap heap) (Interpreter.setHeap heap) :=
  of_silent fun _ => rfl

theorem allocate (value : HeapValue ν) :
    Asks P (Interpreter.allocate value) (Interpreter.allocate value) := of_silent fun _ => rfl

theorem bind_of {d d' : Run ν α} {f f' : α → Run ν β} (hd : Asks P d d')
    (hf : ∀ s a t, d s = (.ok a, t) → Asks P (f a) (f' a)) : Asks P (d >>= f) (d' >>= f') := by
  intro s
  obtain ⟨heq, asked, hasked, hP⟩ := hd s
  cases hrun : d s with
  | mk result t =>
    rw [hrun] at heq hasked
    cases result with
    | error e =>
      rw [FailState.bind_error hrun, FailState.bind_error heq]
      exact ⟨rfl, asked, hasked, hP⟩
    | ok a =>
      obtain ⟨heq', more, hmore, hP'⟩ := hf s a t hrun t
      rw [FailState.bind_ok hrun, FailState.bind_ok heq]
      refine ⟨heq', asked ++ more, ?_, List.forall_mem_append.mpr ⟨hP, hP'⟩⟩
      rw [hmore, hasked, List.append_assoc]

theorem bind {d d' : Run ν α} {f f' : α → Run ν β} (hd : Asks P d d')
    (hf : ∀ a, Asks P (f a) (f' a)) : Asks P (d >>= f) (d' >>= f') :=
  hd.bind_of fun _ a _ _ => hf a

end Asks

section Modules

variable [F64 ν] {m : BytecodeModule} {P : HostCall ν → Prop} {call call' : Call ν}
  {function : BytecodeFunction} {host host' : HostEnvironment ν}

theorem executeInstruction_asks {instruction : Instruction}
    (hcall : instruction.opcode = .call → ∀ name,
      (operand instruction 0 >>= symbol m) = .ok name → ∀ args,
      Asks P (call name args) (call' name args))
    (frame : Frame ν) :
    Asks P (executeInstruction m call instruction frame)
      (executeInstruction m call' instruction frame) := by
  obtain ⟨opcode, operands, tag, src⟩ := instruction
  cases opcode with
  | loadConst => exact .bind (.lift _) fun constant => .bind (.lift _) fun value => .pure _
  | buildObject =>
    refine .bind (.lift _) fun count => .bind (.lift _) fun object => ?_
    exact .bind (.allocate _) fun handle => .pure _
  | buildArray =>
    refine .bind (.lift _) fun count => .bind (.lift _) fun values => ?_
    exact .bind (.allocate _) fun handle => .pure _
  | loadLocal => exact .bind (.lift _) fun value => .pure _
  | storeLocal => exact .bind (.lift _) fun value => .bind (.lift _) fun slot => .pure _
  | loadMember =>
    refine .bind (.lift _) fun object => .bind (.lift _) fun property => ?_
    exact .bind .read fun s => .bind (.lift _) fun value => .pure _
  | storeMember =>
    refine .bind (.lift _) fun object => .bind (.lift _) fun property => ?_
    refine .bind (.lift _) fun value => .bind .read fun s => .bind (.lift _) fun heap => ?_
    exact .bind (.setHeap _) fun _ => .pure _
  | binary =>
    refine .bind (.lift _) fun left => .bind (.lift _) fun right => .bind (.lift _) fun op => ?_
    exact .bind .read fun s => .bind (.lift _) fun value => .pure _
  | call =>
    refine .bind_of (.lift _) ?_
    rintro s ⟨name, args⟩ t hoperands
    obtain ⟨callee, hcallee, hrest⟩ := Except.bind_eq_ok.mp (congrArg Prod.fst hoperands)
    obtain ⟨argc, _, hrest⟩ := Except.bind_eq_ok.mp hrest
    obtain ⟨values, _, hrest⟩ := Except.bind_eq_ok.mp hrest
    cases hrest
    exact (hcall rfl name hcallee args).bind fun value => .pure _
  | branch => exact .bind (.lift _) fun condition => .bind (.lift _) fun target => .pure _
  | jump => exact .bind (.lift _) fun target => .pure _
  | «return» =>
    cases operands with
    | nil => exact .pure _
    | cons value rest => exact .bind (.lift _) fun value => .pure _

theorem executeBlock_asks
    (hcall : ∀ name ∈ calledNames m function, ∀ args, Asks P (call name args) (call' name args))
    {code : List Instruction} (hcode : code ⊆ function.blocks.flatMap BytecodeBlock.instructions)
    (frame : Frame ν) :
    Asks P (executeBlock m call code frame) (executeBlock m call' code frame) := by
  induction code generalizing frame with
  | nil => exact .pure _
  | cons instruction rest ih =>
    obtain ⟨hmem, hrest⟩ := List.cons_subset.mp hcode
    refine .bind (executeInstruction_asks ?_ frame) ?_
    · intro hop name hname
      refine hcall name (List.mem_filterMap.mpr ⟨instruction, hmem, ?_⟩)
      rw [hop, hname]
      rfl
    · rintro ⟨flow, after⟩
      cases flow with
      | «continue» => exact ih hrest after
      | jump target => exact .pure _
      | «return» value => exact .pure _

theorem executeFrame_asks
    (hcall : ∀ name ∈ calledNames m function, ∀ args, Asks P (call name args) (call' name args))
    (turns : ℕ) (id : UInt32) (frame : Frame ν) :
    Asks P (executeFrame m call function turns id frame)
      (executeFrame m call' function turns id frame) := by
  induction turns generalizing id frame with
  | zero => exact .fail _
  | succ turns ih =>
    refine .bind_of (.lift _) fun s block t hblock => ?_
    have hfound : findBlock function id = .ok block := congrArg Prod.fst hblock
    refine .bind (executeBlock_asks hcall (fun instruction hmem => ?_) frame) ?_
    · exact List.mem_flatMap.mpr ⟨block, (findBlock_eq_ok hfound).1, hmem⟩
    · rintro ⟨flow, after⟩
      cases flow with
      | «continue» => exact .pure _
      | jump next => exact ih next after
      | «return» value => exact .pure _

omit [F64 ν] in
theorem callHost_asks {name : String} (hsame : host'.functions name = host.functions name)
    (hP : host.containsFunction name = true → ∀ args, P ⟨name, args⟩)
    (args : List (RuntimeValue ν)) :
    Asks P (callHost host name args) (callHost host' name args) := by
  unfold callHost
  refine .bind .read fun s => .bind (.lift _) fun converted => ?_
  unfold HostEnvironment.call
  rw [hsame]
  cases hfunction : host.functions name with
  | none => exact .pure _
  | some f =>
    refine .bind (fun t => ⟨rfl, [⟨name, converted⟩], rfl, ?_⟩) fun _ => ?_
    · refine List.forall_mem_singleton.mpr (hP ?_ converted)
      rw [HostEnvironment.containsFunction, hfunction]
      rfl
    · dsimp only
      cases f s.hostCalls converted with
      | error error => exact .fail _
      | ok value => exact .bind (.setHeap _) fun _ => .pure _

def MayCall (m : BytecodeModule) (name callee : String) : Prop :=
  ∃ function, findFunction m name = .ok function ∧ callee ∈ calledNames m function

/-- A call of `name` asks this of the host. -/
structure Asked (host : HostEnvironment ν) (reached : String → Prop) (call : HostCall ν) :
    Prop where
  reached : reached call.name
  known : host.containsFunction call.name = true
  notConsole : call.name ≠ "console.log"

theorem callFunction_asks {reached : String → Prop}
    (hclosed : ∀ name callee, reached name → MayCall m name callee → reached callee)
    (hsame : ∀ name, reached name → host'.functions name = host.functions name) (fuel : ℕ)
    (name : String) (hname : reached name) (args : List (RuntimeValue ν)) :
    Asks (Asked host reached) (callFunction m host fuel name args)
      (callFunction m host' fuel name args) := by
  induction fuel generalizing name args with
  | zero => exact .fail _
  | succ fuel ih =>
    rw [callFunction_eq, callFunction_eq]
    by_cases hconsole : name = "console.log"
    · rw [if_pos hconsole, if_pos hconsole]
      exact .bind (.of_silent fun _ => rfl) fun _ => .pure _
    · rw [if_neg hconsole, if_neg hconsole]
      have hasked (hknown : host.containsFunction name = true) (args : List (InteropValue ν)) :
          Asked host reached ⟨name, args⟩ := ⟨hname, hknown, hconsole⟩
      refine .bind (callHost_asks (hsame name hname) hasked args) fun answer => ?_
      cases answer with
      | some result => exact .pure _
      | none =>
        refine .bind_of (.lift _) fun s function t hfound => ?_
        refine executeFrame_asks (fun callee hcallee => ih callee ?_) _ _ _
        exact hclosed name callee hname ⟨function, congrArg Prod.fst hfound, hcallee⟩

end Modules

def calleeOf (instruction : IrInstruction) : Option String :=
  match instruction.kind with
  | .call callee _ => some callee
  | _ => none

def callees (code : List IrInstruction) : List String := code.filterMap calleeOf

theorem callees_append (first second : List IrInstruction) :
    callees (first ++ second) = callees first ++ callees second := List.filterMap_append

theorem callees_ofValue (code : List IrInstruction) (next : ℕ) (kind : IrInstructionKind)
    (ty : IrType) (span : Span) :
    callees (Lowered.ofValue code next kind ty span).code =
      callees code ++ callees [⟨kind, some next, ty, span⟩] := callees_append _ _

theorem memberStoreCode_callees (object : ValueId) (property : String)
    (operator : AssignmentOperator) (right : Lowered) (leftSpan span : Span) :
    callees (memberStoreCode object property operator right leftSpan span).1 = [] := by
  cases operator <;> rfl

section Code

variable (types : List (String × IrType))

mutual

theorem expressionCode_callees : ∀ (expression : Expression) (n : ℕ),
    callees (expressionCode types expression n).code = calledIn expression
  | .object properties span, n => by
    have hproperties := propertiesCode_callees properties n
    rw [expressionCode, calledIn, callees_ofValue, hproperties]
    exact List.append_nil _
  | .array elements span, n => by
    have helements := expressionsCode_callees elements n
    rw [expressionCode, calledIn, callees_ofValue, helements]
    exact List.append_nil _
  | .member object property span, n => by
    have hobject := expressionCode_callees object n
    rw [expressionCode, calledIn, callees_ofValue, hobject]
    exact List.append_nil _
  | .call callee arguments span, n => by
    have harguments := expressionsCode_callees arguments n
    rw [expressionCode, calledIn, callees_ofValue, harguments]
    rfl
  | .binary left operator right span, n => by
    have hleft := expressionCode_callees left n
    have hright := expressionCode_callees right (expressionCode types left n).next
    rw [expressionCode, calledIn, callees_ofValue, callees_append, hleft, hright]
    exact List.append_nil _
  | .assignment left operator right span, n => by
    cases left with
    | identifier name leftSpan =>
      have hright := expressionCode_callees right n
      simp only [expressionCode, calledIn]
      rw [callees_append, hright]
      exact List.append_nil _
    | member object property leftSpan =>
      have hobject := expressionCode_callees object n
      have hright := expressionCode_callees right (expressionCode types object n).next
      rw [expressionCode, calledIn, callees_append, callees_append, hobject, hright,
        memberStoreCode_callees, List.append_nil]
    | _ => exact expressionCode_callees right n
  | .unary operator argument span, n => expressionCode_callees argument n
  | .identifier _ _, _ | .number _ _, _ | .string _ _, _ | .boolean _ _, _ | .null _, _
  | .undefined _, _ | .error _, _ => rfl

theorem expressionsCode_callees : ∀ (expressions : List Expression) (n : ℕ),
    callees (expressionsCode types expressions n).1 = calledInAll expressions
  | [], _ => rfl
  | expression :: expressions, n => by
    have hfirst := expressionCode_callees expression n
    have hrest := expressionsCode_callees expressions (expressionCode types expression n).next
    rw [expressionsCode, calledInAll, callees_append, hfirst, hrest]

theorem propertiesCode_callees : ∀ (properties : List ObjectProperty) (n : ℕ),
    callees (propertiesCode types properties n).1 = calledInProperties properties
  | [], _ => rfl
  | .mk name value _ :: properties, n => by
    have hfirst := expressionCode_callees value n
    have hrest := propertiesCode_callees properties (expressionCode types value n).next
    rw [propertiesCode, calledInProperties, callees_append, hfirst, hrest]

end

end Code

def CallOnly (names : List String) (blocks : List IrBlock) : Prop :=
  ∀ block ∈ blocks, callees block.instructions ⊆ names

variable {names : List String} {s : FunctionLowerer}

theorem CallOnly.modify {blocks : List IrBlock} (h : CallOnly names blocks)
    {code : List IrInstruction} (hcode : callees code ⊆ names) (current : ℕ) :
    CallOnly names (blocks.modify current fun block =>
      { block with instructions := block.instructions ++ code }) := by
  intro block hblock
  obtain ⟨i, hi, rfl⟩ := List.getElem_of_mem hblock
  rw [List.length_modify] at hi
  have hold := h _ (List.getElem_mem hi)
  rw [List.getElem_modify]
  by_cases hcurrent : current = i
  · rw [if_pos hcurrent, callees_append]
    exact List.append_subset.mpr ⟨hold, hcode⟩
  · rw [if_neg hcurrent]
    exact hold

theorem CallOnly.createBlock (h : CallOnly names s.blocks) :
    CallOnly names s.createBlock.2.blocks := by
  intro block hblock
  rcases List.mem_append.mp hblock with hblock | hblock
  · exact h block hblock
  · rw [List.mem_singleton.mp hblock]
    exact List.nil_subset _

theorem CallOnly.openArms (h : CallOnly names s.blocks) {test : Expression}
    (htest : calledIn test ⊆ names) : CallOnly names (openArms test s).blocks := by
  have hlowered : CallOnly names (lowerExpression test s).2.blocks := by
    rw [lowerExpression_eq]
    exact h.modify (by rw [expressionCode_callees]; exact htest) _
  exact hlowered.createBlock.createBlock.createBlock.modify (List.nil_subset _) _

theorem CallOnly.closeArm (h : CallOnly names s.blocks) (merge next : BlockId) (span : Span) :
    CallOnly names (closeArm merge next span s).blocks :=
  h.modify (List.nil_subset _) _

mutual

theorem lowerStatement_callOnly : ∀ (statement : Statement) {s : FunctionLowerer},
    CallOnly names s.blocks → calledInStatement statement ⊆ names →
    CallOnly names (lowerStatement statement s).blocks
  | .variable ⟨kind, name, ty, initializer⟩ span, s, h, hcalled => by
    rw [lowerStatement, lowerVariable_eq]
    refine h.modify ?_ _
    unfold variableCode
    cases initializer with
    | none => exact List.nil_subset _
    | some expression =>
      dsimp only
      rw [callees_append, expressionCode_callees]
      exact List.append_subset.mpr ⟨hcalled, List.nil_subset _⟩
  | .return value span, s, h, hcalled => by
    rw [lowerStatement, lowerReturn_eq]
    refine h.modify ?_ _
    cases value with
    | none => exact List.nil_subset _
    | some expression =>
      rw [returnCode, callees_append, expressionCode_callees]
      exact List.append_subset.mpr ⟨hcalled, List.nil_subset _⟩
  | .expression value _, s, h, hcalled | .throw value _, s, h, hcalled => by
    rw [lowerStatement, lowerExpression_eq]
    exact h.modify (by rw [expressionCode_callees]; exact hcalled) _
  | .if test consequent alternate span, s, h, hcalled => by
    obtain ⟨hcalled, halternate⟩ := List.append_subset.mp hcalled
    obtain ⟨htest, hconsequent⟩ := List.append_subset.mp hcalled
    rw [lowerStatement_if]
    have hfirst := lowerStatement_callOnly consequent (h.openArms htest) hconsequent
    have hsecond := lowerAlternate_callOnly alternate
      (hfirst.closeArm (s.blocks.length + 2) (s.blocks.length + 1) span) halternate
    exact hsecond.closeArm _ _ _
  | .block body _, _, h, hcalled => lowerStatements_callOnly body h hcalled
  | .export inner _, _, h, hcalled => lowerStatement_callOnly inner h hcalled
  | .interface _ _, _, h, _ | .typeAlias _ _, _, h, _ | .class _ _, _, h, _
  | .function _ _, _, h, _ | .import _ _, _, h, _ | .empty _, _, h, _ | .error _, _, h, _
  | .while _ _ _, _, h, _ | .for _ _ _ _ _, _, h, _ => h

theorem lowerAlternate_callOnly : ∀ (alternate : Option Statement) {s : FunctionLowerer},
    CallOnly names s.blocks → calledInAlternate alternate ⊆ names →
    CallOnly names (lowerAlternate alternate s).blocks
  | some alternate, _, h, hcalled => lowerStatement_callOnly alternate h hcalled
  | none, _, h, _ => h

theorem lowerStatements_callOnly : ∀ (statements : List Statement) {s : FunctionLowerer},
    CallOnly names s.blocks → calledInStatements statements ⊆ names →
    CallOnly names (lowerStatements statements s).blocks
  | [], _, h, _ => h
  | statement :: statements, _, h, hcalled =>
    have hsplit := List.append_subset.mp hcalled
    lowerStatements_callOnly statements (lowerStatement_callOnly statement h hsplit.1) hsplit.2

end

theorem lowerBody_callOnly (name : String) (params : List IrParam) (returnType : IrType)
    (span : Span) (body : List Statement) :
    CallOnly (calledInStatements body)
      (lowerStatements body (.new name params returnType span)).blocks := by
  refine lowerStatements_callOnly body (fun block hblock => ?_) (List.Subset.refl _)
  rw [List.mem_singleton.mp hblock]
  exact List.nil_subset _

def calledName (m : BytecodeModule) (instruction : Instruction) : Option String :=
  match instruction.opcode with
  | .call => (operand instruction 0 >>= symbol m).toOption
  | _ => none

variable {m : BytecodeModule}

theorem calledNames_eq (function : BytecodeFunction) :
    calledNames m function =
      (function.blocks.flatMap BytecodeBlock.instructions).filterMap (calledName m) := rfl

theorem refers_calledName {slots : LocalSlots} {instruction : IrInstruction} {opcode : Opcode}
    {operands : List UInt32} (h : Refers m slots instruction.kind opcode operands) (tag : TypeTag)
    (src : UInt32) : calledName m ⟨opcode, operands, tag, src⟩ = calleeOf instruction := by
  obtain ⟨kind, result, ty, span⟩ := instruction
  cases h with
  | @call callee args index hcallee =>
    have hsymbol : symbol m index = .ok callee := by
      rw [symbol, constant, hcallee]
      rfl
    change (symbol m index).toOption = some callee
    rw [hsymbol]
    rfl
  | _ => rfl

theorem refersCode_calledNames {slots slots' : LocalSlots} {code : List IrInstruction}
    {compiled : List Instruction} (h : RefersCode m slots code compiled slots') :
    compiled.filterMap (calledName m) = callees code := by
  induction h with
  | nil => rfl
  | cons hkind _ _ _ ih =>
    rw [callees, List.filterMap_cons, List.filterMap_cons, refers_calledName hkind, ih]
    rfl

theorem refersBlocks_calledNames {slots : LocalSlots} {blocks : List IrBlock}
    {compiled : List BytecodeBlock} (h : RefersBlocks m slots blocks compiled) :
    (compiled.flatMap BytecodeBlock.instructions).filterMap (calledName m) =
      blocks.flatMap fun block => callees block.instructions := by
  induction h with
  | nil => rfl
  | cons hcode _ ih =>
    rw [List.flatMap_cons, List.flatMap_cons, List.filterMap_append, ih,
      refersCode_calledNames hcode]

def CallsOf (m : BytecodeModule) (source : SourceFunction) (compiled : BytecodeFunction) : Prop :=
  calledNames m compiled ⊆ calledInStatements source.body

theorem CallOnly.callsOf {source : SourceFunction} {function : IrFunction}
    {compiled : BytecodeFunction} (h : CallOnly (calledInStatements source.body) function.blocks)
    (hrefers : RefersFunction m function compiled) : CallsOf m source compiled := by
  rw [CallsOf, calledNames_eq, refersBlocks_calledNames hrefers.blocks]
  intro name hname
  obtain ⟨block, hblock, hname⟩ := List.mem_flatMap.mp hname
  exact h block hblock hname

theorem compile_callsOf (program : Program) (hsize : irSize (lowerProgram program) ≤ 2 ^ 32) :
    List.Forall₂ (CallsOf (compile (lowerProgram program))) (sourceFunctions program)
      (compile (lowerProgram program)).functions := by
  have hrefers := compile_refers (lowerProgram program) hsize
  rw [allFunctions, lowerProgram_functions] at hrefers
  obtain ⟨functions, entries, hsplit, hfunctions, hentries⟩ := forall₂_append hrefers
  rw [hsplit, sourceFunctions]
  refine List.rel_append ?_ ?_
  · rw [List.forall₂_map_left_iff] at hfunctions ⊢
    refine hfunctions.imp fun binding compiled hcompiled => ?_
    exact CallOnly.callsOf (lowerBody_callOnly _ _ _ _ binding.declaration.body) hcompiled
  · obtain ⟨compiled, none, hcompiled, hnone, rfl⟩ := List.forall₂_cons_left_iff.mp hentries
    obtain rfl := List.forall₂_nil_left_iff.mp hnone
    refine .cons (CallOnly.callsOf ?_ hcompiled) .nil
    exact (lowerBody_callOnly "__entry" [] .undefined (program.span.getD emptySpan)
      (program.body.filter isEntryStatement)).modify (List.nil_subset _) _

def MayCallInSource (program : Program) (name callee : String) : Prop :=
  ∃ function, findSource program name = .ok function ∧ callee ∈ calledInStatements function.body

theorem MayCall.inSource {program : Program} (hsize : irSize (lowerProgram program) ≤ 2 ^ 32)
    {name callee : String} (h : MayCall (compile (lowerProgram program)) name callee) :
    MayCallInSource program name callee := by
  obtain ⟨function, hfound, hcallee⟩ := h
  rw [findFunction] at hfound
  rcases find_related (sourceFunctions_names program) (compile_callsOf program hsize) with
    ⟨_, hnone⟩ | ⟨source, compiled, hsource, hcompiled, hcalls⟩
  · rw [hnone] at hfound
    cases hfound
  · rw [hcompiled] at hfound
    cases hfound
    exact ⟨source, by rw [findSource, hsource], hcalls hcallee⟩

def closedUnderCalls (program : Program) (names : List String) : Bool :=
  (sourceFunctions program).all fun function =>
    !names.contains function.name || (calledInStatements function.body).all names.contains

theorem findSource_name {program : Program} {name : String} {function : SourceFunction}
    (h : findSource program name = .ok function) : function.name = name := by
  unfold findSource at h
  split at h
  · rename_i found hfound
    cases h
    have hsame := List.find?_some hfound
    exact eq_of_beq hsame
  · cases h

theorem reached_mem {program : Program} {names : List String}
    (hclosed : closedUnderCalls program names = true) {name callee : String} (hname : name ∈ names)
    (h : ReflTransGen (MayCallInSource program) name callee) : callee ∈ names := by
  induction h with
  | refl => exact hname
  | tail _ hcall ih =>
    obtain ⟨function, hfound, hcallee⟩ := hcall
    have hfunction := List.all_eq_true.mp hclosed function (findSource_mem hfound)
    have hsame : function.name = _ := findSource_name hfound
    rw [hsame, List.contains_iff_mem.mpr ih, Bool.not_true, Bool.false_or,
      List.all_eq_true] at hfunction
    exact List.contains_iff_mem.mp (hfunction _ hcallee)

variable [F64 ν]

/-- Whatever starts with a call of `name` asks the host for these names only, and does not
    depend on what the host does for others. -/
structure Confined (m : BytecodeModule) (host : HostEnvironment ν) (name : String)
    (reached : String → Prop) : Prop where
  asked : ∀ fuel args s, ∃ asked,
    (callFunction m host fuel name args s).2.hostCalls = s.hostCalls ++ asked ∧
      ∀ call ∈ asked, Asked host reached call
  independent : ∀ host' : HostEnvironment ν,
    (∀ callee, reached callee → host'.functions callee = host.functions callee) →
    ∀ fuel args, callFunction m host' fuel name args = callFunction m host fuel name args

theorem source_confined {order : IterationOrder} {source : String} {prepared : PreparedModule}
    (h : PreparedModule.fromSource order source = .ok prepared)
    (hsize : irSize (lowerProgram (parseSource source).program) ≤ 2 ^ 32)
    (host : HostEnvironment ν) (name : String) :
    Confined prepared.module host name
      (ReflTransGen (MayCallInSource (parseSource source).program) name) := by
  obtain ⟨_, hmodule⟩ := fromSource_eq_ok h
  have hclosed (caller callee : String)
      (hcaller : ReflTransGen (MayCallInSource (parseSource source).program) name caller)
      (hcall : MayCall prepared.module caller callee) :
      ReflTransGen (MayCallInSource (parseSource source).program) name callee := by
    rw [hmodule] at hcall
    exact hcaller.tail (hcall.inSource hsize)
  refine ⟨fun fuel args s => ?_, fun host' hsame fuel args => funext fun s => ?_⟩
  · exact (callFunction_asks hclosed (fun _ _ => rfl) fuel name .refl args s).2
  · exact (callFunction_asks hclosed hsame fuel name .refl args s).1

/-- The same of all that can be done with a prepared module. -/
structure ConfinedModule (prepared : PreparedModule) (host : HostEnvironment ν)
    (reached : String → String → Prop) : Prop where
  calls : ∀ name, Confined prepared.module host name (reached name)
  runs : ∀ host' : HostEnvironment ν,
    (∀ callee, reached "__entry" callee → host'.functions callee = host.functions callee) →
    ∀ fuel, prepared.executeWithHost host' fuel = prepared.executeWithHost host fuel
  callsFromHost : ∀ name, ∀ host' : HostEnvironment ν,
    (∀ callee, reached name callee → host'.functions callee = host.functions callee) →
    ∀ fuel args, prepared.callFunction host' fuel name args =
      prepared.callFunction host fuel name args

/-- A call made in a prepared source asks the host only for what the calls written in the
    source lead to. -/
theorem fromSource_confined (order : IterationOrder) (source : String) {prepared : PreparedModule}
    (h : PreparedModule.fromSource order source = .ok prepared)
    (hsize : irSize (lowerProgram (parseSource source).program) ≤ 2 ^ 32)
    (host : HostEnvironment ν) :
    ConfinedModule prepared host (ReflTransGen (MayCallInSource (parseSource source).program)) := by
  have hcalls := source_confined h hsize host
  refine ⟨hcalls, fun host' hsame fuel => ?_, fun name host' hsame fuel args => ?_⟩
  · have hrun := (hcalls "__entry").independent host' hsame fuel []
    unfold PreparedModule.executeWithHost execute
    rw [hrun]
  · have hcall := (hcalls name).independent host' hsame fuel (runtimeArguments args).1
    unfold PreparedModule.callFunction
    dsimp only
    rw [hcall]

def loadingSource : String := "function fetchText(url: string): string { return url; }
function load(url: string): string { return fetchText(url); }
function clear(selector: string): undefined { return domSetText(selector, selector); }
function domSetText(selector: string, text: string): undefined { return undefined; }
console.log(load(\"/message.txt\"));
"

theorem loadingSource_accepted : ∃ prepared,
    PreparedModule.fromSource .listed loadingSource = .ok prepared ∧
      irSize (lowerProgram (parseSource loadingSource).program) ≤ 2 ^ 32 ∧
      closedUnderCalls (parseSource loadingSource).program
        ["__entry", "console.log", "load", "fetchText"] = true := by
  have hcomputed : (analyzeSource .listed loadingSource).diagnostics.isEmpty = true ∧
      BytecodeVerifier.verify (compile (lowerProgram (parseSource loadingSource).program)) = [] ∧
      irSize (lowerProgram (parseSource loadingSource).program) ≤ 2 ^ 32 ∧
      closedUnderCalls (parseSource loadingSource).program
        ["__entry", "console.log", "load", "fetchText"] = true := by decide +kernel
  obtain ⟨hquiet, hverified, hsize, hclosed⟩ := hcomputed
  obtain ⟨prepared, hprepared⟩ :=
    fromSource_of_accepted .listed hquiet ((BytecodeVerifierFacts.accepted_iff _).mpr hverified)
  exact ⟨prepared, hprepared, hsize, hclosed⟩

def loadingPage : BrowserBindings where
  document := Document.fromTextNodes [("#app", "")]
  fetch := ⟨"https://example.test", (∅ : Sources).insert "/message.txt" "hello"⟩

theorem loadingSource_confined : ∃ prepared,
    PreparedModule.fromSource .listed loadingSource = .ok prepared ∧
      ConfinedModule prepared (loadingPage.hostEnvironment : HostEnvironment Int)
        (ReflTransGen (MayCallInSource (parseSource loadingSource).program)) := by
  obtain ⟨prepared, hprepared, hsize, _⟩ := loadingSource_accepted
  exact ⟨prepared, hprepared,
    fromSource_confined .listed loadingSource hprepared hsize loadingPage.hostEnvironment⟩

omit [F64 ν] in
theorem hostEnvironment_functions {bindings bindings' : BrowserBindings} {name : String}
    (hdocument : name = "domText" → bindings'.document = bindings.document)
    (hfetch : name = "fetchText" → bindings'.fetch = bindings.fetch) :
    (bindings'.hostEnvironment : HostEnvironment ν).functions name =
      (bindings.hostEnvironment : HostEnvironment ν).functions name := by
  simp only [BrowserBindings.hostEnvironment, HostEnvironment.insertFunction]
  by_cases hname : name = "fetchText"
  · rw [if_pos hname, if_pos hname]
    unfold BrowserBindings.fetchText
    rw [hfetch hname]
  · rw [if_neg hname, if_neg hname]
    by_cases hset : name = "domSetText"
    · rw [if_pos hset, if_pos hset]
    · rw [if_neg hset, if_neg hset]
      by_cases htext : name = "domText"
      · rw [if_pos htext, if_pos htext]
        unfold BrowserBindings.domText
        rw [hdocument htext]
      · rw [if_neg htext, if_neg htext]

omit [F64 ν] in
/-- Only `domSetText` writes to the document. -/
theorem Document.after_append_of_quiet (document : Document) (history : List (HostCall ν))
    {asked : List (HostCall ν)} (h : ∀ call ∈ asked, call.name ≠ "domSetText") :
    document.after (history ++ asked) = document.after history := by
  unfold Document.after
  rw [List.foldl_append]
  induction asked with
  | nil => rfl
  | cons call asked ih =>
    obtain ⟨hcall, hasked⟩ := List.forall_mem_cons.mp h
    rw [List.foldl_cons, Document.afterCall, if_neg hcall]
    exact ih hasked

/-- What a call can do to a page, and what of the page it can see. -/
structure PageConfined (m : BytecodeModule) (bindings : BrowserBindings) (name : String)
    (ν : Type) [F64 ν] (reached : String → Prop) : Prop where
  documentKept : ¬ reached "domSetText" →
    ∀ fuel (args : List (RuntimeValue ν)) (s : Machine ν),
      bindings.document.after
          (callFunction m bindings.hostEnvironment fuel name args s).2.hostCalls =
        bindings.document.after s.hostCalls
  independent : ∀ bindings' : BrowserBindings,
    (reached "domText" → bindings'.document = bindings.document) →
    (reached "fetchText" → bindings'.fetch = bindings.fetch) →
    ∀ fuel (args : List (RuntimeValue ν)),
      callFunction m bindings'.hostEnvironment fuel name args =
        callFunction m bindings.hostEnvironment fuel name args

theorem Confined.page {bindings : BrowserBindings} {name : String} {reached : String → Prop}
    (h : Confined m (bindings.hostEnvironment : HostEnvironment ν) name reached) :
    PageConfined m bindings name ν reached := by
  refine ⟨fun hset fuel args s => ?_, fun bindings' hdocument hfetch => ?_⟩
  · obtain ⟨asked, hasked, honly⟩ := h.asked fuel args s
    rw [hasked]
    refine Document.after_append_of_quiet _ _ fun call hcall hname => hset ?_
    rw [← hname]
    exact (honly call hcall).reached
  · refine h.independent _ fun callee hcallee => hostEnvironment_functions ?_ ?_
    · intro htext
      rw [htext] at hcallee
      exact hdocument hcallee
    · intro hname
      rw [hname] at hcallee
      exact hfetch hcallee

/-- A program that cannot come to a call of `domSetText` leaves the document of its page alone,
    and what it does depends on the document and the resources only if it can come to a call
    that reads them. -/
theorem fromSource_pageConfined (order : IterationOrder) (source : String)
    {prepared : PreparedModule} (h : PreparedModule.fromSource order source = .ok prepared)
    (hsize : irSize (lowerProgram (parseSource source).program) ≤ 2 ^ 32)
    (bindings : BrowserBindings) (name : String) :
    PageConfined prepared.module bindings name ν
      (ReflTransGen (MayCallInSource (parseSource source).program) name) :=
  (source_confined h hsize bindings.hostEnvironment name).page

/-- The run that shows the resource cannot come to `clear`, and so not to `domSetText`. -/
theorem loadingSource_pageConfined : ∃ prepared,
    PreparedModule.fromSource .listed loadingSource = .ok prepared ∧
      ∀ fuel (args : List (RuntimeValue Int)) (s : Machine Int),
        loadingPage.document.after
            (callFunction prepared.module loadingPage.hostEnvironment fuel "__entry" args
              s).2.hostCalls =
          loadingPage.document.after s.hostCalls := by
  obtain ⟨prepared, hprepared, hsize, hclosed⟩ := loadingSource_accepted
  refine ⟨prepared, hprepared, ?_⟩
  have hpage : PageConfined prepared.module loadingPage "__entry" Int _ :=
    fromSource_pageConfined .listed loadingSource hprepared hsize loadingPage "__entry"
  refine hpage.documentKept fun hreached => ?_
  have hmem := reached_mem hclosed List.mem_cons_self hreached
  simp at hmem

end Tsvm.HostReach
