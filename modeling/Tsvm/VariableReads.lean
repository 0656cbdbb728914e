import Tsvm.CheckedNames
import Tsvm.FunctionSlots
import Tsvm.Variables

set_option autoImplicit false

/-!
# What a compiled program reads for a name

The memory of an activation has a value for each variable in scope, as it was last
declared or assigned. The code has a slot for each name, so a read finds the value
of its variable as long as no other variable of that name is in scope at a store.
-/
namespace Tsvm.VariableReads
open Ast Bytecode BytecodeVerifier Interop Ir Lowering Parsing Pipeline Compilation RuntimeValues
  Interpreter InterpreterSteps
open LoweringBlocks AnalyzerSteps TopLevelFunctions Semantic Scoping CheckedNames CompiledOperands
  CompiledSlots CompiledValues FunctionSlots Variables

/-- The innermost scope with a name, in the bindings and in the analyzer. -/
structure FoundIn (name : String) (bindings : Bindings) (scopes : List Scope) (binding : Variable)
    (k : ℕ) : Prop where
  binding : ∃ scope, bindings[k]? = some scope ∧ binding ∈ scope
  found : ∃ scope ty, scopes[k]? = some scope ∧ scope.lookup name = some ty ∧
    (scopes.findSome? fun scope => scope.lookup name) = some ty

theorem resolve_cons (name : String) (scope : List Variable) (bindings : Bindings) :
    Bindings.resolve name (scope :: bindings) =
      (scope.find? fun binding => binding.1 = name).or (Bindings.resolve name bindings) := by
  rw [Bindings.resolve, List.flatten_cons, List.find?_append]
  rfl

theorem withGlobals_findIn {globals : Scope} {name : String} {binding : Variable} (bindings : Bindings)
    (h : bindings.resolve name = some binding) {locals : List Scope}
    (hnames : locals.map (List.map Prod.fst) = bindings.names) :
    ∃ k, FoundIn name bindings (withGlobals globals locals) binding k := by
  induction bindings generalizing locals with
  | nil => cases h
  | cons scope bindings ih =>
    cases locals with
    | nil => cases hnames
    | cons first rest =>
      obtain ⟨hfirst, hrest⟩ := List.cons.inj hnames
      have hover : ∃ behind, withGlobals globals (first :: rest) =
          (first ++ behind) :: withGlobals globals rest := by
        cases rest with
        | nil => exact ⟨globals, rfl⟩
        | cons next rest =>
          exact ⟨[], by rw [withGlobals_cons _ _ (List.cons_ne_nil _ _), List.append_nil]⟩
      obtain ⟨behind, hover⟩ := hover
      rw [resolve_cons] at h
      rw [hover]
      cases hscope : scope.find? fun binding => binding.1 = name with
      | some found =>
        rw [hscope] at h
        cases h
        have hname := List.find?_some hscope
        have hbinding := List.mem_of_find?_eq_some hscope
        have hmem : name ∈ first.map Prod.fst := by
          rw [hfirst, ← of_decide_eq_true hname]
          exact List.mem_map_of_mem hbinding
        obtain ⟨ty, hty⟩ := Option.isSome_iff_exists.mp ((lookup_isSome_iff first name).mpr hmem)
        have hlookup : (first ++ behind).lookup name = some ty := by
          rw [List.lookup_append, hty]
          rfl
        refine ⟨0, ⟨scope, rfl, hbinding⟩, ⟨_, ty, rfl, hlookup, ?_⟩⟩
        rw [List.findSome?_cons, hlookup]
      | none =>
        rw [hscope, Option.none_or] at h
        obtain ⟨k, ⟨inner, hinner, hbinding⟩, ⟨found, ty, hfound, hty, hfirstFound⟩⟩ := ih h hrest
        -- The variable is further out, so the globals are not behind this scope.
        have hbehind : (first ++ behind).lookup name = none := by
          cases rest with
          | nil =>
            cases bindings with
            | nil => cases h
            | cons next bindings => cases hrest
          | cons next rest =>
            rw [withGlobals_cons _ _ (List.cons_ne_nil _ _)] at hover
            rw [← (List.cons.inj hover).1, ← Option.not_isSome_iff_eq_none, lookup_isSome_iff,
              hfirst, List.mem_map]
            rintro ⟨other, hother, hname⟩
            exact List.find?_eq_none.mp hscope other hother (decide_eq_true hname)
        refine ⟨k + 1, ⟨inner, hinner, hbinding⟩, ⟨found, ty, hfound, hty, ?_⟩⟩
        rw [List.findSome?_cons, hbehind]
        exact hfirstFound

theorem lookupValue_resolve {globals : Scope} {bindings : Bindings} {s : Analyzer} {name : String}
    {binding : Variable} (h : Models globals bindings.names s)
    (hresolve : bindings.resolve name = some binding) :
    ∃ (k : ℕ) (scope : List Variable) (found : Scope), bindings[k]? = some scope ∧
      binding ∈ scope ∧ s.valueScopes[k]? = some found ∧ (found.lookup name).isSome = true ∧
        s.lookupValue name = found.lookup name := by
  obtain ⟨locals, _, hnames, hscopes⟩ := h
  obtain ⟨k, ⟨scope, hscope, hbinding⟩, ⟨found, ty, hfound, hty, hlookup⟩⟩ :=
    @withGlobals_findIn globals _ _ bindings hresolve _ hnames
  refine ⟨k, scope, found, hscope, hbinding, by rw [hscopes]; exact hfound, by rw [hty]; rfl, ?_⟩
  rw [hty, Analyzer.lookupValue, hscopes]
  exact hlookup

def programMarks (program : Program) : List Marker :=
  ((program.body.filterMap plainFunction).map fun binding => functionMarks binding.declaration) ++
    [entryMarks program]

structure Marked (function : IrFunction) (marks : Marker) : Prop where
  aligned : (function.blocks.map fun block => codeSpellings block.instructions) =
    marks.blocks.map spellings
  params : (function.params.map IrParam.name).Nodup

theorem defineValue_new {globals : Scope} {scope : List String} {scopes : Scopes} {s : Analyzer}
    (h : Models globals (scope :: scopes) s) (hscopes : scopes ≠ []) {name : String} {ty : Ty}
    {kind : SymbolKind} {span : Span}
    (hquiet : (s.defineValue name ty kind (some span)).diagnostics = []) : name ∉ scope := by
  obtain ⟨locals, _, hnames, hover⟩ := h
  cases locals with
  | nil => cases hnames
  | cons first rest =>
    obtain ⟨rfl, hrest⟩ := List.cons.inj hnames
    have hne : rest ≠ [] := by
      rintro rfl
      exact hscopes hrest.symm
    rw [withGlobals_cons _ _ hne] at hover
    intro hmem
    rw [Analyzer.defineValue, hover] at hquiet
    dsimp only at hquiet
    rw [if_pos ((lookup_isSome_iff first name).mpr hmem)] at hquiet
    exact absurd (List.append_eq_nil_iff.mp hquiet).2 (List.cons_ne_nil _ _)

theorem defineParams_nodup (params : List Parameter) {globals : Scope} {scope : List String}
    {scopes : Scopes} {s : Analyzer} (h : Models globals (scope :: scopes) s)
    (hscopes : scopes ≠ []) (hquiet : (defineParams params s).diagnostics = []) :
    (params.map Parameter.name).Nodup ∧ ∀ name ∈ params.map Parameter.name, name ∉ scope := by
  induction params generalizing scope s with
  | nil => exact ⟨.nil, nofun⟩
  | cons param params ih =>
    rw [defineParams] at hquiet
    have hdefined := quiet_advances (defineParams_advances params _) hquiet
    have hresolved := h.reports (resolveOptionalType_reports .unknown param.ty s)
    have hfree := defineValue_new hresolved hscopes hdefined
    obtain ⟨hnodup, hnew⟩ := ih (hresolved.defineValue param.name _ .variable param.span hdefined)
      hquiet
    rw [List.map_cons, List.nodup_cons, List.forall_mem_cons]
    refine ⟨⟨fun hmem => hnew _ hmem List.mem_cons_self, hnodup⟩, hfree, fun name hmem => ?_⟩
    exact fun hold => hnew name hmem (List.mem_cons_of_mem _ hold)

theorem analyzeBodies_nodup (order : IterationOrder) {global : Scope} {s : Analyzer}
    (hglobal : Collected global s)
    (hquiet : (s.functions.foldl (fun s binding => analyzeFunctionBody order binding s)
      s).diagnostics = []) {binding : FunctionBinding} (hmem : binding ∈ s.functions) :
    (binding.declaration.params.map Parameter.name).Nodup := by
  have hmodels : Models global [[]] s := ⟨[[]], List.cons_ne_nil _ _, rfl, hglobal.scopes⟩
  obtain ⟨t, ht, hbody⟩ := (analyzeFunctionBodies_each order s.functions hmodels hquiet).2 _ hmem
  have hstart := quiet_advances (analyzeStatements_advances order binding.declaration.body _)
    (analyzeFunctionBody_quiet order hbody).1
  have hresolved := ht.reports
    (resolveOptionalType_reports .undefined binding.declaration.returnType t)
  refine (@defineParams_nodup _ global [] [[]] _ ?_ (List.cons_ne_nil _ _) hstart).1
  exact hresolved.pushScope

theorem parameters_nodup (order : IterationOrder) {source : String}
    (hquiet : (analyzeSource order source).diagnostics = []) {binding : FunctionBinding}
    (hmem : binding ∈ (parseSource source).program.body.filterMap plainFunction) :
    (binding.declaration.params.map Parameter.name).Nodup := by
  obtain ⟨global, hglobal⟩ := (Collected.initial source).collectTopLevelSymbols
    (parseSource source).program.body
  refine analyzeBodies_nodup order hglobal
    (quiet_advances (analyzeStatements_advances order _ _) hquiet) ?_
  rw [collectTopLevelSymbols_functions]
  exact mem_collected_of_plain hmem

theorem programMarks_marked (order : IterationOrder) {source : String}
    (hquiet : (analyzeSource order source).diagnostics = []) :
    List.Forall₂ Marked (allFunctions (lowerProgram (parseSource source).program))
      (programMarks (parseSource source).program) := by
  rw [allFunctions, lowerProgram_functions, programMarks]
  refine List.rel_append ?_ (.cons ⟨entryMarks_aligned _, ?_⟩ .nil)
  · rw [List.forall₂_map_left_iff, List.forall₂_map_right_iff, List.forall₂_same]
    intro binding hmem
    refine ⟨functionMarks_aligned binding.declaration binding.statementSpan, ?_⟩
    rw [(lowerFunction_signature binding.declaration binding.statementSpan).2]
    exact parameters_nodup order hquiet hmem
  · have hsignature := lowerStatements_signature
      ((parseSource source).program.body.filter isEntryStatement)
      (.new "__entry" [] .undefined ((parseSource source).program.span.getD emptySpan))
    have hparams : (lowerProgram (parseSource source).program).entry.params = [] :=
      congrArg Prod.snd hsignature
    rw [hparams]
    exact .nil

section

variable {ν : Type}

abbrev Memory (ν : Type) := Variable → Option (RuntimeValue ν)

def initialMemory (function : IrFunction) (start : Point ν) : Memory ν := fun binding =>
  if (function.params[binding.2]?).map IrParam.name = some binding.1 then
    start.frame.locals[binding.2]?
  else none

def markAt (function : IrFunction) (marks : Marker) (p : Point ν) : Option Mark :=
  match (irInstruction function p).bind fun instruction => kindSpelling instruction.kind with
  | some _ => (marks.blocks[p.block.id.toNat]?).bind fun block =>
    block[(codeSpellings ((irCode function p).take p.pc)).length]?
  | none => none

/-- A variable is forgotten where it is not in scope, and a store changes the variable that
    the name means there. -/
def remember (mark : Mark) (stored : Option (RuntimeValue ν)) (memory : Memory ν) : Memory ν :=
  fun binding =>
    if stored.isSome ∧ mark.target = some binding then stored
    else if binding ∈ mark.scopes.flatten then memory binding
    else none

def memoryAfter (function : IrFunction) (marks : Marker) (p : Point ν) (memory : Memory ν) :
    Memory ν :=
  match markAt function marks p with
  | some mark => remember mark (storedValue p) memory
  | none => memory

/-- What a run has to satisfy in front of an instruction. -/
abbrev StepCondition (ν : Type) := Point ν → Memory ν → Prop

inductive Follows [F64 ν] (m : BytecodeModule) (host : HostEnvironment ν) (function : IrFunction)
    (marks : Marker) (condition : StepCondition ν) (start : Point ν) :
    Point ν → Memory ν → Prop where
  | start : Follows m host function marks condition start start (initialMemory function start)
  | step {p q : Point ν} {memory : Memory ν}
      (h : Follows m host function marks condition start p memory) (hp : condition p memory)
      (hflow : Flow m host p q) :
      Follows m host function marks condition start q (memoryAfter function marks p memory)

def readValue (p : Point ν) : Option (RuntimeValue ν) :=
  match p.instruction with
  | some instruction =>
    if instruction.opcode = .loadLocal then
      (operand instruction 0 >>= p.frame.loadLocal).toOption
    else none
  | none => none

def Reads (p : Point ν) : Prop := p.instruction.map Instruction.opcode = some .loadLocal

instance (p : Point ν) : Decidable (Reads p) := inferInstanceAs (Decidable (_ = _))

/-- A read finds the value of the variable that its name means. -/
def Denotes (function : IrFunction) (marks : Marker) (p : Point ν) (memory : Memory ν) : Prop :=
  Reads p → ∃ mark binding value, markAt function marks p = some mark ∧
    mark.target = some binding ∧ memory binding = some value ∧ readValue p = some value

/-- A read is of a variable of the function that has a value. A store is to a variable, and
    no other variable of its name is in scope. -/
def Separate (function : IrFunction) (marks : Marker) : StepCondition ν := fun p memory =>
  ∀ mark ∈ markAt function marks p,
    (Reads p → ∃ binding ∈ mark.target, (memory binding).isSome = true) ∧
    ((storedValue p).isSome = true → ∃ binding ∈ mark.target,
      ∀ other ∈ mark.scopes.flatten, other.1 = binding.1 → other = binding)

instance (function : IrFunction) (marks : Marker) (p : Point ν) (memory : Memory ν) :
    Decidable (Separate function marks p memory) :=
  inferInstanceAs (Decidable (∀ mark ∈ markAt function marks p, _ ∧ _))

variable {function : IrFunction} {marks : Marker} {p q : Point ν} {memory : Memory ν}

/-- The slot of a name has the value of every variable of the name that is remembered. -/
def Agrees (final : LocalSlots) (p : Point ν) (memory : Memory ν) : Prop :=
  ∀ binding value, memory binding = some value →
    ∃ slot, final.ids.lookup binding.1 = some slot ∧ p.frame.locals[slot.toNat]? = some value

theorem target_name {mark : Mark} {name : String} (hspelling : mark.use.spelling = .slot name)
    {binding : Variable} (htarget : mark.target = some binding) : binding.1 = name := by
  obtain ⟨use, scopes, number⟩ := mark
  cases use with
  | access other =>
    cases hspelling
    exact (Bindings.resolve_mem htarget).2
  | declaration other =>
    cases hspelling
    cases htarget
    rfl
  | call callee => cases htarget

theorem codeSpellings_getElem? {code : List IrInstruction} {k : ℕ} {instruction : IrInstruction}
    {spelling : Spelling} (hi : code[k]? = some instruction)
    (hspelling : kindSpelling instruction.kind = some spelling) :
    (codeSpellings code)[(codeSpellings (code.take k)).length]? = some spelling := by
  obtain ⟨hlt, rfl⟩ := List.getElem?_eq_some_iff.mp hi
  have hsplit : codeSpellings code =
      codeSpellings (code.take k) ++ spelling :: codeSpellings (code.drop (k + 1)) := by
    have hcons : codeSpellings (code[k] :: code.drop (k + 1)) =
        spelling :: codeSpellings (code.drop (k + 1)) := List.filterMap_cons_some hspelling
    rw [← hcons, ← codeSpellings_append, List.getElem_cons_drop, List.take_append_drop]
  rw [hsplit, List.getElem?_append_right (Nat.le_refl _), Nat.sub_self]
  rfl

theorem Marked.markAt (h : Marked function marks) {instruction : IrInstruction}
    {spelling : Spelling} (hi : irInstruction function p = some instruction)
    (hspelling : kindSpelling instruction.kind = some spelling) :
    ∃ mark, VariableReads.markAt function marks p = some mark ∧ mark.use.spelling = spelling := by
  obtain ⟨block, hblock⟩ : ∃ block, function.blocks[p.block.id.toNat]? = some block := by
    refine Option.ne_none_iff_exists'.mp fun hnone => ?_
    rw [irInstruction, irCode, hnone] at hi
    cases hi
  have hcode : irCode function p = block.instructions := by
    rw [irCode, hblock]
    rfl
  have haligned := congrArg (fun blocks => blocks[p.block.id.toNat]?) h.aligned
  simp only [List.getElem?_map, hblock, Option.map_some] at haligned
  obtain ⟨markBlock, hmarks, hnames⟩ := Option.map_eq_some_iff.mp haligned.symm
  have hspelled := codeSpellings_getElem? hi hspelling
  rw [hcode, ← hnames, spellings, List.getElem?_map] at hspelled
  obtain ⟨mark, hmark, huse⟩ := Option.map_eq_some_iff.mp hspelled
  refine ⟨mark, ?_, huse⟩
  rw [VariableReads.markAt, hi, Option.bind_some, hspelling, hmarks, hcode]
  rw [spellings] at hnames
  exact hmark

theorem initialMemory_agrees {m : BytecodeModule} {compiled : BytecodeFunction} {final : LocalSlots}
    (hcode : FunctionCode m function compiled final)
    (hnodup : (function.params.map IrParam.name).Nodup) (start : Point ν) :
    Agrees final start (initialMemory function start) := by
  intro binding value hvalue
  unfold initialMemory at hvalue
  split at hvalue
  · rename_i hparam
    rw [← List.getElem?_map] at hparam
    obtain ⟨id, hid⟩ := Option.ne_none_iff_exists'.mp
      ((parameterSlots_knows function.params binding.1).mp (List.mem_of_getElem? hparam))
    obtain ⟨i, hi, rfl⟩ := parameterSlots_lookup hid
    have hsame : i = binding.2 := by
      obtain ⟨hlt, hname⟩ := List.getElem?_eq_some_iff.mp hi
      obtain ⟨hlt', hname'⟩ := List.getElem?_eq_some_iff.mp hparam
      exact (hnodup.getElem_inj_iff).mp (hname.trans hname'.symm)
    have hlt := (List.getElem?_eq_some_iff.mp hi).1
    have hcount := hcode.code.slots.count
    have hroom := hcode.code.slots.room
    refine ⟨_, hcode.code.keeps _ _ hid, ?_⟩
    rw [UInt32.toNat_ofNat_of_lt' (by change i < 2 ^ 32; omega), hsame]
    exact hvalue
  · cases hvalue

theorem remember_eq_some {mark : Mark} {stored : Option (RuntimeValue ν)} {binding : Variable}
    {value : RuntimeValue ν} (h : remember mark stored memory binding = some value) :
    (mark.target = some binding ∧ stored = some value) ∨
      ((stored.isSome → mark.target ≠ some binding) ∧ binding ∈ mark.scopes.flatten ∧
        memory binding = some value) := by
  unfold remember at h
  split at h
  · rename_i hstored
    exact .inl ⟨hstored.2, h⟩
  · rename_i hother
    split at h
    · rename_i hscope
      exact .inr ⟨fun hsome htarget => hother ⟨hsome, htarget⟩, hscope, h⟩
    · cases h

section

variable {m : BytecodeModule} {compiled : BytecodeFunction} {final : LocalSlots}

theorem Agrees.stored (hslots : SlotsFor (function.params.map IrParam.name) 0 final)
    (h : Agrees final p memory) {mark : Mark} {name : String} {slot : UInt32}
    {value : RuntimeValue ν} (hspelling : mark.use.spelling = .slot name)
    (hslot : final.ids.lookup name = some slot) (hq : q.frame = p.frame.storeLocal slot value)
    {target : Variable} (htarget : mark.target = some target)
    (halone : ∀ other ∈ mark.scopes.flatten, other.1 = target.1 → other = target) :
    Agrees final q (remember mark (some value) memory) := by
  have hname := target_name hspelling htarget
  intro binding found hfound
  rw [hq]
  rcases remember_eq_some hfound with ⟨hbinding, hsame⟩ | ⟨hother, hscope, hremembered⟩
  · cases hsame
    rw [htarget] at hbinding
    cases hbinding
    rw [hname]
    exact ⟨slot, hslot, Frame.storeLocal_self p.frame slot value⟩
  · obtain ⟨slot', hslot', hlocal⟩ := h binding found hremembered
    refine ⟨slot', hslot', Frame.storeLocal_ne (fun hsame => hother rfl ?_) value hlocal⟩
    have hbinding : binding.1 = name := hslots.unique _ _ slot (hsame ▸ hslot') hslot
    rw [halone binding hscope (hbinding.trans hname.symm)]
    exact htarget

variable [F64 ν] {host : HostEnvironment ν}

theorem Agrees.flow (hslots : SlotsFor (function.params.map IrParam.name) 0 final)
    (hmarked : Marked function marks) (hstands : Stands m function compiled final p)
    (h : Agrees final p memory) (hseparate : Separate function marks p memory)
    (hflow : Flow m host p q) : Agrees final q (memoryAfter function marks p memory) := by
  cases Flow.locals hflow with
  | same hnone hlocals =>
    have hsame : ∀ binding value, memoryAfter function marks p memory binding = some value →
        memory binding = some value := by
      intro binding value hvalue
      rw [memoryAfter] at hvalue
      cases hmark : markAt function marks p with
      | none =>
        rw [hmark] at hvalue
        exact hvalue
      | some mark =>
        rw [hmark, hnone] at hvalue
        rcases remember_eq_some hvalue with ⟨_, hstored⟩ | ⟨_, _, hremembered⟩
        · cases hstored
        · exact hremembered
    intro binding value hvalue
    rw [hlocals]
    exact h binding value (hsame binding value hvalue)
  | @stored instruction slot value hi hop hslot hvalue hframe =>
    obtain ⟨irInstruction, hinstruction, hallotted⟩ := hstands.instruction hi
    obtain ⟨name, operand, slot', hkind, hlookup, hoperands⟩ := hallotted.storeLocal hop
    rw [hoperands] at hslot
    cases hslot
    obtain ⟨mark, hmark, hspelling⟩ := hmarked.markAt hinstruction (by rw [hkind]; rfl)
    obtain ⟨target, htarget, halone⟩ := (hseparate mark hmark).2 (by rw [hvalue]; rfl)
    rw [memoryAfter, hmark, hvalue]
    exact h.stored hslots hspelling hlookup hframe htarget halone

omit [F64 ν] in
theorem Agrees.denotes (hmarked : Marked function marks)
    (hstands : Stands m function compiled final p) (h : Agrees final p memory)
    (hseparate : Separate function marks p memory) : Denotes function marks p memory := by
  intro hreads
  obtain ⟨instruction, hi, hop⟩ := Option.map_eq_some_iff.mp hreads
  obtain ⟨irInstruction, hinstruction, hallotted⟩ := hstands.instruction hi
  obtain ⟨name, slot, hkind, hlookup, hoperands⟩ := hallotted.loadLocal hop
  obtain ⟨mark, hmark, hspelling⟩ := hmarked.markAt hinstruction (by rw [hkind]; rfl)
  obtain ⟨target, htarget, hvalue⟩ := (hseparate mark hmark).1 hreads
  obtain ⟨value, hvalue⟩ := Option.isSome_iff_exists.mp hvalue
  obtain ⟨slot', hslot', hlocal⟩ := h target value hvalue
  rw [target_name hspelling htarget, hlookup] at hslot'
  cases hslot'
  refine ⟨mark, target, value, hmark, htarget, hvalue, ?_⟩
  have hload : p.frame.loadLocal slot = .ok value := by
    rw [Frame.loadLocal, hlocal]
  have hoperand : operand instruction 0 = .ok slot := operand_eq_ok.mpr (by rw [hoperands]; rfl)
  rw [readValue, hi]
  dsimp only
  rw [if_pos hop, hoperand]
  change (p.frame.loadLocal slot).toOption = some value
  rw [hload]
  rfl

theorem Follows.agrees (hcode : FunctionCode m function compiled final)
    (hmarked : Marked function marks) {start : Point ν} (hbegins : Begins compiled start)
    (h : Follows m host function marks (Separate function marks) start p memory) :
    Stands m function compiled final p ∧ Agrees final p memory := by
  induction h with
  | start => exact ⟨(hcode.begins hbegins).1, initialMemory_agrees hcode hmarked.params start⟩
  | step _ hp hflow ih =>
    obtain ⟨hstands, hagrees⟩ := ih
    exact ⟨hstands.flow hcode hflow,
      hagrees.flow hcode.code.slots hmarked hstands hp hflow⟩

end

end

def FunctionOf (program : Program) (function : IrFunction) (marks : Marker)
    (compiled : BytecodeFunction) : Prop :=
  ∃ i : ℕ, (allFunctions (lowerProgram program))[i]? = some function ∧
    (programMarks program)[i]? = some marks ∧
    (compile (lowerProgram program)).functions[i]? = some compiled

/-- In every activation of a source without diagnostics that keeps the variables of one name
    apart, a read finds the value of the variable that its name means. -/
theorem compiledSource_denotes (order : IterationOrder) (source : String)
    (hquiet : (analyzeSource order source).diagnostics = [])
    (hsize : irSize (lowerProgram (parseSource source).program) ≤ 2 ^ 32) {function : IrFunction}
    {marks : Marker} {compiled : BytecodeFunction}
    (hfunction : FunctionOf (parseSource source).program function marks compiled) {ν : Type}
    [F64 ν] (host : HostEnvironment ν) {start p : Point ν} {memory : Memory ν}
    (hbegins : Begins compiled start)
    (hfollows : Follows (compile (lowerProgram (parseSource source).program)) host function marks
      (Separate function marks) start p memory)
    (hseparate : Separate function marks p memory) : Denotes function marks p memory := by
  obtain ⟨i, hi, hmarks, hcompiled⟩ := hfunction
  obtain ⟨function', hi', hmarked⟩ :=
    CompiledCode.forall₂_getElem? (programMarks_marked order hquiet) hmarks
  rw [hi] at hi'
  cases hi'
  obtain ⟨function', hi', hcode⟩ :=
    CompiledCode.forall₂_getElem? (compile_functionCode _ hsize) hcompiled
  rw [hi] at hi'
  cases hi'
  obtain ⟨hstands, hagrees⟩ := hfollows.agrees hcode hmarked hbegins
  exact hagrees.denotes hmarked hstands hseparate

deriving instance DecidableEq for RuntimeValue

section

variable {ν : Type} [F64 ν] (m : BytecodeModule) (host : HostEnvironment ν)

def advance (p : Point ν) : Option (Point ν) := do
  let instruction ← p.instruction
  match executeInstruction m (callFunction m host 0) instruction p.frame p.machine with
  | (.ok (.continue, frame), machine) => some (p.after frame machine)
  | _ => none

theorem advance_flow {p q : Point ν} (h : advance m host p = some q) : Flow m host p q := by
  unfold advance at h
  obtain ⟨instruction, hi, h⟩ := Option.bind_eq_some_iff.mp h
  cases hexec : executeInstruction m (callFunction m host 0) instruction p.frame p.machine with
  | mk result machine =>
    rw [hexec] at h
    cases result with
    | error e => cases h
    | ok done =>
      obtain ⟨flow, frame⟩ := done
      cases flow with
      | «continue» =>
        cases h
        exact .next ⟨frame, machine, ⟨instruction, 0, hi, hexec⟩, rfl⟩
      | jump target => cases h
      | «return» value => cases h

variable (function : IrFunction) (marks : Marker) (condition : StepCondition ν)
  [∀ p memory, Decidable (condition p memory)]

def walk : ℕ → Point ν → Memory ν → Option (Point ν × Memory ν)
  | 0, p, memory => some (p, memory)
  | k + 1, p, memory =>
    if condition p memory then
      (advance m host p).bind fun q => walk k q (memoryAfter function marks p memory)
    else none

variable {m host function marks condition}

theorem walk_follows {start : Point ν} (k : ℕ) {p q : Point ν} {memory memory' : Memory ν}
    (h : Follows m host function marks condition start p memory)
    (hwalk : walk m host function marks condition k p memory = some (q, memory')) :
    Follows m host function marks condition start q memory' := by
  induction k generalizing p memory with
  | zero =>
    cases hwalk
    exact h
  | succ k ih =>
    rw [walk] at hwalk
    by_cases hp : condition p memory
    · rw [if_pos hp] at hwalk
      obtain ⟨next, hnext, hrest⟩ := Option.bind_eq_some_iff.mp hwalk
      exact ih (h.step hp (advance_flow m host hnext)) hrest
    · rw [if_neg hp] at hwalk
      cases hwalk

def activation (program : Program) (i : ℕ) (args : List (RuntimeValue ν)) :
    Option (IrFunction × Marker × BytecodeFunction × Point ν) := do
  let function ← (allFunctions (lowerProgram program))[i]?
  let marks ← (programMarks program)[i]?
  let compiled ← (compile (lowerProgram program)).functions[i]?
  let block ← (findBlock compiled 0).toOption
  pure (function, marks, compiled, entry compiled block args .new)

omit [F64 ν] in
theorem activation_eq_some {program : Program} {i : ℕ} {args : List (RuntimeValue ν)}
    {compiled : BytecodeFunction} {start : Point ν}
    (h : activation program i args = some (function, marks, compiled, start)) :
    FunctionOf program function marks compiled ∧ Begins compiled start := by
  obtain ⟨function', hfunction, h₁⟩ := Option.bind_eq_some_iff.mp h
  obtain ⟨marks', hmarks, h₂⟩ := Option.bind_eq_some_iff.mp h₁
  obtain ⟨compiled', hcompiled, h₃⟩ := Option.bind_eq_some_iff.mp h₂
  obtain ⟨block, hblock, h₄⟩ := Option.bind_eq_some_iff.mp h₃
  cases h₄
  refine ⟨⟨i, hfunction, hmarks, hcompiled⟩, block, args, .new, ?_, rfl⟩
  cases hfound : findBlock compiled 0 with
  | error e =>
    rw [hfound] at hblock
    cases hblock
  | ok found =>
    rw [hfound] at hblock
    cases hblock
    rfl

def visit (host : HostEnvironment ν) (condition : IrFunction → Marker → StepCondition ν)
    [∀ function marks p memory, Decidable (condition function marks p memory)] (program : Program)
    (i : ℕ) (args : List (RuntimeValue ν)) (k : ℕ) :
    Option (IrFunction × Marker × Point ν × Memory ν) :=
  (activation program i args).bind fun (function, marks, _, start) =>
    (walk (compile (lowerProgram program)) host function marks (condition function marks) k start
      (initialMemory function start)).map fun (p, memory) => (function, marks, p, memory)

theorem visit_follows {condition : IrFunction → Marker → StepCondition ν}
    [∀ function marks p memory, Decidable (condition function marks p memory)] {program : Program}
    {i : ℕ} {args : List (RuntimeValue ν)} {k : ℕ}
    {P : IrFunction → Marker → Point ν → Memory ν → Prop}
    (h : ∃ result ∈ visit host condition program i args k,
      P result.1 result.2.1 result.2.2.1 result.2.2.2) :
    ∃ function marks compiled start p memory, FunctionOf program function marks compiled ∧
      Begins compiled start ∧
      Follows (compile (lowerProgram program)) host function marks (condition function marks)
        start p memory ∧ P function marks p memory := by
  obtain ⟨⟨function, marks, p, memory⟩, hvisit, hP⟩ := h
  obtain ⟨⟨function', marks', compiled, start⟩, hstart, hwalk⟩ := Option.bind_eq_some_iff.mp hvisit
  obtain ⟨⟨p', memory'⟩, hp, hsame⟩ := Option.map_eq_some_iff.mp hwalk
  cases hsame
  obtain ⟨hfunction, hbegins⟩ := activation_eq_some hstart
  exact ⟨function, marks, compiled, start, p, memory, hfunction, hbegins,
    walk_follows k .start hp, hP⟩

end

/-- The local of a function that is called with 20. -/
theorem doubleSource_denotes :
    let source := "function f(n: number): number { let k = n + 1; return k * 2; } console.log(f(20));"
    let program := (parseSource source).program
    ∃ function marks compiled, ∃ (start p : Point Int) (memory : Memory Int),
      FunctionOf program function marks compiled ∧ Begins compiled start ∧
      Follows (compile (lowerProgram program)) .new function marks (Separate function marks) start p
        memory ∧ Reads p ∧ Denotes function marks p memory := by
  intro source program
  obtain ⟨function, marks, compiled, start, p, memory, hfunction, hbegins, hfollows, hseparate,
      hreads⟩ :=
    @visit_follows Int _ .new Separate _ program 0 [.number 20] 4
      (fun function marks p memory => Separate function marks p memory ∧ Reads p) (by decide +kernel)
  exact ⟨function, marks, compiled, start, p, memory, hfunction, hbegins, hfollows, hreads,
    compiledSource_denotes .listed source (by decide +kernel) (by decide +kernel) hfunction .new
      hbegins hfollows hseparate⟩

/-- The block has a variable of the same name, and the last read finds its value. -/
theorem shadowedSource_not_denoted :
    let source := "let x = 1; { let x = 2; } console.log(x);"
    let program := (parseSource source).program
    (analyzeSource .listed source).diagnostics = [] ∧ irSize (lowerProgram program) ≤ 2 ^ 32 ∧
      ∃ function marks compiled, ∃ (start p : Point Int) (memory : Memory Int),
        FunctionOf program function marks compiled ∧ Begins compiled start ∧
        Follows (compile (lowerProgram program)) .new function marks (fun _ _ => True) start p
          memory ∧
        memory ("x", 0) = some (.number 1) ∧ readValue p = some (.number 2) ∧
        ¬ Denotes function marks p memory := by
  intro source program
  refine ⟨by decide +kernel, by decide +kernel, ?_⟩
  obtain ⟨function, marks, compiled, start, p, memory, hfunction, hbegins, hfollows, hreads,
      htarget, hmemory, hvalue⟩ :=
    @visit_follows Int _ .new (fun _ _ _ _ => True) _ program 0 [] 4
      (fun function marks p memory => Reads p ∧
        (markAt function marks p).bind Mark.target = some ("x", 0) ∧
        memory ("x", 0) = some (.number 1) ∧ readValue p = some (.number 2)) (by decide +kernel)
  refine ⟨function, marks, compiled, start, p, memory, hfunction, hbegins, hfollows, hmemory, hvalue,
    fun hdenotes => ?_⟩
  obtain ⟨mark, binding, value, hmark, hbinding, hremembered, hread⟩ := hdenotes hreads
  rw [hmark, Option.bind_some, hbinding] at htarget
  cases htarget
  rw [hmemory] at hremembered
  cases hremembered
  rw [hvalue] at hread
  cases hread

end Tsvm.VariableReads
