import Tsvm.CompilerAcceptance
import Tsvm.FunctionSlots
import Tsvm.LoweredTypes
import Tsvm.StoreTypings

set_option autoImplicit false

/-!
# Steps of typed code

What one instruction of a compiled function does to the types of the values, the locals
and the members. The tag of a value follows from the tags in front of it, except where
the language lets a value in that the lowerer knows nothing of: `Respects` asks these
places for a value of the type that is assumed there.
-/
namespace Tsvm.TypedSteps
open Ast Bytecode BytecodeVerifier Heap Interop Ir Lowering Compilation RuntimeValues Interpreter
  InterpreterSteps
open LoweringCode LoweringBlocks LoweredChecks CompiledOperands CompiledSlots CompiledValues
  FunctionSlots CodeTypes LoweredTypes StoreTypings

variable {ν : Type}

def recordedTypes (function : IrFunction) (p : Point ν) : List IrType :=
  resultTypes ((irCode function p).take p.pc)

def codeBehind (function : IrFunction) (p : Point ν) : List IrInstruction :=
  (irCode function p).drop (p.pc + 1)

def storedLocal : IrInstructionKind → Option (String × ValueId)
  | .storeLocal name value => some (name, value)
  | _ => none

def loadedMember : IrInstructionKind → Option (ValueId × String)
  | .loadMember object property => some (object, property)
  | _ => none

def storedMember : IrInstructionKind → Option (ValueId × String × ValueId)
  | .storeMember object property value => some (object, property, value)
  | _ => none

def numberAddition (instruction : IrInstruction) : Option (ValueId × ValueId) :=
  match instruction.kind, instruction.ty with
  | .binary .add left right, .number => some (left, right)
  | _, _ => none

def objectLiteral (instruction : IrInstruction) :
    Option (List (String × ValueId) × List (String × IrType)) :=
  match instruction.kind, instruction.ty with
  | .loadConst (.object properties), .object fields => some (properties, fields)
  | _, _ => none

def objectHandle : RuntimeValue ν → Option HeapHandle
  | .object handle => some handle
  | _ => none

def nextHandle (heap : Store ν) : HeapHandle :=
  ⟨.ofNat heap.nextIndex, heap.generationAt heap.nextIndex⟩

def literalObject (frame : Frame ν) (properties : List (String × ValueId)) :
    Std.TreeMap String (RuntimeValue ν) :=
  properties.foldl
    (fun object property => object.insert property.1 (frame.values[property.2]?.getD .undefined)) ∅

section

variable (typing : Typing) (function : IrFunction) (p : Point ν)

/-- The value has the type, unless it is tagged with the type. -/
def Supplies (v : ValueId) (ty : IrType) : Prop :=
  (recordedTypes function p)[v]? ≠ some ty → ∀ value ∈ p.frame.values[v]?, HasType typing ty value

def ArgumentsFit : Prop :=
  p.block.id = 0 → p.pc = 0 → ∀ entry ∈ function.params.zip p.frame.locals,
    HasType typing entry.1.ty entry.2

/-- What is stored into a variable has the types by which the variable is read until it is
    stored again. -/
def StoreFits : Prop :=
  ∀ instruction ∈ irInstruction function p, ∀ stored ∈ storedLocal instruction.kind,
    ∀ ty ∈ readTypes stored.1 (laterReads function.blocks stored.1) (codeBehind function p),
      Supplies typing function p stored.2 ty

/-- What is added to a number is no string. -/
def AdditionFits : Prop :=
  ∀ instruction ∈ irInstruction function p, ∀ operands ∈ numberAddition instruction,
    ∀ v ∈ [operands.1, operands.2], ∀ value ∈ p.frame.values[v]?, isString value = false

/-- An object of which a compound assignment reads a member is known to have a member of the
    right side's type there. -/
def CompoundFits : Prop :=
  ∀ instruction ∈ irInstruction function p, ∀ loaded ∈ loadedMember instruction.kind,
    ∀ right ∈ compoundRight (recordedTypes function p).length (codeBehind function p),
      ∀ ty ∈ (recordedTypes function p)[right]?, weak ty = false →
        ((recordedTypes function p)[loaded.1]?).map (memberType · loaded.2) ≠ some ty →
          ∀ target ∈ p.frame.values[loaded.1]?, ∀ handle ∈ objectHandle target,
            ∃ fields ∈ typing handle, fields.lookup loaded.2 = some ty

/-- What is stored into a member has the types that the object's types give the member. -/
def MemberFits : Prop :=
  ∀ instruction ∈ irInstruction function p, ∀ stored ∈ storedMember instruction.kind,
    ∀ target ∈ p.frame.values[stored.1]?, ∀ handle ∈ objectHandle target,
      ∀ fields ∈ typing handle, ∀ ty ∈ fields.lookup stored.2.1,
        Supplies typing function p stored.2.2 ty

/-- An object is known by the type of its literal, a repeated property keeps the type it has
    there, and any other type the object is known by gives its members types that they have. -/
def LiteralFits : Prop :=
  ∀ instruction ∈ irInstruction function p, ∀ literal ∈ objectLiteral instruction,
    literal.2 ∈ typing (nextHandle p.machine.heap) ∧
      literal.1.Pairwise (fun first second => first.1 = second.1 →
        ∀ ty ∈ (recordedTypes function p)[first.2]?, Supplies typing function p second.2 ty) ∧
      ∀ fields ∈ typing (nextHandle p.machine.heap), fields ≠ literal.2 →
        MembersHaveTypes typing fields (literalObject p.frame literal.1)

structure Respects : Prop where
  arguments : ArgumentsFit typing function p
  store : StoreFits typing function p
  addition : AdditionFits function p
  compound : CompoundFits typing function p
  member : MemberFits typing function p
  literal : LiteralFits typing function p

instance (v : ValueId) (ty : IrType) : Decidable (Supplies typing function p v ty) := by
  unfold Supplies
  infer_instance

instance : Decidable (ArgumentsFit typing function p) := by
  unfold ArgumentsFit
  infer_instance

instance : Decidable (StoreFits typing function p) := by
  unfold StoreFits
  infer_instance

instance : Decidable (AdditionFits function p) := by
  unfold AdditionFits
  infer_instance

instance : Decidable (CompoundFits typing function p) := by
  unfold CompoundFits
  infer_instance

instance : Decidable (MemberFits typing function p) := by
  unfold MemberFits
  infer_instance

instance : Decidable (LiteralFits typing function p) := by
  unfold LiteralFits
  infer_instance

instance : Decidable (Respects typing function p) :=
  decidable_of_iff (ArgumentsFit typing function p ∧ StoreFits typing function p ∧
      AdditionFits function p ∧ CompoundFits typing function p ∧ MemberFits typing function p ∧
      LiteralFits typing function p)
    ⟨fun ⟨h₁, h₂, h₃, h₄, h₅, h₆⟩ => ⟨h₁, h₂, h₃, h₄, h₅, h₆⟩,
      fun h => ⟨h.arguments, h.store, h.addition, h.compound, h.member, h.literal⟩⟩

end

/-- A typed function and what it is compiled to. -/
structure Translation (m : BytecodeModule) (function : IrFunction) (compiled : BytecodeFunction)
    (final : LocalSlots) : Prop where
  code : FunctionCode m function compiled final
  typed : TypedFunction function
  leaf : ∀ (j : ℕ) (block : IrBlock), j ≠ 0 → function.blocks[j]? = some block →
    ∀ i ∈ block.instructions, values i.kind = []
  numbered : Numbered 0 0 (firstCode function.blocks)
  size : ∀ block ∈ function.blocks, codeSize block.instructions < 2 ^ 32
  inside : ∀ block ∈ function.blocks, ∀ i ∈ block.instructions, ∀ k ∈ targets i.kind,
    k < function.blocks.length
  known : ∀ (j : ℕ) (block : IrBlock), function.blocks[j]? = some block → ∀ (k : ℕ) i name,
    block.instructions[k]? = some i → i.kind = .loadLocal name →
      name ∈ function.params.map IrParam.name ∨ StoresName name (block.instructions.take k)

/-- The types by which the variable is read from `p` on until it is stored. -/
def pendingReads (function : IrFunction) (p : Point ν) (name : String) : List IrType :=
  if p.block.id = 0 then
    readTypes name (laterReads function.blocks name) ((irCode function p).drop p.pc)
  else laterReads function.blocks name

/-- The variable has a value: it is a parameter, or the code in front of `p` stores it. -/
def Assigned (function : IrFunction) (p : Point ν) (name : String) : Prop :=
  name ∈ function.params.map IrParam.name ∨ StoresName name ((irCode function p).take p.pc)

structure TypedAt (typing : Typing) (function : IrFunction) (final : LocalSlots) (p : Point ν) :
    Prop where
  heap : Conforms typing p.machine.heap
  values : p.block.id = 0 → List.Forall₂ (HasType typing) (recordedTypes function p) p.frame.values
  locals : ∀ name, Assigned function p name → ∃ slot value, final.ids.lookup name = some slot ∧
    p.frame.locals[slot.toNat]? = some value ∧ ∀ ty ∈ pendingReads function p name,
      HasType typing ty value

section

variable {typing : Typing} {m : BytecodeModule} {function : IrFunction}
  {compiled : BytecodeFunction} {final : LocalSlots} {p : Point ν}

theorem irCode_first (hzero : p.block.id = 0) : irCode function p = firstCode function.blocks := by
  rw [irCode, hzero]
  rfl

theorem weak_hasType {ty : IrType} (h : weak ty = true) (value : RuntimeValue ν) :
    HasType typing ty value := by
  cases ty with
  | number | string | boolean | object => cases h
  | _ => rfl

/-- An instruction of a typed function, with the values in front of it. -/
structure Context (typing : Typing) (function : IrFunction) (p : Point ν)
    (instruction : IrInstruction) (types : List IrType) : Prop where
  tagged : ∃ rest, Tagged types rest instruction.kind instruction.ty ∧
    (values instruction.kind ≠ [] → rest = codeBehind function p)
  recorded : values instruction.kind ≠ [] → types = recordedTypes function p
  operand : ∀ v ∈ values instruction.kind, ∀ value, p.frame.value (.ofNat v) = .ok value →
    p.frame.values[v]? = some value
  typed : values instruction.kind ≠ [] →
    List.Forall₂ (HasType typing) (recordedTypes function p) p.frame.values
  size : (values instruction.kind).length < 2 ^ 32

theorem irBlock_of_instruction {instruction : IrInstruction}
    (hi : irInstruction function p = some instruction) :
    ∃ block, function.blocks[p.block.id.toNat]? = some block ∧
      irCode function p = block.instructions := by
  cases hfound : function.blocks[p.block.id.toNat]? with
  | some block =>
    refine ⟨block, rfl, ?_⟩
    rw [irCode, hfound]
    rfl
  | none =>
    rw [irInstruction, irCode, hfound] at hi
    cases hi

theorem Translation.assigned (h : Translation m function compiled final)
    {instruction : IrInstruction} (hi : irInstruction function p = some instruction) {name : String}
    (hkind : instruction.kind = .loadLocal name) : Assigned function p name := by
  obtain ⟨block, hblock, hcode⟩ := irBlock_of_instruction hi
  have hget : block.instructions[p.pc]? = some instruction := by
    rw [← hcode]
    exact hi
  rw [Assigned, hcode]
  exact h.known _ block hblock p.pc instruction name hget hkind

theorem Translation.context (h : Translation m function compiled final)
    (hat : TypedAt typing function final p) {instruction : IrInstruction}
    (hi : irInstruction function p = some instruction) :
    ∃ types, Context typing function p instruction types := by
  obtain ⟨block, hblock, hcode⟩ := irBlock_of_instruction hi
  have hmem : instruction ∈ block.instructions := by
    rw [← hcode]
    exact List.mem_of_getElem? hi
  have hsize := h.size block (List.mem_of_getElem? hblock)
  obtain ⟨before, after, hsplit⟩ := List.append_of_mem hmem
  rw [hsplit, codeSize_append, codeSize_cons] at hsize
  by_cases hzero : p.block.id = 0
  · have hfirst : irCode function p = firstCode function.blocks := irCode_first hzero
    have hk : (firstCode function.blocks)[p.pc]? = some instruction := by
      rw [← hfirst]
      exact hi
    have htagged := h.typed.typed.at hk
    have hnumbered := h.numbered.at hk
    rw [List.nil_append] at htagged
    have hrecorded : recordedTypes function p = resultTypes ((firstCode function.blocks).take p.pc) := by
      rw [recordedTypes, hfirst]
    have hbehind : codeBehind function p = (firstCode function.blocks).drop (p.pc + 1) := by
      rw [codeBehind, hfirst]
    refine ⟨_, ⟨_, htagged, fun _ => hbehind.symm⟩, fun _ => hrecorded.symm, ?_, fun _ => hat.values hzero,
      by omega⟩
    intro v hv value hvalue
    have hlt := (hnumbered.1 v hv).2
    have hle := results_take_le (firstCode function.blocks) p.pc
    have hbound : results (firstCode function.blocks) < 2 ^ 32 := by
      rw [← hfirst, hcode]
      have hresults := CompilerAcceptance.results_le_codeSize block.instructions
      have hall := h.size block (List.mem_of_getElem? hblock)
      omega
    have htoNat : (UInt32.ofNat v).toNat = v := UInt32.toNat_ofNat_of_lt' (by
      change v < 2 ^ 32
      omega)
    rw [Frame.value, htoNat] at hvalue
    cases hfound : p.frame.values[v]? with
    | none =>
      rw [hfound] at hvalue
      cases hvalue
    | some found =>
      rw [hfound] at hvalue
      cases hvalue
      rfl
  · have hne : p.block.id.toNat ≠ 0 := fun hnat => hzero (UInt32.toNat_inj.mp hnat)
    have hempty := h.leaf _ block hne hblock instruction hmem
    obtain ⟨⟨types, rest, htagged⟩, _⟩ := h.typed.blocks _ block hblock instruction hmem
    refine ⟨types, ⟨rest, htagged, fun hvalues => absurd hempty hvalues⟩,
      fun hvalues => absurd hempty hvalues, ?_, fun hvalues => absurd hempty hvalues, by omega⟩
    rw [hempty]
    exact fun _ hmem => absurd hmem List.not_mem_nil

theorem forall₂_hasType {types : List IrType} {values : List (RuntimeValue ν)}
    (h : List.Forall₂ (HasType typing) types values) {v : ℕ} {ty : IrType} {value : RuntimeValue ν}
    (hty : types[v]? = some ty) (hvalue : values[v]? = some value) : HasType typing ty value := by
  obtain ⟨found, hfound, hhas⟩ := CompiledCode.forall₂_getElem? h hvalue
  rw [hty] at hfound
  cases hfound
  exact hhas

theorem Context.operand_hasType {instruction : IrInstruction} {types : List IrType}
    (h : Context typing function p instruction types) {v : ValueId} (hv : v ∈ values instruction.kind)
    {value : RuntimeValue ν} (hfound : p.frame.values[v]? = some value) {ty : IrType}
    (hty : types[v]? = some ty) : HasType typing ty value := by
  have hne := List.ne_nil_of_mem hv
  rw [h.recorded hne] at hty
  exact forall₂_hasType (h.typed hne) hty hfound

theorem Context.supplies {instruction : IrInstruction} {types : List IrType}
    (h : Context typing function p instruction types) {v : ValueId} (hv : v ∈ values instruction.kind)
    {value : RuntimeValue ν} (hfound : p.frame.values[v]? = some value) {ty : IrType}
    (hsupplies : Supplies typing function p v ty) : HasType typing ty value := by
  by_cases hty : (recordedTypes function p)[v]? = some ty
  · exact forall₂_hasType (h.typed (List.ne_nil_of_mem hv)) hty hfound
  · exact hsupplies hty value hfound

section

variable [F64 ν]

theorem literal_hasType {constant : IrConst} {found : Constant} {types : List IrType}
    {rest : List IrInstruction} {ty : IrType} {value : RuntimeValue ν}
    (hliteral : CompiledOperands.literal constant = some found)
    (hvalue : valueFromConstant found = .ok value)
    (htagged : Tagged types rest (.loadConst constant) ty) : HasType typing ty value := by
  cases htagged with
  | silent h => cases h
  | weak h _ => exact weak_hasType h value
  | number =>
    cases hliteral
    rw [valueFromConstant] at hvalue
    split at hvalue
    · cases hvalue
      rfl
    · cases hvalue
  | string =>
    cases hliteral
    cases hvalue
    rfl
  | boolean =>
    cases hliteral
    cases hvalue
    rfl
  | object => cases hliteral

omit [F64 ν] in
theorem symbol_of_nameAt {index : UInt32} {name : String} (h : NameAt m index name) :
    symbol m index = .ok name := by
  rw [symbol, constant, h]
  rfl

omit [F64 ν] in
theorem objectFields_eq {instruction : Instruction} {count : UInt32} {frame : Frame ν}
    {pairs : List (UInt32 × UInt32)} {properties : List (String × ValueId)}
    (hoperands : instruction.operands = count :: BytecodeVerifierFacts.flattenPairs pairs)
    (hpairs : List.Forall₂ (fun property pair =>
      NameAt m pair.1 property.1 ∧ pair.2 = .ofNat property.2) properties pairs)
    (hvalues : ∀ property ∈ properties, ∀ value, frame.value (.ofNat property.2) = .ok value →
      frame.values[property.2]? = some value) (n : ℕ) {k : ℕ} (hk : k + n = pairs.length)
    {object found : Std.TreeMap String (RuntimeValue ν)}
    (h : objectFields m instruction frame (List.range' k n) object = .ok found) :
    found = (properties.drop k).foldl (fun object property =>
        object.insert property.1 (frame.values[property.2]?.getD .undefined)) object ∧
      ∀ property ∈ properties.drop k, ∃ value, frame.values[property.2]? = some value := by
  have hlength := hpairs.length_eq
  induction n generalizing k object with
  | zero =>
    cases h
    rw [List.drop_eq_nil_of_le (by omega)]
    exact ⟨rfl, nofun⟩
  | succ n ih =>
    have hlt : k < pairs.length := by omega
    have hlt' : k < properties.length := by omega
    obtain ⟨hname, hvalue⟩ := hpairs.get hlt' hlt
    simp only [List.get_eq_getElem] at hname hvalue
    obtain ⟨hnameOperand, hvalueOperand⟩ := VerifiedReferences.flattenPairs_getElem count hlt
    rw [← hoperands, ← operand_eq_ok] at hnameOperand hvalueOperand
    rw [List.range'_succ, objectFields] at h
    obtain ⟨field, hfield, hrest⟩ := Except.bind_eq_ok.mp h
    have hfield' : field.1 = properties[k].1 ∧ frame.value (.ofNat properties[k].2) = .ok field.2 := by
      have hsymbol := symbol_of_nameAt hname
      rw [objectField, hnameOperand, hvalueOperand] at hfield
      change (constant m pairs[k].1 >>= fun nameConstant => symbolName nameConstant >>= fun name =>
        frame.value pairs[k].2 >>= fun value => pure (name, value)) = _ at hfield
      obtain ⟨nameConstant, hconstant, hfield⟩ := Except.bind_eq_ok.mp hfield
      rw [symbol, hconstant] at hsymbol
      change symbolName nameConstant = _ at hsymbol
      obtain ⟨name, hfound, hfield⟩ := Except.bind_eq_ok.mp hfield
      obtain ⟨value, hread, hfield⟩ := Except.bind_eq_ok.mp hfield
      cases hfield
      rw [hsymbol] at hfound
      cases hfound
      rw [← hvalue]
      exact ⟨rfl, hread⟩
    have hread := hvalues _ (List.getElem_mem hlt') _ hfield'.2
    obtain ⟨rfl, hbehind⟩ := ih (by omega) hrest
    rw [List.drop_eq_getElem_cons hlt', List.foldl_cons, List.forall_mem_cons, hread, hfield'.1]
    exact ⟨rfl, ⟨_, rfl⟩, hbehind⟩

omit [F64 ν] in
/-- A member of the built object has a type that all values stored under its name have. -/
theorem literalObject_hasType {frame : Frame ν} {name : String} {ty : IrType}
    {properties : List (String × ValueId)} {object : Std.TreeMap String (RuntimeValue ν)}
    (hvalues : ∀ property ∈ properties, property.1 = name →
      HasType typing ty (frame.values[property.2]?.getD .undefined))
    (hfound : HasType typing ty (memberValue object name) ∨ ∃ property ∈ properties, property.1 = name) :
    HasType typing ty (memberValue (properties.foldl (fun object property =>
      object.insert property.1 (frame.values[property.2]?.getD .undefined)) object) name) := by
  induction properties generalizing object with
  | nil =>
    rcases hfound with hfound | ⟨_, hmem, _⟩
    · exact hfound
    · cases hmem
  | cons property properties ih =>
    obtain ⟨hfirst, hrest⟩ := List.forall_mem_cons.mp hvalues
    refine ih hrest ?_
    rw [memberValue, Std.TreeMap.getElem?_insert]
    by_cases hname : property.1 = name
    · refine .inl ?_
      rw [if_pos (hname ▸ Std.ReflCmp.compare_self)]
      exact hfirst hname
    · rw [if_neg fun hcompare => hname (Std.LawfulEqCmp.eq_of_compare hcompare)]
      rcases hfound with hobject | ⟨other, hmem, hother⟩
      · exact .inl hobject
      · rcases List.mem_cons.mp hmem with rfl | hmem
        · exact absurd hother hname
        · exact .inr ⟨other, hmem, hother⟩

omit [F64 ν] in
theorem literal_values {frame : Frame ν} {types : List IrType}
    {properties : List (String × ValueId)} {fields : List (String × IrType)}
    (hfields : List.Forall₂ (fun property field => property.1 = field.1 ∧
      types[property.2]? = some field.2) properties fields)
    (htyped : ∀ property ∈ properties, ∀ ty, types[property.2]? = some ty →
      HasType typing ty (frame.values[property.2]?.getD .undefined))
    (hrepeated : properties.Pairwise fun first second => first.1 = second.1 →
      ∀ ty, types[first.2]? = some ty → HasType typing ty (frame.values[second.2]?.getD .undefined))
    {name : String} {ty : IrType} (hlookup : fields.lookup name = some ty) :
    (∃ property ∈ properties, property.1 = name) ∧ ∀ property ∈ properties, property.1 = name →
      HasType typing ty (frame.values[property.2]?.getD .undefined) := by
  induction hfields with
  | nil => cases hlookup
  | @cons property field properties fields hfield _ ih =>
    obtain ⟨hfirst, hrest⟩ := List.forall_mem_cons.mp htyped
    obtain ⟨hbehind, hpairs⟩ := List.pairwise_cons.mp hrepeated
    rw [List.lookup_cons] at hlookup
    by_cases hname : name = field.1
    · rw [show (name == field.1) = true from beq_iff_eq.mpr hname] at hlookup
      cases hlookup
      refine ⟨⟨property, List.mem_cons_self, hfield.1.trans hname.symm⟩, ?_⟩
      intro other hmem hother
      rcases List.mem_cons.mp hmem with rfl | hmem
      · exact hfirst _ hfield.2
      · exact hbehind other hmem ((hfield.1.trans hname.symm).trans hother.symm) _ hfield.2
    · rw [show (name == field.1) = false from beq_false_of_ne hname] at hlookup
      obtain ⟨⟨other, hmem, hother⟩, hall⟩ := ih hrest hpairs hlookup
      refine ⟨⟨other, List.mem_cons_of_mem _ hmem, hother⟩, List.forall_mem_cons.mpr ⟨?_, hall⟩⟩
      intro hsame
      exact absurd (hsame.symm.trans hfield.1) hname

theorem binary_hasType {op : BinaryOperator} {heap : Store ν} {left right value : RuntimeValue ν}
    (h : binary (binaryOpCode (binaryOp op)) heap left right = .ok value)
    (hadd : op = .add → isString left = false ∧ isString right = false) :
    HasType typing (binaryType op) value := by
  cases op with
  | add => exact add_number h (hadd rfl).1 (hadd rfl).2
  | subtract | multiply | divide | remainder =>
    obtain ⟨a, b, _, _, rfl⟩ := arithmetic_ok h
    rfl
  | less | lessEqual | greater | greaterEqual =>
    obtain ⟨b, rfl⟩ := comparison_ok h
    rfl
  | equal | strictEqual | notEqual | strictNotEqual | logicalAnd | logicalOr =>
    cases h
    rfl
  | nullishCoalesce => rfl

theorem compound_hasType {operator : AssignmentOperator} {heap : Store ν}
    {left right value : RuntimeValue ν} {ty : IrType}
    (h : binary (binaryOpCode (assignmentBinaryOp operator)) heap left right = .ok value)
    (hleft : HasType typing ty left) (hright : HasType typing ty right) :
    HasType typing ty value := by
  cases operator with
  | assign | addAssign => exact HasType.add h hleft hright
  | subtractAssign | multiplyAssign | divideAssign | remainderAssign =>
    exact HasType.arithmetic h hright

omit [F64 ν] in
theorem pushValue_ne (frame : Frame ν) (value : RuntimeValue ν) : frame ≠ frame.pushValue value := by
  intro h
  have hlength := congrArg (fun frame : Frame ν => frame.values.length) h
  simp [Frame.pushValue] at hlength

omit [F64 ν] in
theorem pushValue_inj {frame : Frame ν} {value value' : RuntimeValue ν}
    (h : frame.pushValue value = frame.pushValue value') : value = value' := by
  have hvalues := congrArg Frame.values h
  exact (List.cons.inj (List.append_cancel_left hvalues)).1

omit [F64 ν] in
theorem allocate_nextHandle (heap : Store ν) (stored : HeapValue ν) :
    (heap.allocate stored).1 = nextHandle heap := by
  rw [GcHeap.allocate_handle, GcHeap.allocate_generationAt]
  rfl

/-- What an instruction leaves behind: the heap, and the value if there is one. -/
structure Leaves (typing : Typing) (frame : Frame ν) (ty : IrType) (frame' : Frame ν)
    (t : Machine ν) : Prop where
  heap : Conforms typing t.heap
  value : ∀ value, frame' = frame.pushValue value → HasType typing ty value

omit [F64 ν] in
theorem Leaves.pushed {frame : Frame ν} {ty : IrType} {value : RuntimeValue ν} {t : Machine ν}
    (hheap : Conforms typing t.heap) (hvalue : HasType typing ty value) :
    Leaves typing frame ty (frame.pushValue value) t :=
  ⟨hheap, fun _ h => pushValue_inj h ▸ hvalue⟩

section

variable {instruction : IrInstruction} {types : List IrType} {flow : ControlFlow ν}
  {frame : Frame ν} {t : Machine ν}

theorem leaves_object {properties : List (String × ValueId)} {pairs : List (UInt32 × UInt32)}
    {tag : TypeTag} {src : UInt32} {call : Call ν}
    (hcontext : Context typing function p instruction types) (hheap : Conforms typing p.machine.heap)
    (hliteral : LiteralFits typing function p) (hi : irInstruction function p = some instruction)
    (hkind : instruction.kind = .loadConst (.object properties))
    (hpairs : List.Forall₂ (fun property pair =>
      NameAt m pair.1 property.1 ∧ pair.2 = .ofNat property.2) properties pairs)
    (hexec : executeInstruction m call ⟨.buildObject, .ofNat properties.length ::
        BytecodeVerifierFacts.flattenPairs pairs, tag, src⟩ p.frame p.machine =
      (.ok (flow, frame), t)) :
    Leaves typing p.frame instruction.ty frame t := by
  have hmem : ∀ property ∈ properties, property.2 ∈ values instruction.kind := by
    intro property hproperty
    rw [hkind]
    exact List.mem_map_of_mem hproperty
  have hsize := hcontext.size
  rw [hkind] at hsize
  have hcount : (UInt32.ofNat properties.length).toNat = properties.length :=
    UInt32.toNat_ofNat_of_lt' (by simpa [values] using hsize)
  simp only [executeInstruction, FailState.bind_eq_ok, FailState.pure_run, Prod.mk.injEq,
    Except.ok.injEq, FailState.lift_run] at hexec
  obtain ⟨count, _, ⟨hoperand, rfl⟩, object, _, ⟨hobject, rfl⟩, handle, s, hallocate, ⟨rfl, rfl⟩, rfl⟩ := hexec
  cases hallocate
  cases hoperand
  have hread : ∀ property ∈ properties, ∀ value, p.frame.value (.ofNat property.2) = .ok value →
      p.frame.values[property.2]? = some value :=
    fun property hproperty => hcontext.operand _ (hmem property hproperty)
  rw [hcount, List.range_eq_range'] at hobject
  obtain ⟨hbuilt, hvalues⟩ := objectFields_eq rfl hpairs hread _
    ((Nat.zero_add _).trans hpairs.length_eq) hobject
  rw [List.drop_zero] at hbuilt hvalues
  change object = literalObject p.frame properties at hbuilt
  -- Only a type of an object is the tag of an object literal.
  obtain ⟨rest, htagged, _⟩ := hcontext.tagged
  obtain ⟨fields, hty, hfields⟩ : ∃ fields, instruction.ty = .object fields ∧
      List.Forall₂ (fun property field => property.1 = field.1 ∧
        types[property.2]? = some field.2) properties fields := by
    rw [hkind] at htagged
    generalize instruction.ty = ty at htagged
    cases htagged with
    | silent h => cases h
    | weak _ h => cases h
    | object h => exact ⟨_, rfl, h⟩
  obtain ⟨hknown, hrepeated, hothers⟩ := hliteral instruction hi (properties, fields) (by
    rw [objectLiteral, hkind, hty]
    rfl)
  have htyped : ∀ property ∈ properties, ∀ ty, types[property.2]? = some ty →
      HasType typing ty (p.frame.values[property.2]?.getD .undefined) := by
    intro property hproperty ty htype
    obtain ⟨value, hvalue⟩ := hvalues property hproperty
    rw [hvalue]
    exact hcontext.operand_hasType (hmem property hproperty) hvalue htype
  have hsame : properties.Pairwise fun first second => first.1 = second.1 →
      ∀ ty, types[first.2]? = some ty →
        HasType typing ty (p.frame.values[second.2]?.getD .undefined) := by
    refine List.Pairwise.imp_of_mem ?_ hrepeated
    intro first second hfirst hsecond hsupplies hname ty htype
    rw [hcontext.recorded (List.ne_nil_of_mem (hmem first hfirst))] at htype
    obtain ⟨value, hvalue⟩ := hvalues second hsecond
    rw [hvalue]
    exact hcontext.supplies (hmem second hsecond) hvalue (hsupplies hname ty htype)
  have hmembers : MembersHaveTypes typing fields object := by
    intro name ty hlookup
    obtain ⟨hfound, hall⟩ := literal_values hfields htyped hsame hlookup
    rw [hbuilt]
    exact literalObject_hasType hall (.inr hfound)
  have hhandle := allocate_nextHandle p.machine.heap (.object object)
  refine Leaves.pushed (hheap.allocate ?_) ?_
  · intro found other hfound hother
    cases hfound
    rw [hhandle] at hother
    by_cases hsameFields : other = fields
    · rw [hsameFields]
      exact hmembers
    · rw [hbuilt]
      exact hothers other hother hsameFields
  · rw [hty, hasType_object, hhandle]
    exact ⟨_, rfl, hknown⟩

omit [F64 ν] in
theorem loadMember_ok {heap : Store ν} {target value : RuntimeValue ν} {property : String}
    (h : loadMember heap target property = .ok value) :
    ∃ handle object, target = .object handle ∧ heap.get handle = some (.object object) ∧
      value = memberValue object property := by
  cases target with
  | object handle =>
    rw [loadMember] at h
    cases hget : heap.get handle with
    | none =>
      rw [hget] at h
      cases h
    | some found =>
      rw [hget] at h
      cases found with
      | array values => cases h
      | object object =>
        cases h
        exact ⟨handle, object, rfl, hget, rfl⟩
  | _ => cases h

omit [F64 ν] in
theorem loadMember_hasType {heap : Store ν} {target value : RuntimeValue ν} {property : String}
    {objectType : IrType} (hheap : Conforms typing heap) (htarget : HasType typing objectType target)
    (h : loadMember heap target property = .ok value) :
    HasType typing (memberType objectType property) value := by
  cases objectType with
  | object fields =>
    obtain ⟨handle, object, rfl, hget, rfl⟩ := loadMember_ok h
    obtain ⟨other, hother, hfields⟩ := hasType_object.mp htarget
    cases hother
    rw [memberType]
    cases hlookup : fields.lookup property with
    | none => rfl
    | some ty => exact hheap handle object fields hget hfields property ty hlookup
  | _ => rfl

theorem leaves_loadMember {object : ValueId} {property : String} {index : UInt32} {tag : TypeTag}
    {src : UInt32} {call : Call ν} (hcontext : Context typing function p instruction types)
    (hheap : Conforms typing p.machine.heap) (hcompound : CompoundFits typing function p)
    (hi : irInstruction function p = some instruction)
    (hkind : instruction.kind = .loadMember object property) (hproperty : NameAt m index property)
    (hexec : executeInstruction m call ⟨.loadMember, [.ofNat object, index], tag, src⟩ p.frame
      p.machine = (.ok (flow, frame), t)) :
    Leaves typing p.frame instruction.ty frame t := by
  have hmem : object ∈ values instruction.kind := by
    rw [hkind]
    exact List.mem_cons_self
  simp only [executeInstruction, FailState.bind_eq_ok, FailState.pure_run, Prod.mk.injEq,
    Except.ok.injEq, FailState.lift_run, FailState.read_run] at hexec
  obtain ⟨target, _, ⟨htarget, rfl⟩, name, _, ⟨hname, rfl⟩, _, _, ⟨rfl, rfl⟩, value, _,
    ⟨hvalue, rfl⟩, ⟨rfl, rfl⟩, rfl⟩ := hexec
  change p.frame.value (.ofNat object) = _ at htarget
  change symbol m index = _ at hname
  rw [symbol_of_nameAt hproperty] at hname
  cases hname
  have hfound := hcontext.operand object hmem target htarget
  have hmember {objectType : IrType} (htype : types[object]? = some objectType) :
      HasType typing (memberType objectType property) value :=
    loadMember_hasType hheap (hcontext.operand_hasType hmem hfound htype) hvalue
  refine Leaves.pushed hheap ?_
  obtain ⟨rest, htagged, hrest⟩ := hcontext.tagged
  rw [hkind] at htagged
  generalize hty : instruction.ty = ty at htagged
  cases htagged with
  | silent h => cases h
  | weak h _ => exact weak_hasType h value
  | loadMember htype => exact hmember htype
  | @compoundLoad _ right _ _ hright htype =>
    rw [hrest (List.ne_nil_of_mem hmem), hcontext.recorded (List.ne_nil_of_mem hmem)] at hright
    rw [hcontext.recorded (List.ne_nil_of_mem hmem)] at htype hmember
    by_cases hsame : ((recordedTypes function p)[object]?).map (memberType · property) = some ty
    · obtain ⟨objectType, hobjectType, rfl⟩ := Option.map_eq_some_iff.mp hsame
      exact hmember hobjectType
    by_cases hweak : weak ty = true
    · exact weak_hasType hweak value
    · obtain ⟨handle, fields, rfl, hget, rfl⟩ := loadMember_ok hvalue
      obtain ⟨known, hknown, hlookup⟩ := hcompound instruction hi (object, property)
        (by rw [hkind]; rfl) right hright ty htype (Bool.not_eq_true _ ▸ hweak) hsame _ hfound handle
        rfl
      exact hheap handle fields known hget hknown property ty hlookup

theorem leaves_storeMember {object value : ValueId} {property : String} {index : UInt32}
    {tag : TypeTag} {src : UInt32} {call : Call ν}
    (hcontext : Context typing function p instruction types) (hheap : Conforms typing p.machine.heap)
    (hmember : MemberFits typing function p) (hi : irInstruction function p = some instruction)
    (hkind : instruction.kind = .storeMember object property value)
    (hproperty : NameAt m index property)
    (hexec : executeInstruction m call ⟨.storeMember, [.ofNat object, index, .ofNat value], tag, src⟩
      p.frame p.machine = (.ok (flow, frame), t)) :
    Leaves typing p.frame instruction.ty frame t := by
  have hobjectMem : object ∈ values instruction.kind := by
    rw [hkind]
    exact List.mem_cons_self
  have hvalueMem : value ∈ values instruction.kind := by
    rw [hkind]
    exact List.mem_cons_of_mem _ List.mem_cons_self
  simp only [executeInstruction, FailState.bind_eq_ok, FailState.pure_run, Prod.mk.injEq,
    Except.ok.injEq, FailState.lift_run, FailState.read_run] at hexec
  obtain ⟨target, _, ⟨htarget, rfl⟩, name, _, ⟨hname, rfl⟩, stored, _, ⟨hstored, rfl⟩, _, _,
    ⟨rfl, rfl⟩, heap, _, ⟨hheap', rfl⟩, _, _, hset, ⟨rfl, rfl⟩, rfl⟩ := hexec
  cases hset
  change p.frame.value (.ofNat object) = _ at htarget
  change symbol m index = _ at hname
  change p.frame.value (.ofNat value) = _ at hstored
  rw [symbol_of_nameAt hproperty] at hname
  cases hname
  have htargetFound := hcontext.operand object hobjectMem target htarget
  have hstoredFound := hcontext.operand value hvalueMem stored hstored
  refine ⟨?_, fun found h => absurd h (pushValue_ne _ _)⟩
  cases target with
  | object handle =>
    rw [storeMember, GcHeap.getMut] at hheap'
    cases hget : p.machine.heap.get handle with
    | none =>
      rw [hget] at hheap'
      cases hheap'
    | some found =>
      rw [hget] at hheap'
      cases found with
      | array values => cases hheap'
      | object fields =>
        cases hheap'
        refine hheap.set hget fun other ty hother hlookup => ?_
        exact hcontext.supplies hvalueMem hstoredFound
          (hmember instruction hi (object, property, value) (by rw [hkind]; rfl) _ htargetFound handle
            rfl other hother ty hlookup)
  | _ => cases hheap'

theorem leaves_binary {op : IrBinaryOp} {left right : ValueId} {tag : TypeTag} {src : UInt32}
    {call : Call ν} (hcontext : Context typing function p instruction types)
    (hheap : Conforms typing p.machine.heap) (haddition : AdditionFits function p)
    (hi : irInstruction function p = some instruction)
    (hkind : instruction.kind = .binary op left right)
    (hexec : executeInstruction m call ⟨.binary, [binaryOpCode op, .ofNat left, .ofNat right], tag,
      src⟩ p.frame p.machine = (.ok (flow, frame), t)) :
    Leaves typing p.frame instruction.ty frame t := by
  have hleftMem : left ∈ values instruction.kind := by
    rw [hkind]
    exact List.mem_cons_self
  have hrightMem : right ∈ values instruction.kind := by
    rw [hkind]
    exact List.mem_cons_of_mem _ List.mem_cons_self
  simp only [executeInstruction, FailState.bind_eq_ok, FailState.pure_run, Prod.mk.injEq,
    Except.ok.injEq, FailState.lift_run, FailState.read_run] at hexec
  obtain ⟨first, _, ⟨hfirst, rfl⟩, second, _, ⟨hsecond, rfl⟩, code, _, ⟨hcode, rfl⟩, _, _,
    ⟨rfl, rfl⟩, value, _, ⟨hvalue, rfl⟩, ⟨rfl, rfl⟩, rfl⟩ := hexec
  change p.frame.value (.ofNat left) = _ at hfirst
  change p.frame.value (.ofNat right) = _ at hsecond
  cases hcode
  have hfirstFound := hcontext.operand left hleftMem first hfirst
  have hsecondFound := hcontext.operand right hrightMem second hsecond
  refine Leaves.pushed hheap ?_
  obtain ⟨rest, htagged, _⟩ := hcontext.tagged
  rw [hkind] at htagged
  generalize hty : instruction.ty = ty at htagged
  cases htagged with
  | silent h => cases h
  | weak h _ => exact weak_hasType h value
  | @binary operator =>
    refine binary_hasType hvalue fun hadd => ?_
    have hstrings := haddition instruction hi (left, right) (by
      rw [numberAddition, hkind, hty, hadd]
      rfl)
    exact ⟨hstrings left List.mem_cons_self first hfirstFound,
      hstrings right (List.mem_cons_of_mem _ List.mem_cons_self) second hsecondFound⟩
  | compound hleft hright =>
    exact compound_hasType hvalue (hcontext.operand_hasType hleftMem hfirstFound hleft)
      (hcontext.operand_hasType hrightMem hsecondFound hright)

theorem leaves_literal {constant : IrConst} {found : Constant} {index : UInt32} {tag : TypeTag}
    {src : UInt32} {call : Call ν} (hcontext : Context typing function p instruction types)
    (hheap : Conforms typing p.machine.heap) (hkind : instruction.kind = .loadConst constant)
    (hliteral : CompiledOperands.literal constant = some found)
    (hindex : m.constants[index.toNat]? = some found)
    (hexec : executeInstruction m call ⟨.loadConst, [index], tag, src⟩ p.frame p.machine =
      (.ok (flow, frame), t)) :
    Leaves typing p.frame instruction.ty frame t := by
  simp only [executeInstruction, FailState.bind_eq_ok, FailState.pure_run, Prod.mk.injEq,
    Except.ok.injEq, FailState.lift_run] at hexec
  obtain ⟨loaded, _, ⟨hloaded, rfl⟩, value, _, ⟨hvalue, rfl⟩, ⟨rfl, rfl⟩, rfl⟩ := hexec
  change Interpreter.constant m index = _ at hloaded
  rw [Interpreter.constant, hindex] at hloaded
  cases hloaded
  obtain ⟨rest, htagged, _⟩ := hcontext.tagged
  rw [hkind] at htagged
  exact .pushed hheap (literal_hasType hliteral hvalue htagged)

theorem leaves_array {elements : List ValueId} {operands : List UInt32} {tag : TypeTag}
    {src : UInt32} {call : Call ν} (hcontext : Context typing function p instruction types)
    (hheap : Conforms typing p.machine.heap)
    (hkind : instruction.kind = .loadConst (.array elements))
    (hexec : executeInstruction m call ⟨.buildArray, operands, tag, src⟩ p.frame p.machine =
      (.ok (flow, frame), t)) :
    Leaves typing p.frame instruction.ty frame t := by
  simp only [executeInstruction, FailState.bind_eq_ok, FailState.pure_run, Prod.mk.injEq,
    Except.ok.injEq, FailState.lift_run] at hexec
  obtain ⟨count, _, ⟨_, rfl⟩, built, _, ⟨_, rfl⟩, handle, s, hallocate, ⟨rfl, rfl⟩, rfl⟩ := hexec
  cases hallocate
  obtain ⟨rest, htagged, _⟩ := hcontext.tagged
  rw [hkind] at htagged
  generalize instruction.ty = ty at htagged
  refine .pushed (hheap.allocate fun _ _ hobject => by cases hobject) ?_
  cases htagged with
  | silent h => cases h
  | weak h _ => exact weak_hasType h _

omit [F64 ν] in
theorem mem_pendingReads {name : String} (hi : irInstruction function p = some instruction)
    (hkind : instruction.kind = .loadLocal name) : instruction.ty ∈ pendingReads function p name := by
  have hlt := (List.getElem?_eq_some_iff.mp hi).1
  have hget := (List.getElem?_eq_some_iff.mp hi).2
  by_cases hzero : p.block.id = 0
  · rw [pendingReads, if_pos hzero, List.drop_eq_getElem_cons hlt, hget, readTypes, if_pos hkind]
    exact List.mem_cons_self
  · rw [pendingReads, if_neg hzero]
    have hne : p.block.id.toNat ≠ 0 := fun hnat => hzero (UInt32.toNat_inj.mp hnat)
    obtain ⟨block, hblock, hcode⟩ := irBlock_of_instruction hi
    have hmem : instruction ∈ block.instructions := by
      rw [← hcode]
      exact List.mem_of_getElem? hi
    refine List.mem_flatMap.mpr ⟨block, ?_, List.mem_filterMap.mpr ⟨instruction, hmem, if_pos hkind⟩⟩
    refine List.mem_of_getElem? (i := p.block.id.toNat - 1) ?_
    rw [List.getElem?_tail, Nat.sub_add_cancel (Nat.pos_of_ne_zero hne)]
    exact hblock

theorem leaves_loadLocal {name : String} {slot : UInt32} {tag : TypeTag} {src : UInt32}
    {call : Call ν} (hat : TypedAt typing function final p)
    (hi : irInstruction function p = some instruction) (hkind : instruction.kind = .loadLocal name)
    (hassigned : Assigned function p name) (hslot : final.ids.lookup name = some slot)
    (hexec : executeInstruction m call ⟨.loadLocal, [slot], tag, src⟩ p.frame p.machine =
      (.ok (flow, frame), t)) :
    Leaves typing p.frame instruction.ty frame t := by
  simp only [executeInstruction, FailState.bind_eq_ok, FailState.pure_run, Prod.mk.injEq,
    Except.ok.injEq, FailState.lift_run] at hexec
  obtain ⟨value, _, ⟨hvalue, rfl⟩, ⟨rfl, rfl⟩, rfl⟩ := hexec
  obtain ⟨slot', found, hslot', hfound, htypes⟩ := hat.locals name hassigned
  rw [hslot] at hslot'
  cases hslot'
  change p.frame.loadLocal slot = _ at hvalue
  rw [Frame.loadLocal, hfound] at hvalue
  cases hvalue
  exact .pushed hat.heap (htypes _ (mem_pendingReads hi hkind))

theorem leaves_silent {compiledInstruction : Instruction} {call : Call ν} {ty : IrType}
    (hheap : Conforms typing p.machine.heap)
    (hop : compiledInstruction.opcode ∈ [Opcode.storeLocal, .branch, .jump, .return])
    (hexec : executeInstruction m call compiledInstruction p.frame p.machine =
      (.ok (flow, frame), t)) :
    Leaves typing p.frame ty frame t := by
  have hsilent : definesValue compiledInstruction.opcode = false := by
    revert hop
    cases compiledInstruction.opcode <;> decide
  have hmachine : t = p.machine := by
    obtain ⟨opcode, operands, tag, src⟩ := compiledInstruction
    simp only [List.mem_cons, List.not_mem_nil, or_false] at hop
    rcases hop with rfl | rfl | rfl | rfl
    · simp only [executeInstruction, FailState.bind_eq_ok, FailState.pure_run, Prod.mk.injEq,
        FailState.lift_run] at hexec
      obtain ⟨_, _, ⟨_, rfl⟩, _, _, ⟨_, rfl⟩, _, rfl⟩ := hexec
      rfl
    · simp only [executeInstruction, FailState.bind_eq_ok, FailState.pure_run, Prod.mk.injEq,
        FailState.lift_run] at hexec
      obtain ⟨_, _, ⟨_, rfl⟩, _, _, ⟨_, rfl⟩, _, rfl⟩ := hexec
      rfl
    · simp only [executeInstruction, FailState.bind_eq_ok, FailState.pure_run, Prod.mk.injEq,
        FailState.lift_run] at hexec
      obtain ⟨_, _, ⟨_, rfl⟩, _, rfl⟩ := hexec
      rfl
    · cases operands with
      | nil =>
        cases hexec
        rfl
      | cons value operands =>
        simp only [executeInstruction, FailState.bind_eq_ok, FailState.pure_run, Prod.mk.injEq,
          FailState.lift_run] at hexec
        obtain ⟨_, _, ⟨_, rfl⟩, _, rfl⟩ := hexec
        rfl
  refine ⟨hmachine ▸ hheap, fun value h => ?_⟩
  have hvalues : frame.values = p.frame.values := by
    cases executeInstruction_effect hexec with
    | push hdefines _ =>
      rw [hsilent] at hdefines
      cases hdefines
    | _ => rfl
  rw [h] at hvalues
  simp [Frame.pushValue] at hvalues

theorem executes_leaves {compiledInstruction : Instruction} {call : Call ν}
    (htranslation : Translation m function compiled final)
    (hat : TypedAt typing function final p) (hrespects : Respects typing function p)
    (hi : irInstruction function p = some instruction)
    (hallotted : Allotted m final instruction compiledInstruction)
    (hop : compiledInstruction.opcode ≠ .call)
    (hexec : executeInstruction m call compiledInstruction p.frame p.machine =
      (.ok (flow, frame), t)) :
    Leaves typing p.frame instruction.ty frame t := by
  obtain ⟨types, hcontext⟩ := htranslation.context hat hi
  obtain ⟨slots, hkeeps, hrefers⟩ := hallotted.refers
  obtain ⟨opcode, operands, tag, src⟩ := compiledInstruction
  generalize hkind : instruction.kind = kind at hkeeps hrefers
  cases hrefers with
  | literal hliteral hindex => exact leaves_literal hcontext hat.heap hkind hliteral hindex hexec
  | object hpairs => exact leaves_object hcontext hat.heap hrespects.literal hi hkind hpairs hexec
  | array => exact leaves_array hcontext hat.heap hkind hexec
  | @loadLocal name =>
    exact leaves_loadLocal hat hi hkind (htranslation.assigned hi hkind)
      (hkeeps name _ (localId_lookup name slots)) hexec
  | loadMember hproperty =>
    exact leaves_loadMember hcontext hat.heap hrespects.compound hi hkind hproperty hexec
  | storeMember hproperty =>
    exact leaves_storeMember hcontext hat.heap hrespects.member hi hkind hproperty hexec
  | binary => exact leaves_binary hcontext hat.heap hrespects.addition hi hkind hexec
  | call => exact absurd rfl hop
  | storeLocal | branch | jump | «return» => exact leaves_silent hat.heap (by simp) hexec

end

end

end

end Tsvm.TypedSteps
