import Tsvm.CompiledSlots
import Tsvm.LoweredChecks
import Tsvm.Pipeline

set_option autoImplicit false

/-!
# When the verifier accepts a compiled program

In block 0 the verifier counts values and locals as the lowerer and the compiler
do. In every other block it starts from zero again, so it rejects each use of a
value, and it only knows the parameters.
-/
namespace Tsvm.CompilerAcceptance
open Bytecode BytecodeVerifier BytecodeVerifierFacts Ir Compilation Lowering LoweringCode
  LoweringBlocks LoweredChecks CompiledOperands CompiledSlots SourceChecks Parsing Semantic Pipeline

theorem toNat_ofNat {n : ℕ} (h : n < 2 ^ 32) : (UInt32.ofNat n).toNat = n :=
  UInt32.toNat_ofNat_of_lt' h

theorem typeTag_eq_unknown {ty : IrType} : typeTag ty = .unknown ↔ ty.isUnknown = true := by
  cases ty <;> simp [typeTag, IrType.isUnknown]

theorem flattenPairs_injective {first second : List (UInt32 × UInt32)}
    (h : flattenPairs first = flattenPairs second) : first = second := by
  have hchunks := congrArg chunkPairs h
  rw [chunkPairs_flattenPairs, chunkPairs_flattenPairs] at hchunks
  refine List.map_injective_iff.mpr (fun p q hpq => ?_) hchunks
  simp only [Prod.mk.injEq, Option.some.injEq] at hpq
  exact Prod.ext hpq.1 hpq.2

/-- What the verifier asks of a compiled instruction, on the instruction it comes from. -/
structure Admits (ids : List UInt32) (slots : LocalSlots) (kind : IrInstructionKind) (ty : IrType)
    (s : BlockState) : Prop where
  values : ∀ v ∈ values kind, UInt32.ofNat v ∈ s.definedValues
  load : ∀ name, kind = .loadLocal name → slotOf slots name < s.localCount
  store : ∀ name value, kind = .storeLocal name value → slotOf slots name ≤ s.localCount
  operator : ∀ op left right, kind = .binary op left right → ty.isUnknown = false
  targets : ∀ t ∈ targets kind, UInt32.ofNat t ∈ ids

def stateAfter (slots : LocalSlots) (kind : IrInstructionKind) (s : BlockState) : BlockState :=
  match kind with
  | .storeLocal name _ => BlockState.store s (slotOf slots name)
  | kind => if produces kind then BlockState.define s else s

section

variable {m : BytecodeModule} {ids : List UInt32} {slots : LocalSlots} {kind : IrInstructionKind}
  {opcode : Opcode} {operands : List UInt32} {s t : BlockState}

theorem NameAt.constantIndex {index : UInt32} {name : String} (h : NameAt m index name) :
    ConstantIndex m index := (List.getElem?_eq_some_iff.mp h).1

theorem literal_values {constant : IrConst} {found : Constant} (h : literal constant = some found) :
    values (.loadConst constant) = [] := by
  cases constant with
  | object properties => cases h
  | array elements => cases h
  | _ => rfl

theorem pairs_checked {defined : Finset UInt32} {properties : List (String × ValueId)}
    {pairs : List (UInt32 × UInt32)} (h : List.Forall₂ (fun property pair =>
      NameAt m pair.1 property.1 ∧ pair.2 = .ofNat property.2) properties pairs) :
    (∀ pair ∈ pairs, ConstantIndex m pair.1 ∧ pair.2 ∈ defined) ↔
      ∀ v ∈ properties.map Prod.snd, UInt32.ofNat v ∈ defined := by
  induction h with
  | nil => exact ⟨fun _ => nofun, fun _ => nofun⟩
  | cons hentry _ ih =>
    rw [List.map_cons, List.forall_mem_cons, List.forall_mem_cons, ih, hentry.2]
    exact ⟨fun h => ⟨h.1.2, h.2⟩, fun h => ⟨⟨NameAt.constantIndex hentry.1, h.1⟩, h.2⟩⟩

theorem checked_iff (h : Refers m slots kind opcode operands)
    (hlength : (values kind).length < 2 ^ 32) (ids : List UInt32) (ty : IrType) (src : UInt32)
    (s t : BlockState) :
    Checked m ids ⟨opcode, operands, typeTag ty, src⟩ s t ↔
      Admits ids slots kind ty s ∧ t = stateAfter slots kind s := by
  cases h with
  | literal hliteral hindex =>
    constructor
    · intro hchecked
      cases hchecked
      refine ⟨⟨?_, nofun, nofun, nofun, nofun⟩, rfl⟩
      rw [literal_values hliteral]
      exact nofun
    · rintro ⟨_, rfl⟩
      exact .loadConst (List.getElem?_eq_some_iff.mp hindex).1
  | @object properties pairs hpairs =>
    have hproperties : properties.length < 2 ^ 32 := by simpa [values] using hlength
    constructor
    · generalize hoperands : flattenPairs pairs = rest
      intro hchecked
      cases hchecked with
      | buildObject hcount hvalues =>
        obtain rfl := flattenPairs_injective hoperands
        exact ⟨⟨(pairs_checked hpairs).mp hvalues, nofun, nofun, nofun, nofun⟩, rfl⟩
    · rintro ⟨hadmits, rfl⟩
      refine .buildObject ?_ ((pairs_checked hpairs).mpr hadmits.values)
      rw [toNat_ofNat hproperties]
      exact hpairs.length_eq
  | array =>
    constructor
    · intro hchecked
      cases hchecked with
      | buildArray hcount helements =>
        exact ⟨⟨List.forall_mem_map.mp helements, nofun, nofun, nofun, nofun⟩, rfl⟩
    · rintro ⟨hadmits, rfl⟩
      refine .buildArray ?_ (List.forall_mem_map.mpr hadmits.values)
      rw [List.length_map]
      exact toNat_ofNat hlength
  | loadLocal =>
    constructor
    · intro hchecked
      cases hchecked with
      | loadLocal hslot =>
        refine ⟨⟨nofun, fun name hname => ?_, nofun, nofun, nofun⟩, rfl⟩
        cases hname
        exact hslot
    · rintro ⟨hadmits, rfl⟩
      exact .loadLocal (hadmits.load _ rfl)
  | storeLocal =>
    constructor
    · intro hchecked
      cases hchecked with
      | storeLocal hslot hvalue =>
        refine ⟨⟨List.forall_mem_singleton.mpr hvalue, nofun, fun name value hname => ?_, nofun,
          nofun⟩, rfl⟩
        cases hname
        exact hslot
    · rintro ⟨hadmits, rfl⟩
      exact .storeLocal (hadmits.store _ _ rfl) (hadmits.values _ List.mem_cons_self)
  | loadMember hproperty =>
    constructor
    · intro hchecked
      cases hchecked with
      | loadMember hobject _ =>
        exact ⟨⟨List.forall_mem_singleton.mpr hobject, nofun, nofun, nofun, nofun⟩, rfl⟩
    · rintro ⟨hadmits, rfl⟩
      exact .loadMember (hadmits.values _ List.mem_cons_self) (NameAt.constantIndex hproperty)
  | storeMember hproperty =>
    constructor
    · intro hchecked
      cases hchecked with
      | storeMember hobject _ hvalue =>
        exact ⟨⟨List.forall_mem_cons.mpr ⟨hobject, List.forall_mem_singleton.mpr hvalue⟩, nofun,
          nofun, nofun, nofun⟩, rfl⟩
    · rintro ⟨hadmits, rfl⟩
      exact .storeMember (hadmits.values _ List.mem_cons_self) (NameAt.constantIndex hproperty)
        (hadmits.values _ (List.mem_cons_of_mem _ List.mem_cons_self))
  | binary =>
    constructor
    · intro hchecked
      cases hchecked with
      | binary hleft hright htag =>
        refine ⟨⟨List.forall_mem_cons.mpr ⟨hleft, List.forall_mem_singleton.mpr hright⟩, nofun,
          nofun, fun _ _ _ _ => ?_, nofun⟩, rfl⟩
        rw [← Bool.not_eq_true]
        exact fun hunknown => htag (typeTag_eq_unknown.mpr hunknown)
    · rintro ⟨hadmits, rfl⟩
      refine .binary (hadmits.values _ List.mem_cons_self)
        (hadmits.values _ (List.mem_cons_of_mem _ List.mem_cons_self)) fun htag => ?_
      have hknown := hadmits.operator _ _ _ rfl
      rw [typeTag_eq_unknown.mp htag] at hknown
      cases hknown
  | call hcallee =>
    constructor
    · intro hchecked
      cases hchecked with
      | call _ _ hargs =>
        exact ⟨⟨List.forall_mem_map.mp hargs, nofun, nofun, nofun, nofun⟩, rfl⟩
    · rintro ⟨hadmits, rfl⟩
      refine .call (NameAt.constantIndex hcallee) ?_ (List.forall_mem_map.mpr hadmits.values)
      rw [List.length_map]
      exact toNat_ofNat hlength
  | branch =>
    constructor
    · intro hchecked
      cases hchecked with
      | branch hcondition hthen helse =>
        exact ⟨⟨List.forall_mem_singleton.mpr hcondition, nofun, nofun, nofun,
          List.forall_mem_cons.mpr ⟨hthen, List.forall_mem_singleton.mpr helse⟩⟩, rfl⟩
    · rintro ⟨hadmits, rfl⟩
      exact .branch (hadmits.values _ List.mem_cons_self) (hadmits.targets _ List.mem_cons_self)
        (hadmits.targets _ (List.mem_cons_of_mem _ List.mem_cons_self))
  | jump =>
    constructor
    · intro hchecked
      cases hchecked with
      | jump htarget =>
        exact ⟨⟨nofun, nofun, nofun, nofun, List.forall_mem_singleton.mpr htarget⟩, rfl⟩
    · rintro ⟨hadmits, rfl⟩
      exact .jump (hadmits.targets _ List.mem_cons_self)
  | @«return» value =>
    cases value with
    | none =>
      constructor
      · intro hchecked
        cases hchecked
        exact ⟨⟨nofun, nofun, nofun, nofun, nofun⟩, rfl⟩
      · rintro ⟨_, rfl⟩
        exact .returnVoid
    | some value =>
      constructor
      · intro hchecked
        cases hchecked with
        | returnValue hvalue =>
          exact ⟨⟨List.forall_mem_singleton.mpr hvalue, nofun, nofun, nofun, nofun⟩, rfl⟩
      · rintro ⟨hadmits, rfl⟩
        exact .returnValue (hadmits.values _ List.mem_cons_self)

theorem verifyInstructions_cons_eq_nil {instruction : Instruction} {rest : List Instruction} :
    verifyInstructions m ids (instruction :: rest) s = [] ↔
      ∃ t, instruction.sourceRef.toNat < m.sourceMap.length ∧ Checked m ids instruction s t ∧
        verifyInstructions m ids rest t = [] := by
  rw [verifyInstructions, List.append_eq_nil_iff]
  constructor
  · intro h
    obtain ⟨hsource, hchecked⟩ := Checked.verifyInstruction_eq_nil.mp (Prod.ext h.1 rfl)
    exact ⟨_, hsource, hchecked, h.2⟩
  · rintro ⟨t, hsource, hchecked, hrest⟩
    rw [Checked.verifyInstruction_eq_nil.mpr ⟨hsource, hchecked⟩]
    exact ⟨rfl, hrest⟩

end

/-- The verifier has counted as many values and locals as the compiler. -/
structure Agrees (params known : List String) (n k : ℕ) (slots : LocalSlots) (s : BlockState) :
    Prop where
  allotted : SlotsFor params n slots
  knows : Knows known slots
  numbered : BytecodeVerifierFacts.Numbered s k
  locals : s.localCount = slots.next

theorem Agrees.mono {params known : List String} {n k v : ℕ} {slots : LocalSlots} {s : BlockState}
    (h : Agrees params known n v slots s) (hle : k ≤ n) : Agrees params known k v slots s :=
  ⟨h.allotted.mono hle, h.knows, h.numbered, h.locals⟩

section

variable {ids : List UInt32} {params known known' : List String} {n k : ℕ} {slots : LocalSlots}
  {s : BlockState} {instruction : IrInstruction}

theorem Agrees.admits_iff (h : Agrees params known n k slots s) (hk : k ≤ 2 ^ 32)
    (instruction : IrInstruction)
    (hvalues : ∀ v ∈ values instruction.kind, v < k)
    (htargets : ∀ t ∈ targets instruction.kind, UInt32.ofNat t ∈ ids) :
    Admits ids slots instruction.kind instruction.ty s ↔
      (checkInstruction instruction known).isSome = true := by
  have hdefined : ∀ v ∈ values instruction.kind, UInt32.ofNat v ∈ s.definedValues := by
    intro v hv
    have hlt := hvalues v hv
    rw [h.numbered.1, toNat_ofNat (by omega)]
    exact hlt
  have hlocal (name : String) : slotOf slots name < s.localCount ↔ name ∈ known := by
    rw [h.locals, UInt32.lt_iff_toNat_lt]
    exact h.allotted.slotOf_lt_next_iff h.knows name
  obtain ⟨kind, result, ty, span⟩ := instruction
  cases kind with
  | loadLocal name =>
    refine ⟨fun hadmits => ?_, fun hsome => ⟨hdefined, fun _ hname => ?_,
      fun _ _ h => (by cases h), fun _ _ _ h => (by cases h), htargets⟩⟩
    · exact congrArg Option.isSome (if_pos ((hlocal name).mp (hadmits.load name rfl)))
    · cases hname
      refine (hlocal name).mpr ?_
      by_contra hunknown
      have hnone : checkInstruction ⟨.loadLocal name, result, ty, span⟩ known = none :=
        if_neg hunknown
      rw [hnone] at hsome
      cases hsome
  | storeLocal name value =>
    refine ⟨fun _ => rfl, fun _ => ⟨hdefined, fun _ h => (by cases h), fun _ _ hname => ?_,
      fun _ _ _ h => (by cases h), htargets⟩⟩
    cases hname
    by_cases hname : name ∈ known
    · exact UInt32.le_of_lt ((hlocal name).mpr hname)
    · rw [(h.knows.localId_next hname).1, h.locals]
      exact UInt32.le_refl _
  | binary op left right =>
    refine ⟨fun hadmits => ?_, fun hsome => ⟨hdefined, fun _ h => (by cases h),
      fun _ _ h => (by cases h), fun _ _ _ _ => ?_, htargets⟩⟩
    · have hknown := hadmits.operator op left right rfl
      simp only at hknown
      simp [checkInstruction, hknown]
    · by_contra hunknown
      rw [Bool.not_eq_false] at hunknown
      have hnone : checkInstruction ⟨.binary op left right, result, ty, span⟩ known = none :=
        if_pos hunknown
      rw [hnone] at hsome
      cases hsome
  | _ =>
    exact ⟨fun _ => rfl, fun _ => ⟨hdefined, fun _ h => (by cases h), fun _ _ h => (by cases h),
      fun _ _ _ h => (by cases h), htargets⟩⟩

theorem numbered_stateAfter (slots : LocalSlots) (instruction : IrInstruction)
    (h : BytecodeVerifierFacts.Numbered s k) :
    BytecodeVerifierFacts.Numbered (stateAfter slots instruction.kind s)
      (k + results [instruction]) := by
  obtain ⟨kind, result, ty, span⟩ := instruction
  cases kind with
  | loadConst | loadLocal | loadMember | binary | call => exact h.define
  | storeLocal | storeMember | branch | jump | «return» => exact h

theorem Agrees.after (h : Agrees params known (n + 1) k slots s)
    (hcheck : checkInstruction instruction known = some known') :
    Agrees params known' n (k + results [instruction]) (slotsAfter instruction.kind slots)
      (stateAfter slots instruction.kind s) := by
  have hnumbered := numbered_stateAfter slots instruction h.numbered
  have hallotted := h.allotted.slotsAfter instruction.kind
  obtain ⟨kind, result, ty, span⟩ := instruction
  cases kind with
  | loadLocal name =>
    by_cases hname : name ∈ known
    · have hknown : some known = some known' := (if_pos hname).symm.trans hcheck
      cases hknown
      have hsame : slotsAfter (.loadLocal name) slots = slots := h.knows.localId_eq hname
      refine ⟨hallotted, ?_, hnumbered, ?_⟩
      · rw [hsame]
        exact h.knows
      · rw [hsame]
        exact h.locals
    · have hnone : none = some known' := (if_neg hname).symm.trans hcheck
      cases hnone
  | storeLocal name value =>
    cases hcheck
    refine ⟨hallotted, h.knows.localId name, hnumbered, ?_⟩
    change (if slotOf slots name = s.localCount then s.localCount + 1 else s.localCount) =
      (localId name slots).2.next
    by_cases hname : name ∈ known
    · have hlt := (h.allotted.slotOf_lt_next_iff h.knows name).mpr hname
      have hne : slotOf slots name ≠ s.localCount := by
        intro heq
        rw [heq, h.locals] at hlt
        exact Nat.lt_irrefl _ hlt
      rw [if_neg hne, h.knows.localId_eq hname]
      exact h.locals
    · obtain ⟨hslot, hnext⟩ := h.knows.localId_next hname
      rw [if_pos (hslot.trans h.locals.symm), hnext, h.locals]
  | binary op left right =>
    by_cases hunknown : ty.isUnknown = true
    · have hnone : none = some known' := (if_pos hunknown).symm.trans hcheck
      cases hnone
    · have hknown : some known = some known' := (if_neg hunknown).symm.trans hcheck
      cases hknown
      exact ⟨hallotted, h.knows, hnumbered, h.locals⟩
  | _ =>
    cases hcheck
    exact ⟨hallotted, h.knows, hnumbered, h.locals⟩

theorem firstBlock_accepted_iff {m : BytecodeModule} {code : List IrInstruction}
    {compiled : List Instruction} {slots' : LocalSlots}
    (h : RefersCode m slots code compiled slots')
    (hagrees : Agrees params known (codeSize code) k slots s)
    (hnumbered : LoweringCode.Numbered 0 k code) (hbound : k + results code ≤ 2 ^ 32)
    (htargets : ∀ instruction ∈ code, ∀ t ∈ targets instruction.kind, UInt32.ofNat t ∈ ids) :
    verifyInstructions m ids compiled s = [] ↔ (checkCode code known).isSome = true := by
  induction h generalizing known k s with
  | nil => exact ⟨fun _ => rfl, fun _ => rfl⟩
  | @cons slots next slots' instruction code opcode operands sourceRef compiled hkind hsource hnext
      hrest ih =>
    have hroom := hagrees.allotted.room
    have hcount := results_cons instruction code
    rw [codeSize_cons] at hagrees hroom
    have hadmits := hagrees.admits_iff (by omega) instruction
      (fun v hv => (hnumbered.1 v hv).2) (htargets instruction List.mem_cons_self)
    have hchecked := checked_iff hkind (by omega) ids instruction.ty sourceRef s
    rw [verifyInstructions_cons_eq_nil, checkCode, Option.bind_eq_bind]
    cases hcheck : checkInstruction instruction known with
    | none =>
      rw [hcheck] at hadmits
      refine ⟨?_, fun hsome => by cases hsome⟩
      rintro ⟨t, _, ht, _⟩
      have hsome := hadmits.mp ((hchecked t).mp ht).1
      cases hsome
    | some known' =>
      rw [hcheck] at hadmits
      have hafter := (hagrees.mono (k := codeSize code + 1) (by omega)).after hcheck
      rw [← hnext] at hafter
      have hrest := ih hafter hnumbered.2.2 (by omega)
        fun i hi => htargets i (List.mem_cons_of_mem _ hi)
      rw [Option.bind_some, ← hrest]
      constructor
      · rintro ⟨t, _, ht, haccepted⟩
        rw [((hchecked t).mp ht).2] at haccepted
        exact haccepted
      · exact fun haccepted => ⟨_, hsource, (hchecked _).mpr ⟨hadmits.mpr rfl, rfl⟩, haccepted⟩

end

section

variable {m : BytecodeModule} {ids : List UInt32} {params : List String} {code : List IrInstruction}
  {compiled : List Instruction} {slots slots' : LocalSlots} {s : BlockState}

theorem localCount_stateAfter (slots : LocalSlots) {kind : IrInstructionKind}
    (hfree : values kind = []) (s : BlockState) :
    (stateAfter slots kind s).localCount = s.localCount := by
  cases kind with
  | storeLocal name value => cases hfree
  | _ => rfl

theorem valueFree_admits_iff {n : ℕ} (hslots : SlotsFor params n slots)
    (hlocals : s.localCount.toNat = params.length) (instruction : IrInstruction)
    (hfree : values instruction.kind = [])
    (htargets : ∀ t ∈ targets instruction.kind, UInt32.ofNat t ∈ ids) :
    Admits ids slots instruction.kind instruction.ty s ↔ LeafInstruction params instruction := by
  have hlocal (name : String) : slotOf slots name < s.localCount ↔ name ∈ params := by
    rw [UInt32.lt_iff_toNat_lt, hlocals]
    exact hslots.slotOf_lt_iff name
  constructor
  · exact fun hadmits => ⟨hfree, fun name hname => (hlocal name).mp (hadmits.load name hname)⟩
  · rintro ⟨_, hload⟩
    refine ⟨?_, fun name hname => (hlocal name).mpr (hload name hname), ?_, ?_, htargets⟩
    · rw [hfree]
      exact nofun
    · intro name value hstore
      rw [hstore] at hfree
      cases hfree
    · intro op left right hbinary
      rw [hbinary] at hfree
      cases hfree

theorem valueFree_accepted_iff (h : RefersCode m slots code compiled slots')
    (hslots : SlotsFor params (codeSize code) slots) (hlocals : s.localCount.toNat = params.length)
    (hfree : ∀ instruction ∈ code, values instruction.kind = [])
    (htargets : ∀ instruction ∈ code, ∀ t ∈ targets instruction.kind, UInt32.ofNat t ∈ ids) :
    verifyInstructions m ids compiled s = [] ↔ LeafCode params code := by
  induction h generalizing s with
  | nil => exact ⟨fun _ => nofun, fun _ => rfl⟩
  | @cons slots next slots' instruction code opcode operands sourceRef compiled hkind hsource hnext
      hrest ih =>
    have hempty := hfree instruction List.mem_cons_self
    have hadmits := valueFree_admits_iff hslots hlocals instruction hempty
      (htargets instruction List.mem_cons_self)
    have hchecked := checked_iff hkind (by rw [hempty]; exact Nat.two_pow_pos 32) ids
      instruction.ty sourceRef s
    rw [codeSize_cons] at hslots
    have hafter := (hslots.mono (k := codeSize code + 1) (by omega)).slotsAfter instruction.kind
    have hlocals' := (congrArg UInt32.toNat (localCount_stateAfter slots hempty s)).trans hlocals
    rw [← hnext] at hafter
    have hrest := ih hafter hlocals' (fun i hi => hfree i (List.mem_cons_of_mem _ hi))
      fun i hi => htargets i (List.mem_cons_of_mem _ hi)
    rw [verifyInstructions_cons_eq_nil, LeafCode, List.forall_mem_cons, ← hadmits]
    constructor
    · rintro ⟨t, _, ht, haccepted⟩
      obtain ⟨hok, rfl⟩ := (hchecked t).mp ht
      exact ⟨hok, hrest.mp haccepted⟩
    · rintro ⟨hok, haccepted⟩
      exact ⟨_, hsource, (hchecked _).mpr ⟨hok, rfl⟩, hrest.mpr haccepted⟩

/-- A block that starts behind other values never uses the last of its own: the
    verifier has not counted that far. -/
theorem usesLast_rejected {function : BytecodeFunction} (h : RefersCode m slots code compiled slots')
    {offset : ℕ} (hoffset : 0 < offset) (hbound : offset + results code ≤ 2 ^ 32)
    (hsize : codeSize code < 2 ^ 32) (huses : UsesLast offset code) :
    verifyInstructions m (blockIds function) compiled (blockStart function) ≠ [] := by
  intro haccepted
  obtain ⟨first, instruction, rest, rfl, v, hv, hlast⟩ := huses
  obtain ⟨before, after, next, rfl, hfirst, hsecond⟩ := h.split
  cases hsecond with
  | @cons _ _ _ _ _ opcode operands sourceRef after hkind _ _ _ =>
    have hlength : (values instruction.kind).length < 2 ^ 32 := by
      rw [codeSize_append, codeSize_cons] at hsize
      omega
    have hcount := results_cons instruction rest
    rw [results_append] at hbound
    have hat : (before ++ ⟨opcode, operands, typeTag instruction.ty, sourceRef⟩ :: after)[
        before.length]? = some ⟨opcode, operands, typeTag instruction.ty, sourceRef⟩ := by
      rw [List.getElem?_append_right (Nat.le_refl _), Nat.sub_self]
      rfl
    have hchecked := (checked_at haccepted hat).2
    have hdefined := ((checked_iff hkind hlength _ _ _ _ _).mp hchecked).1.values v hv
    have hnumbered := numbered_before haccepted before.length (by simp)
    rw [List.take_left, hfirst.definitions] at hnumbered
    rw [hnumbered.1, toNat_ofNat (by omega)] at hdefined
    omega

/-- In the other blocks the verifier accepts the code that uses no value. -/
theorem otherBlock_accepted_iff {function : BytecodeFunction}
    (h : RefersCode m slots code compiled slots') (hslots : SlotsFor params (codeSize code) slots)
    (hparams : function.params.length = params.length) {offset : ℕ} (hoffset : 0 < offset)
    (hbound : offset + results code ≤ 2 ^ 32) (htight : Tight offset code)
    (htargets : ∀ instruction ∈ code, ∀ t ∈ targets instruction.kind,
      UInt32.ofNat t ∈ blockIds function) :
    verifyInstructions m (blockIds function) compiled (blockStart function) = [] ↔
      LeafCode params code := by
  have hroom := hslots.room
  have hcount := hslots.count
  rcases htight with hfree | huses
  · refine valueFree_accepted_iff h hslots ?_ hfree htargets
    rw [← hparams]
    exact toNat_ofNat (by omega)
  · refine iff_of_false (usesLast_rejected h hoffset hbound (by omega) huses) fun hleaf => ?_
    obtain ⟨first, instruction, rest, rfl, v, hv, _⟩ := huses
    have hempty := (hleaf instruction (by simp)).1
    rw [hempty] at hv
    cases hv

end

section

variable {m : BytecodeModule} {params : List String} {blocks : List IrBlock}
  {compiled : List BytecodeBlock} {slots slots' : LocalSlots}

theorem slotsFor_behind {n : ℕ} {code : List IrInstruction} {instructions : List Instruction}
    (h : RefersCode m slots code instructions slots')
    (hslots : SlotsFor params (codeSize code + n) slots) : SlotsFor params n slots' := by
  induction h with
  | nil => exact hslots.mono (Nat.le_add_left _ _)
  | @cons slots next slots' instruction code opcode operands sourceRef compiled _ _ hnext _ ih =>
    refine ih ?_
    rw [codeSize_cons] at hslots
    rw [hnext]
    exact (hslots.mono (by omega)).slotsAfter instruction.kind

theorem refersBlocks_getElem? (h : RefersBlocks m slots blocks compiled)
    (hslots : SlotsFor params (blocksSize blocks) slots) {i : ℕ} {block : IrBlock}
    (hi : blocks[i]? = some block) :
    ∃ instructions slots₁ slots₂, compiled[i]? = some ⟨.ofNat block.id, instructions⟩ ∧
      SlotsFor params (codeSize block.instructions) slots₁ ∧
      RefersCode m slots₁ block.instructions instructions slots₂ ∧ (i = 0 → slots₁ = slots) := by
  induction h generalizing i with
  | nil => cases hi
  | @cons slots slots' first blocks instructions compiled hcode hrest ih =>
    rw [blocksSize_cons] at hslots
    cases i with
    | zero =>
      cases hi
      exact ⟨instructions, slots, slots', rfl, hslots.mono (by omega), hcode, fun _ => rfl⟩
    | succ i =>
      obtain ⟨instructions', slots₁, slots₂, hget, hallotted, hrefers, _⟩ :=
        ih (slotsFor_behind hcode (hslots.mono (by omega))) hi
      exact ⟨instructions', slots₁, slots₂, hget, hallotted, hrefers,
        fun hzero => absurd hzero (Nat.succ_ne_zero i)⟩

theorem refersBlocks_hasTerminator (h : RefersBlocks m slots blocks compiled) :
    compiled.any BytecodeVerifier.hasTerminator =
      blocks.any fun block => LoweredChecks.hasTerminator block.instructions := by
  induction h with
  | nil => rfl
  | cons hcode _ ih =>
    rw [List.any_cons, List.any_cons, ih]
    exact congrArg (· || _) hcode.any_isTerminator

theorem results_le_codeSize (code : List IrInstruction) : results code ≤ codeSize code := by
  induction code with
  | nil => exact Nat.le_refl 0
  | cons instruction code ih =>
    have hle : results [instruction] ≤ 1 := List.countP_le_length
    rw [results_cons, codeSize_cons]
    omega

theorem totalResults_le_blocksSize (blocks : List IrBlock) :
    totalResults blocks ≤ blocksSize blocks := by
  induction blocks with
  | nil => exact Nat.le_refl 0
  | cons block blocks ih =>
    have hle := results_le_codeSize block.instructions
    have htotal : totalResults (block :: blocks) =
        results block.instructions + totalResults blocks := List.sum_cons
    rw [htotal, blocksSize_cons]
    omega

theorem acceptedFunction_iff {function : IrFunction} {compiled : BytecodeFunction}
    (h : RefersFunction m function compiled) {offset : ℕ → ℕ} (hnumbering : Numbering function offset)
    (hsize : functionSize function < 2 ^ 32) :
    AcceptedFunction m compiled ↔ VerifiableCode function := by
  have hparams : compiled.params.length = (function.params.map IrParam.name).length := by
    rw [h.params, List.length_map, List.length_map]
  have hslots : SlotsFor (function.params.map IrParam.name) (blocksSize function.blocks)
      (parameterSlots function.params) := by
    refine parameterSlots_slotsFor function.params ?_
    unfold functionSize at hsize
    omega
  have htotal := totalResults_le_blocksSize function.blocks
  have hlength := h.blocks.length_eq
  have hids {i : ℕ} (hi : i < function.blocks.length) : UInt32.ofNat i ∈ blockIds compiled := by
    rw [blockIds, h.blocks.ids]
    have hblock := List.getElem?_eq_getElem hi
    rw [← hnumbering.ids i _ hblock]
    exact List.mem_map_of_mem (List.mem_of_getElem? hblock)
  have hblock {i : ℕ} {block : IrBlock} (hi : function.blocks[i]? = some block) :
      ∃ instructions, compiled.blocks[i]? = some ⟨.ofNat block.id, instructions⟩ ∧
        (verifyInstructions m (blockIds compiled) instructions (blockStart compiled) = [] ↔
          if i = 0 then
            (checkCode block.instructions (function.params.map IrParam.name)).isSome = true
          else LeafCode (function.params.map IrParam.name) block.instructions) := by
    obtain ⟨instructions, slots₁, slots₂, hget, hallotted, hrefers, hfirst⟩ :=
      refersBlocks_getElem? h.blocks hslots hi
    have hbound := hnumbering.bound i block hi
    have htargets : ∀ instruction ∈ block.instructions, ∀ t ∈ targets instruction.kind,
        UInt32.ofNat t ∈ blockIds compiled := fun instruction hmem t ht =>
      hids (hnumbering.edges i block hi instruction hmem t ht).1
    refine ⟨instructions, hget, ?_⟩
    unfold functionSize at hsize
    by_cases hzero : i = 0
    · rw [if_pos hzero]
      obtain rfl := hfirst hzero
      have hnumbered := hnumbering.numbered i block hi
      rw [hzero, hnumbering.first] at hbound hnumbered
      refine firstBlock_accepted_iff hrefers ⟨hallotted, parameterSlots_knows _, ?_, ?_⟩ hnumbered
        (by omega) htargets
      · exact ⟨fun v => by simp [blockStart], rfl⟩
      · rw [blockStart, hparams, List.length_map]
        rfl
    · rw [if_neg hzero]
      exact otherBlock_accepted_iff hrefers hallotted hparams
        (hnumbering.later i (List.getElem?_eq_some_iff.mp hi).1 hzero) (by omega)
        (hnumbering.tight i block hi) htargets
  constructor
  · intro haccepted
    refine ⟨⟨fun block hi => ?_, fun i block hne hi => ?_⟩, ?_⟩
    · obtain ⟨instructions, hget, hiff⟩ := hblock hi
      rw [if_pos rfl] at hiff
      exact hiff.mp (haccepted.blocks _ (List.mem_of_getElem? hget))
    · obtain ⟨instructions, hget, hiff⟩ := hblock hi
      rw [if_neg hne] at hiff
      exact hiff.mp (haccepted.blocks _ (List.mem_of_getElem? hget))
    · have hterminator := List.any_eq_true.mpr haccepted.terminator
      rw [refersBlocks_hasTerminator h.blocks] at hterminator
      exact List.any_eq_true.mp hterminator
  · rintro ⟨hacceptable, hends⟩
    refine ⟨?_, fun block hmem => ?_, ?_⟩
    · rw [h.exceptionTable]
      exact fun _ hmem => absurd hmem List.not_mem_nil
    · obtain ⟨i, hi, rfl⟩ := List.getElem_of_mem hmem
      have hsource := List.getElem?_eq_getElem (show i < function.blocks.length by omega)
      obtain ⟨instructions, hget, hiff⟩ := hblock hsource
      rw [List.getElem?_eq_getElem hi, Option.some.injEq] at hget
      rw [hget]
      refine hiff.mpr ?_
      by_cases hzero : i = 0
      · rw [if_pos hzero]
        exact hacceptable.first _ (hzero ▸ hsource)
      · rw [if_neg hzero]
        exact hacceptable.rest i _ hzero hsource
    · refine List.any_eq_true.mp ?_
      rw [refersBlocks_hasTerminator h.blocks]
      exact List.any_eq_true.mpr hends

end

theorem compile_accepted_iff (program : Ast.Program)
    (hsize : irSize (lowerProgram program) < 2 ^ 32) :
    Accepted (compile (lowerProgram program)) ↔ Verifiable program = true := by
  have hrefers := compile_refers (lowerProgram program) (Nat.le_of_lt hsize)
  have hfunction {function : IrFunction} {compiled : BytecodeFunction}
      (hmem : function ∈ allFunctions (lowerProgram program))
      (h : RefersFunction (compile (lowerProgram program)) function compiled) :
      AcceptedFunction (compile (lowerProgram program)) compiled ↔ VerifiableCode function := by
    obtain ⟨offset, hnumbering⟩ := lowerProgram_numbering program hmem
    have hle := functionSize_le_irSize hmem
    exact acceptedFunction_iff h hnumbering (by omega)
  rw [accepted_iff_parts, verifiable_iff]
  constructor
  · intro haccepted function hmem
    obtain ⟨i, hi⟩ := List.getElem?_of_mem hmem
    obtain ⟨compiled, hcompiled, h⟩ := CompiledCode.forall₂_getElem? hrefers.flip hi
    exact (hfunction hmem h).mp (haccepted.function compiled (List.mem_of_getElem? hcompiled))
  · intro hverifiable
    refine ⟨rfl, ?_, fun compiled hmem => ?_⟩
    · intro hempty
      have hlength := hrefers.length_eq
      rw [hempty, allFunctions, List.length_append] at hlength
      exact Nat.succ_ne_zero _ hlength
    · obtain ⟨i, hi⟩ := List.getElem?_of_mem hmem
      obtain ⟨function, hget, h⟩ := CompiledCode.forall₂_getElem? hrefers hi
      have hfunctionMem := List.mem_of_getElem? hget
      exact (hfunction hfunctionMem h).mpr (hverifiable function hfunctionMem)

theorem compileSource_eq_some {order : IterationOrder} {source : String}
    (h : (analyzeSource order source).diagnostics.isEmpty = true) :
    (compileSource order source).module = some (compile (lowerProgram (parseSource source).program)) := by
  rw [compileSource, lowerSource, if_pos h]

theorem compileSource_module {order : IterationOrder} {source : String} {m : BytecodeModule}
    (h : (compileSource order source).module = some m) :
    m = compile (lowerProgram (parseSource source).program) := by
  unfold compileSource lowerSource at h
  by_cases hempty : (analyzeSource order source).diagnostics.isEmpty = true
  · rw [if_pos hempty] at h
    cases h
    rfl
  · rw [if_neg hempty] at h
    cases h

/-- The module of a source is accepted when the source passes the check. -/
theorem compileSource_accepted_iff (order : IterationOrder) (source : String) {m : BytecodeModule}
    (h : (compileSource order source).module = some m)
    (hsize : irSize (lowerProgram (parseSource source).program) < 2 ^ 32) :
    verifyModule m = .ok () ↔ Verifiable (parseSource source).program = true := by
  rw [compileSource_module h]
  exact compile_accepted_iff _ hsize

/-- A function with a local that is called from the top level. -/
theorem doubleSource_accepted_iff :
    let source := "function f(n: number): number { let k = n + 1; return k * 2; } let r = f(20);"
    verifyModule (compile (lowerProgram (parseSource source).program)) = .ok () ↔
      Verifiable (parseSource source).program = true :=
  compileSource_accepted_iff .listed _ (compileSource_eq_some (by decide +kernel))
    (by decide +kernel)

/-- Sources without diagnostics: a value used behind a branch, a function without a
    `return`, a name that is not stored, and an operator without a type. -/
theorem compileSource_rejected :
    let errors (source : String) :=
      (compileSource .listed source).module.map fun m => (verify m).map VerifyError.code
    errors "function pick(flag: boolean): number { if (flag) { return 1; } return 2; }" =
        some [.invalidValueReference, .invalidValueReference] ∧
      errors "function show(x: number) { x; }" = some [.missingTerminator] ∧
      errors "function f(): number { return 1; } let g = f;" =
        some [.invalidLocalReference, .invalidLocalReference] ∧
      errors "let a = 1; let b = a ?? 2;" = some [.invalidTypeState] := by
  decide +kernel

end Tsvm.CompilerAcceptance
