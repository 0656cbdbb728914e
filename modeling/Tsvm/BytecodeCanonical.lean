import Tsvm.BytecodeRoundTrip

set_option autoImplicit false

/-!
# Encoding undoes decoding

Every reader but one refuses what its writer does not write. The payload of a
boolean constant is read as `!= 0`, and written as 0 or 1.
-/
namespace Tsvm.BytecodeCanonical
open Bytecode Codec BytecodeEncoding BytecodeRoundTrip

section Words

theorem writeU16_u16FromLeBytes {bytes : List UInt8} (h : bytes.length = 2) :
    writeU16 (u16FromLeBytes bytes) = bytes := by
  obtain ⟨a, b, rfl⟩ := List.length_eq_two.mp h
  have ha := a.toNat_lt
  have hb := b.toNat_lt
  have hword : (u16FromLeBytes [a, b]).toNat = a.toNat + 256 * b.toNat :=
    Nat.mod_eq_of_lt (by change a.toNat + 256 * b.toNat < 65536; omega)
  simp only [writeU16, hword, List.cons.injEq, ← UInt8.toNat_inj, UInt8.toNat_ofNat',
    and_true]
  omega

theorem writeU32_u32FromLeBytes {bytes : List UInt8} (h : bytes.length = 4) :
    writeU32 (u32FromLeBytes bytes) = bytes := by
  match bytes, h with
  | [a, b, c, d], _ =>
    have ha := a.toNat_lt
    have hb := b.toNat_lt
    have hc := c.toNat_lt
    have hd := d.toNat_lt
    have hword : (u32FromLeBytes [a, b, c, d]).toNat =
        a.toNat + 256 * b.toNat + 65536 * c.toNat + 16777216 * d.toNat :=
      Nat.mod_eq_of_lt (by
        change a.toNat + 256 * b.toNat + 65536 * c.toNat + 16777216 * d.toNat < 4294967296
        omega)
    simp only [writeU32, hword, List.cons.injEq, ← UInt8.toNat_inj, UInt8.toNat_ofNat',
      and_true]
    omega

end Words

theorem readExact_consumes (n : ℕ) :
    Consumes (readExact n) fun w bytes => w = bytes ∧ bytes.length = n := Consumes.take n _

theorem readU8_consumes : Consumes readU8 fun w byte => w = [byte] := by
  refine (readExact_consumes 1).bind fun v bytes hv => .pure ?_
  obtain ⟨rfl, hlength⟩ := hv
  obtain ⟨byte, rfl⟩ := List.length_eq_one_iff.mp hlength
  rfl

theorem readU16_consumes : Consumes readU16 fun w value => w = writeU16 value := by
  refine (readExact_consumes 2).bind fun v bytes hv => .pure ?_
  rw [writeU16_u16FromLeBytes hv.2, List.append_nil]
  exact hv.1

theorem readU32_consumes : Consumes readU32 fun w value => w = writeU32 value := by
  refine (readExact_consumes 4).bind fun v bytes hv => .pure ?_
  rw [writeU32_u32FromLeBytes hv.2, List.append_nil]
  exact hv.1

theorem readLength_consumes :
    Consumes readLength fun w length => w = writeLength length ∧ FitsU32 length := by
  refine readU32_consumes.bind fun v value hv => .pure ?_
  rw [writeLength, UInt32.ofNat_toNat, List.append_nil]
  exact ⟨hv, value.toNat_lt⟩

theorem opcodeToU8_of_opcodeFromU8 {value : UInt8} {opcode : Opcode}
    (h : opcodeFromU8 value = some opcode) : opcodeToU8 opcode = value := by
  rw [← UInt8.toNat_inj]
  unfold opcodeFromU8 at h
  split at h <;> first | (cases h; simp_all [opcodeToU8]) | cases h

theorem typeTagToU8_of_typeTagFromU8 {value : UInt8} {tag : TypeTag}
    (h : typeTagFromU8 value = some tag) : typeTagToU8 tag = value := by
  rw [← UInt8.toNat_inj]
  unfold typeTagFromU8 at h
  split at h <;> first | (cases h; simp_all [typeTagToU8]) | cases h

theorem readOpcode_consumes : Consumes readOpcode fun w opcode => w = [opcodeToU8 opcode] := by
  refine readU8_consumes.bind fun v value hv => ?_
  cases hopcode : opcodeFromU8 value with
  | none => exact .fail _ _
  | some opcode =>
    refine .pure ?_
    rw [opcodeToU8_of_opcodeFromU8 hopcode, List.append_nil]
    exact hv

theorem readTypeTag_consumes : Consumes readTypeTag fun w tag => w = [typeTagToU8 tag] := by
  refine readU8_consumes.bind fun v value hv => ?_
  cases htag : typeTagFromU8 value with
  | none => exact .fail _ _
  | some tag =>
    refine .pure ?_
    rw [typeTagToU8_of_typeTagFromU8 htag, List.append_nil]
    exact hv

theorem stringBytes_of_fromUTF8 {bytes : List UInt8} {value : String}
    (h : String.fromUTF8? ⟨bytes.toArray⟩ = some value) : stringBytes value = bytes := by
  unfold String.fromUTF8? at h
  split at h
  · cases h
    rfl
  · cases h

theorem readString_consumes :
    Consumes readString fun w value => w = writeString value ∧ FitsString value := by
  refine readLength_consumes.bind fun v length hv => ?_
  refine (readExact_consumes length).bind fun w bytes hw => ?_
  cases hvalue : String.fromUTF8? ⟨bytes.toArray⟩ with
  | none => exact .fail _ _
  | some value =>
    obtain ⟨rfl, hfits⟩ := hv
    obtain ⟨rfl, rfl⟩ := hw
    refine .pure ?_
    rw [writeString, FitsString, stringBytes_of_fromUTF8 hvalue, List.append_nil]
    exact ⟨rfl, hfits⟩

/-- The bytes a constant may be decoded from. -/
inductive ConstantBytes : List UInt8 → Constant → Prop where
  | written {constant : Constant} (hfits : FitsConstant constant) :
      ConstantBytes (writeConstant constant) constant
  | boolean (byte : UInt8) : ConstantBytes [2, byte] (.boolean (byte != 0))

theorem readConstant_consumes : Consumes readConstant ConstantBytes := by
  refine readU8_consumes.bind fun v tag hv => ?_
  obtain rfl := hv
  have htag {n : ℕ} (hn : tag.toNat = n) : tag = .ofNat n := by rw [← hn, UInt8.ofNat_toNat]
  have hstring (make : String → Constant) (n : ℕ) (hn : tag.toNat = n)
      (hwrite : ∀ value, writeConstant (make value) = .ofNat n :: writeString value)
      (hfits : ∀ value, FitsString value → FitsConstant (make value)) :
      Consumes (do return make (← readString)) fun w constant =>
        ConstantBytes ([tag] ++ w) constant := by
    refine readString_consumes.bind fun w value hw => .pure ?_
    have hbytes : writeConstant (make value) = [tag] ++ (w ++ []) := by
      rw [hwrite, htag hn, hw.1, List.append_nil]
      rfl
    rw [← hbytes]
    exact .written (hfits value hw.2)
  split
  · exact hstring .number 0 ‹_› (fun _ => rfl) fun _ => id
  · exact hstring .string 1 ‹_› (fun _ => rfl) fun _ => id
  · refine readU8_consumes.bind fun w byte hw => .pure ?_
    rw [hw, htag ‹_›]
    exact .boolean byte
  · refine .pure ?_
    rw [htag ‹_›]
    exact @ConstantBytes.written .null trivial
  · refine .pure ?_
    rw [htag ‹_›]
    exact @ConstantBytes.written .undefined trivial
  · exact hstring .symbol 5 ‹_› (fun _ => rfl) fun _ => id
  · exact .fail _ _

theorem readSourceRef_consumes :
    Consumes readSourceRef fun w source => w = writeSourceRef source := by
  refine readU32_consumes.bind fun _ _ h₁ => readU32_consumes.bind fun _ _ h₂ =>
    readU32_consumes.bind fun _ _ h₃ => readU32_consumes.bind fun _ _ h₄ =>
    readU32_consumes.bind fun _ _ h₅ => readU32_consumes.bind fun _ _ h₆ => .pure ?_
  simp only [writeSourceRef, h₁, h₂, h₃, h₄, h₅, h₆, List.append_assoc, List.append_nil]

theorem readExceptionEntry_consumes :
    Consumes readExceptionEntry fun w entry => w = writeExceptionEntry entry := by
  refine readU32_consumes.bind fun _ _ h₁ => readU32_consumes.bind fun _ _ h₂ =>
    readU32_consumes.bind fun _ _ h₃ => .pure ?_
  simp only [writeExceptionEntry, h₁, h₂, h₃, List.append_assoc, List.append_nil]

theorem readInstruction_consumes :
    Consumes readInstruction fun w instruction => w = writeInstruction instruction := by
  refine readOpcode_consumes.bind fun _ _ h₁ => readTypeTag_consumes.bind fun _ _ h₂ =>
    readU32_consumes.bind fun _ _ h₃ => readLength_consumes.bind fun _ count h₄ =>
    (readU32_consumes.tableOf count).bind fun _ _ h₅ => .pure ?_
  simp only [writeInstruction, h₁, h₂, h₃, h₄.1, h₅.1, h₅.2, List.append_assoc, List.append_nil,
    List.cons_append, List.nil_append]

theorem readBlock_consumes : Consumes readBlock fun w block => w = writeBlock block := by
  refine readU32_consumes.bind fun _ _ h₁ => readLength_consumes.bind fun _ count h₂ =>
    (readInstruction_consumes.tableOf count).bind fun _ _ h₃ => .pure ?_
  simp only [writeBlock, h₁, h₂.1, h₃.1, h₃.2, List.append_assoc, List.append_nil]

theorem readFunction_consumes :
    Consumes readFunction fun w function => w = writeFunction function := by
  refine readString_consumes.bind fun _ _ h₁ => readLength_consumes.bind fun _ count h₂ =>
    (readTypeTag_consumes.tableOf count).bind fun _ _ h₃ =>
    readTypeTag_consumes.bind fun _ _ h₄ => readLength_consumes.bind fun _ blockCount h₅ =>
    (readBlock_consumes.tableOf blockCount).bind fun _ _ h₆ =>
    readLength_consumes.bind fun _ entryCount h₇ =>
    (readExceptionEntry_consumes.tableOf entryCount).bind fun _ _ h₈ => .pure ?_
  simp only [writeFunction, h₁.1, h₂.1, h₃.1, h₃.2, h₄, h₅.1, h₆.1, h₆.2, h₇.1, h₈.1, h₈.2,
    List.append_assoc, List.append_nil, List.map_eq_flatMap]

theorem readMagic_consumes : Consumes readMagic fun w magic => w = magic.toList := by
  refine (readExact_consumes 4).bind fun v bytes hv => .pure ?_
  obtain ⟨rfl, hlength⟩ := hv
  match v, hlength with
  | [_, _, _, _], _ => rfl

theorem readHeader_consumes : Consumes readHeader fun w header =>
    header = currentHeader ∧ w = header.magic.toList ++ writeU16 header.version := by
  refine readMagic_consumes.bind fun v magic hv => ?_
  by_cases hmagic : magic = bytecodeMagic
  · rw [if_pos hmagic]
    refine readU16_consumes.bind fun w version hw => ?_
    by_cases hversion : version = bytecodeVersion
    · rw [if_pos hversion]
      refine .pure ⟨by rw [hmagic, hversion]; rfl, ?_⟩
      rw [hv, hw, List.append_nil]
    · rw [if_neg hversion]
      exact .fail _ _
  · rw [if_neg hmagic]
    exact .fail _ _

/-- The payloads of the boolean constants in a table of `n` constants. A string
    is skipped by its length. -/
def booleanBytes : ℕ → List UInt8 → List UInt8
  | n + 1, tag :: bytes =>
    if tag = 2 then bytes.take 1 ++ booleanBytes n (bytes.drop 1)
    else if tag = 3 ∨ tag = 4 then booleanBytes n bytes
    else booleanBytes n (bytes.drop (4 + (u32FromLeBytes bytes).toNat))
  | _, _ => []

/-- The constant count is behind the magic and the version, the constants are
    behind two more counts. -/
def booleanPayloads (bytes : List UInt8) : List UInt8 :=
  booleanBytes (u32FromLeBytes (bytes.drop 6)).toNat (bytes.drop 18)

def Strict (payloads : List UInt8) : Prop := ∀ byte ∈ payloads, byte = 0 ∨ byte = 1

theorem u32FromLeBytes_append {bytes : List UInt8} (h : 4 ≤ bytes.length) (rest : List UInt8) :
    u32FromLeBytes (bytes ++ rest) = u32FromLeBytes bytes := by
  have hget {i : ℕ} (hi : i < 4) : (bytes ++ rest).getD i 0 = bytes.getD i 0 :=
    by rw [List.getD_eq_getElem?_getD, List.getElem?_append_left (by omega),
      ← List.getD_eq_getElem?_getD]
  simp only [u32FromLeBytes, hget (show 0 < 4 by omega), hget (show 1 < 4 by omega),
    hget (show 2 < 4 by omega), hget (show 3 < 4 by omega)]

theorem u32FromLeBytes_writeLength {n : ℕ} (hn : FitsU32 n) (rest : List UInt8) :
    (u32FromLeBytes (writeLength n ++ rest)).toNat = n := by
  have hword : 4 ≤ (writeLength n).length := Nat.le_refl 4
  rw [u32FromLeBytes_append hword, writeLength, u32FromLeBytes_writeU32]
  exact UInt32.toNat_ofNat_of_lt' hn

theorem booleanBytes_string {tag : UInt8} (htag : tag ≠ 2 ∧ tag ≠ 3 ∧ tag ≠ 4) {value : String}
    (hfits : FitsString value) (n : ℕ) (rest : List UInt8) :
    booleanBytes (n + 1) (tag :: writeString value ++ rest) = booleanBytes n rest := by
  have hlength : (u32FromLeBytes (writeString value ++ rest)).toNat = (stringBytes value).length := by
    rw [writeString, List.append_assoc]
    exact u32FromLeBytes_writeLength hfits _
  have hdrop : (writeString value ++ rest).drop (4 + (stringBytes value).length) = rest := by
    refine List.drop_left' ?_
    rw [writeString, List.length_append]
    rfl
  rw [List.cons_append, booleanBytes, if_neg htag.1, if_neg (not_or.mpr htag.2), hlength, hdrop]

theorem booleanBytes_constant {w : List UInt8} {constant : Constant} (h : ConstantBytes w constant)
    (n : ℕ) (rest : List UInt8) :
    ∃ payload, booleanBytes (n + 1) (w ++ rest) = payload ++ booleanBytes n rest ∧
      (w = writeConstant constant ↔ Strict payload) := by
  cases h with
  | written hfits =>
    cases constant with
    | boolean value =>
      refine ⟨[value.toUInt8], rfl, iff_of_true rfl ?_⟩
      cases value
      · exact List.forall_mem_singleton.mpr (.inl rfl)
      · exact List.forall_mem_singleton.mpr (.inr rfl)
    | null => exact ⟨[], rfl, iff_of_true rfl nofun⟩
    | undefined => exact ⟨[], rfl, iff_of_true rfl nofun⟩
    | number value =>
      exact ⟨[], booleanBytes_string (by decide) hfits n rest, iff_of_true rfl nofun⟩
    | string value =>
      exact ⟨[], booleanBytes_string (by decide) hfits n rest, iff_of_true rfl nofun⟩
    | symbol value =>
      exact ⟨[], booleanBytes_string (by decide) hfits n rest, iff_of_true rfl nofun⟩
  | boolean byte =>
    refine ⟨[byte], rfl, ?_⟩
    rw [Strict, List.forall_mem_singleton, writeConstant]
    by_cases hzero : byte = 0
    · rw [hzero]
      exact iff_of_true rfl (.inl rfl)
    · have hvalue : (byte != 0) = true := bne_iff_ne.mpr hzero
      rw [hvalue, List.cons.injEq, List.cons.injEq]
      have hone : true.toUInt8 = 1 := rfl
      simp [hzero, hone]

theorem constantBytes_length {w : List UInt8} {constant : Constant} (h : ConstantBytes w constant) :
    w.length = (writeConstant constant).length := by
  cases h with
  | written _ => rfl
  | boolean byte => rfl

/-- A table of constants is as it is written when its booleans are 0 or 1. -/
theorem constants_written_iff {ws : List (List UInt8)} {constants : List Constant}
    (h : List.Forall₂ ConstantBytes ws constants) (rest : List UInt8) :
    ws.flatten = constants.flatMap writeConstant ↔
      Strict (booleanBytes constants.length (ws.flatten ++ rest)) := by
  induction h with
  | nil => exact iff_of_true rfl nofun
  | @cons w constant ws constants hfirst _ ih =>
    obtain ⟨payload, hpayload, hwritten⟩ :=
      booleanBytes_constant hfirst constants.length (ws.flatten ++ rest)
    rw [List.flatten_cons, List.flatMap_cons, List.append_assoc, List.length_cons, hpayload, Strict,
      List.forall_mem_append]
    rw [List.append_eq_append_iff_of_size_eq_left (constantBytes_length hfirst)]
    exact and_congr hwritten ih

structure ModuleBytes (w : List UInt8) (m : BytecodeModule) (ws : List (List UInt8)) : Prop where
  header : m.header = currentHeader
  constantCount : FitsU32 m.constants.length
  constants : List.Forall₂ ConstantBytes ws m.constants
  bytes : w = m.header.magic.toList ++ writeU16 m.header.version ++
    writeLength m.constants.length ++ writeLength m.sourceMap.length ++
    writeLength m.functions.length ++ ws.flatten ++ m.sourceMap.flatMap writeSourceRef ++
    m.functions.flatMap writeFunction

theorem readModule_consumes : Consumes readModule fun w m => ∃ ws, ModuleBytes w m ws := by
  refine readHeader_consumes.bind fun _ _ h₁ => readLength_consumes.bind fun _ constantCount h₂ =>
    readLength_consumes.bind fun _ sourceCount h₃ =>
    readLength_consumes.bind fun _ functionCount h₄ =>
    (readConstant_consumes.table constantCount).bind fun _ _ h₅ =>
    (readSourceRef_consumes.tableOf sourceCount).bind fun _ _ h₆ =>
    (readFunction_consumes.tableOf functionCount).bind fun _ _ h₇ => .pure ?_
  obtain ⟨hcount, ws, hws, hconstants⟩ := h₅
  refine ⟨ws, h₁.1, ?_, hconstants, ?_⟩
  · rw [hcount]
    exact h₂.2
  · simp only [h₁.2, h₂.1, h₃.1, h₄.1, hcount, hws, h₆.1, h₆.2, h₇.1, h₇.2, List.append_assoc,
      List.append_nil]

theorem decodeModule_bytes {bytes : List UInt8} {m : BytecodeModule}
    (h : decodeModule bytes = .ok m) : ∃ ws, ModuleBytes bytes m ws := by
  unfold decodeModule at h
  obtain ⟨m', mid, hread, hrest⟩ := FailState.bind_eq_ok.mp (Prod.ext h rfl)
  obtain ⟨_, last, hfinish, hpure⟩ := FailState.bind_eq_ok.mp hrest
  cases hpure
  obtain ⟨w, hw, hbytes⟩ := readModule_consumes _ _ _ hread
  have hend : mid.rest = [] := by
    by_contra hleft
    rw [finish, if_neg hleft] at hfinish
    cases hfinish
  rw [hend, List.append_nil] at hw
  have hsame : bytes = w := hw
  rw [hsame]
  exact hbytes

/-- A byte string that decodes is what its module is encoded as, exactly when it
    writes its booleans as 0 or 1. -/
theorem encodeModule_decodeModule_iff {bytes : List UInt8} {m : BytecodeModule}
    (h : decodeModule bytes = .ok m) :
    encodeModule m = bytes ↔ ∀ byte ∈ booleanPayloads bytes, byte = 0 ∨ byte = 1 := by
  obtain ⟨ws, hbytes⟩ := decodeModule_bytes h
  have hpayloads : booleanPayloads bytes = booleanBytes m.constants.length
      (ws.flatten ++ (m.sourceMap.flatMap writeSourceRef ++ m.functions.flatMap writeFunction)) := by
    have hall := hbytes.bytes
    rw [hbytes.header] at hall
    simp only [List.append_assoc] at hall
    -- The magic and the version take 6 bytes, each of the three counts 4.
    have hcount : bytes.drop 6 = writeLength m.constants.length ++
        (writeLength m.sourceMap.length ++ (writeLength m.functions.length ++ (ws.flatten ++
          (m.sourceMap.flatMap writeSourceRef ++ m.functions.flatMap writeFunction)))) := by
      rw [hall]
      rfl
    have htables : bytes.drop 18 = ws.flatten ++
        (m.sourceMap.flatMap writeSourceRef ++ m.functions.flatMap writeFunction) := by
      rw [hall]
      rfl
    rw [booleanPayloads, htables, hcount, u32FromLeBytes_writeLength hbytes.constantCount]
  rw [hpayloads]
  refine Iff.trans ?_ (constants_written_iff hbytes.constants _)
  rw [encodeModule, hbytes.bytes, List.append_left_inj, List.append_left_inj, List.append_right_inj]
  exact eq_comm

/-- A module whose only constant is `true`, written with some payload. -/
def trueBytes (payload : UInt8) : List UInt8 :=
  bytecodeMagic.toList ++ writeU16 bytecodeVersion ++ writeLength 1 ++ writeLength 0 ++
    writeLength 0 ++ [2, payload]

def trueModule : BytecodeModule := ⟨currentHeader, [.boolean true], [], []⟩

/-- Payload 2 is read as `true` too. -/
theorem decodeModule_trueBytes :
    decodeModule (trueBytes 2) = .ok trueModule ∧ decodeModule (trueBytes 1) = .ok trueModule ∧
      encodeModule trueModule ≠ trueBytes 2 := by
  refine ⟨rfl, rfl, ?_⟩
  decide

theorem encodeModule_decodeModule_true :
    encodeModule trueModule = trueBytes 1 ↔
      ∀ byte ∈ booleanPayloads (trueBytes 1), byte = 0 ∨ byte = 1 :=
  encodeModule_decodeModule_iff rfl

end Tsvm.BytecodeCanonical
