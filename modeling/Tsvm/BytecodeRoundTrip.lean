import Mathlib.Data.List.Basic
import Tsvm.BytecodeEncoding

set_option autoImplicit false

/-!
# Decoding undoes encoding

One `Reads` lemma for each layer of the format: whatever follows, the reader of
a layer consumes exactly the bytes its writer produced.
-/
namespace Tsvm.BytecodeRoundTrip
open Bytecode Codec BytecodeEncoding

abbrev FitsU32 (n : ℕ) : Prop := n < 2 ^ 32

abbrev FitsString (value : String) : Prop := FitsU32 (stringBytes value).length

def FitsConstant : Constant → Prop
  | .number value | .string value | .symbol value => FitsString value
  | .boolean _ | .null | .undefined => True

abbrev FitsInstruction (instruction : Instruction) : Prop := FitsU32 instruction.operands.length

structure FitsBlock (block : BytecodeBlock) : Prop where
  count : FitsU32 block.instructions.length
  instructions : ∀ instruction ∈ block.instructions, FitsInstruction instruction

structure FitsFunction (function : BytecodeFunction) : Prop where
  name : FitsString function.name
  paramCount : FitsU32 function.params.length
  blockCount : FitsU32 function.blocks.length
  blocks : ∀ block ∈ function.blocks, FitsBlock block
  exceptionCount : FitsU32 function.exceptionTable.length

/-- Every vector and every string of the module is shorter than `2 ^ 32`. -/
structure FitsModule (m : BytecodeModule) : Prop where
  constantCount : FitsU32 m.constants.length
  sourceCount : FitsU32 m.sourceMap.length
  functionCount : FitsU32 m.functions.length
  constants : ∀ constant ∈ m.constants, FitsConstant constant
  functions : ∀ function ∈ m.functions, FitsFunction function

section Words

theorem u16FromLeBytes_writeU16 (value : UInt16) : u16FromLeBytes (writeU16 value) = value := by
  have hvalue := value.toNat_lt
  have hbytes : value.toNat % 256 + 256 * (value.toNat / 256 % 256) = value.toNat := by omega
  simp [u16FromLeBytes, writeU16, hbytes]

theorem u32FromLeBytes_writeU32 (value : UInt32) : u32FromLeBytes (writeU32 value) = value := by
  have hvalue := value.toNat_lt
  have hbytes : value.toNat % 256 + 256 * (value.toNat / 256 % 256) +
      65536 * (value.toNat / 65536 % 256) + 16777216 * (value.toNat / 16777216 % 256) =
        value.toNat := by omega
  simp [u32FromLeBytes, writeU32, hbytes]

theorem readExact_reads (bytes : List UInt8) : Reads (readExact bytes.length) bytes bytes :=
  Reads.take bytes _

theorem readU8_reads (value : UInt8) : Reads readU8 [value] value :=
  (readExact_reads [value]).map (f := fun bytes : List UInt8 => bytes.getD 0 0)

theorem readU16_reads (value : UInt16) : Reads readU16 (writeU16 value) value := by
  have h := (readExact_reads (writeU16 value)).map (f := u16FromLeBytes)
  rw [u16FromLeBytes_writeU16] at h
  exact h

theorem readU32_reads (value : UInt32) : Reads readU32 (writeU32 value) value := by
  have h := (readExact_reads (writeU32 value)).map (f := u32FromLeBytes)
  rw [u32FromLeBytes_writeU32] at h
  exact h

theorem readLength_reads {n : ℕ} (hn : FitsU32 n) : Reads readLength (writeLength n) n := by
  have h := (readU32_reads (.ofNat n)).map (f := UInt32.toNat)
  rw [UInt32.toNat_ofNat_of_lt' hn] at h
  exact h

end Words

section Tags

theorem opcodeFromU8_opcodeToU8 (opcode : Opcode) :
    opcodeFromU8 (opcodeToU8 opcode) = some opcode := by
  cases opcode <;> rfl

theorem typeTagFromU8_typeTagToU8 (tag : TypeTag) :
    typeTagFromU8 (typeTagToU8 tag) = some tag := by
  cases tag <;> rfl

theorem readOpcode_reads (opcode : Opcode) : Reads readOpcode [opcodeToU8 opcode] opcode := by
  refine (readU8_reads (opcodeToU8 opcode)).andThen ?_
  rw [opcodeFromU8_opcodeToU8]
  exact Reads.pure opcode

theorem readTypeTag_reads (tag : TypeTag) : Reads readTypeTag [typeTagToU8 tag] tag := by
  refine (readU8_reads (typeTagToU8 tag)).andThen ?_
  rw [typeTagFromU8_typeTagToU8]
  exact Reads.pure tag

end Tags

/-- The bytes of a string are its UTF-8 form, so they decode to it. -/
theorem fromUTF8_stringBytes (value : String) :
    String.fromUTF8? ⟨(stringBytes value).toArray⟩ = some value := by
  have hbytes : (⟨(stringBytes value).toArray⟩ : ByteArray) = value.toByteArray := by
    simp [stringBytes]
  rw [hbytes, String.fromUTF8?, dif_pos value.isValidUTF8]
  rfl

theorem readString_reads {value : String} (h : FitsString value) :
    Reads readString (writeString value) value := by
  refine (readLength_reads h).bind ((readExact_reads (stringBytes value)).andThen ?_)
  rw [fromUTF8_stringBytes]
  exact Reads.pure value

theorem readConstant_reads {constant : Constant} (h : FitsConstant constant) :
    Reads readConstant (writeConstant constant) constant := by
  cases constant with
  | number value => exact (readU8_reads 0).bind (readString_reads h).map
  | string value => exact (readU8_reads 1).bind (readString_reads h).map
  | boolean value =>
    have read := (readU8_reads value.toUInt8).map (f := fun byte => Constant.boolean (byte != 0))
    cases value <;> exact (readU8_reads 2).bind read
  | null => exact (readU8_reads 3).bind (Reads.pure _)
  | undefined => exact (readU8_reads 4).bind (Reads.pure _)
  | symbol value => exact (readU8_reads 5).bind (readString_reads h).map

theorem readSourceRef_reads (source : SourceRef) :
    Reads readSourceRef (writeSourceRef source) source := by
  simp only [writeSourceRef, List.append_assoc]
  exact (readU32_reads _).bind <| (readU32_reads _).bind <| (readU32_reads _).bind <|
    (readU32_reads _).bind <| (readU32_reads _).bind (readU32_reads _).map

theorem readExceptionEntry_reads (entry : ExceptionEntry) :
    Reads readExceptionEntry (writeExceptionEntry entry) entry := by
  simp only [writeExceptionEntry, List.append_assoc]
  exact (readU32_reads _).bind <| (readU32_reads _).bind (readU32_reads _).map

theorem readInstruction_reads {instruction : Instruction} (h : FitsInstruction instruction) :
    Reads readInstruction (writeInstruction instruction) instruction := by
  have operands := Reads.table fun value (_ : value ∈ instruction.operands) => readU32_reads value
  simp only [writeInstruction, List.append_assoc]
  exact (readOpcode_reads _).bind <| (readTypeTag_reads _).bind <| (readU32_reads _).bind <|
    (readLength_reads h).bind operands.map

theorem readBlock_reads {block : BytecodeBlock} (h : FitsBlock block) :
    Reads readBlock (writeBlock block) block := by
  have instructions := Reads.table fun instruction hi =>
    readInstruction_reads (h.instructions instruction hi)
  simp only [writeBlock, List.append_assoc]
  exact (readU32_reads _).bind <| (readLength_reads h.count).bind instructions.map

theorem readFunction_reads {function : BytecodeFunction} (h : FitsFunction function) :
    Reads readFunction (writeFunction function) function := by
  have params := Reads.table fun tag (_ : tag ∈ function.params) => readTypeTag_reads tag
  have blocks := Reads.table fun block hb => readBlock_reads (h.blocks block hb)
  have entries := Reads.table fun entry (_ : entry ∈ function.exceptionTable) =>
    readExceptionEntry_reads entry
  rw [← List.map_eq_flatMap] at params
  simp only [writeFunction, List.append_assoc]
  exact (readString_reads h.name).bind <| (readLength_reads h.paramCount).bind <|
    params.bind <| (readTypeTag_reads _).bind <| (readLength_reads h.blockCount).bind <|
    blocks.bind <| (readLength_reads h.exceptionCount).bind entries.map

theorem readMagic_reads (magic : Vector UInt8 4) : Reads readMagic magic.toList magic := by
  obtain ⟨⟨bytes⟩, hsize⟩ := magic
  match bytes, hsize with
  | [a, b, c, d], _ => exact (Reads.take [a, b, c, d] _).map

theorem readHeader_reads :
    Reads readHeader (bytecodeMagic.toList ++ writeU16 bytecodeVersion) currentHeader :=
  (readMagic_reads bytecodeMagic).bind (readU16_reads bytecodeVersion).map

theorem readModule_reads {m : BytecodeModule} (header : m.header = currentHeader)
    (h : FitsModule m) : Reads readModule (encodeModule m) m := by
  obtain ⟨_, constants, functions, sourceMap⟩ := m
  subst header
  have constantTable := Reads.table fun c hc => readConstant_reads (h.constants c hc)
  have sourceTable := Reads.table fun s (_ : s ∈ sourceMap) => readSourceRef_reads s
  have functionTable := Reads.table fun f hf => readFunction_reads (h.functions f hf)
  simp only [encodeModule, List.append_assoc]
  rw [← List.append_assoc currentHeader.magic.toList]
  exact readHeader_reads.bind <| (readLength_reads h.constantCount).bind <|
    (readLength_reads h.sourceCount).bind <| (readLength_reads h.functionCount).bind <|
    constantTable.bind <| sourceTable.bind functionTable.map

/-- A module with the current header survives a trip through the binary format
    when its lengths fit the `u32` counts that are written for them. -/
theorem decodeModule_encodeModule (m : BytecodeModule) (header : m.header = currentHeader)
    (h : FitsModule m) : decodeModule (encodeModule m) = .ok m := by
  obtain ⟨reserved, hread⟩ :=
    (readModule_reads header h).finish ⟨"trailing bytes after bytecode module"⟩ []
  rw [decodeModule, hread]

def sampleBlock : BytecodeBlock :=
  ⟨0, [⟨.loadConst, [0], .number, 0⟩, ⟨.call, [5, 1, 0], .unknown, 0⟩, ⟨.return, [], .undefined, 0⟩]⟩

def sampleModule : BytecodeModule where
  header := currentHeader
  constants := [.number "42", .string "é", .boolean true, .null, .undefined, .symbol "console.log"]
  functions := [⟨"__entry", [.number, .named], .undefined, [sampleBlock], [⟨0, 0, 0⟩]⟩]
  sourceMap := [⟨0, 9, 1, 1, 1, 10⟩]

theorem sampleModule_fits : FitsModule sampleModule where
  constantCount := by decide
  sourceCount := by decide
  functionCount := by decide
  constants := by simp [sampleModule, FitsConstant]; decide
  functions := by
    intro function hf
    obtain rfl := List.mem_singleton.mp hf
    refine ⟨by decide, by decide, by decide, ?_, by decide⟩
    intro block hb
    obtain rfl := List.mem_singleton.mp hb
    exact ⟨by decide, by decide⟩

theorem decodeModule_encodeModule_sample :
    decodeModule (encodeModule sampleModule) = .ok sampleModule :=
  decodeModule_encodeModule sampleModule rfl sampleModule_fits

end Tsvm.BytecodeRoundTrip
