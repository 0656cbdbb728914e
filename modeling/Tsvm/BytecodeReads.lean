import Tsvm.BytecodeCanonical
import Tsvm.ReservedSpace

set_option autoImplicit false

/-!
# Reading bytecode

`decode_module` is a local decoder that insists on the end. It reserves space for a
table before it has read any entry, and does not compare the count with what is left.
-/
namespace Tsvm.BytecodeReads
open Bytecode Codec LocalDecoders ReservedSpace BytecodeEncoding BytecodeRoundTrip BytecodeCanonical

theorem readExact_local (n : ℕ) : Local (readExact n) := Local.take n _

theorem readU8_local : Local readU8 := (readExact_local 1).map _

theorem readMagic_local : Local readMagic := (readExact_local 4).map _

theorem readU16_local : Local readU16 := (readExact_local 2).map _

theorem readU32_local : Local readU32 := (readExact_local 4).map _

theorem readLength_local : Local readLength := readU32_local.map _

theorem readString_local : Local readString := by
  refine readLength_local.bind fun length => (readExact_local length).bind fun bytes => ?_
  cases String.fromUTF8? ⟨bytes.toArray⟩ with
  | none => exact .fail _
  | some value => exact .pure value

theorem readConstant_local : Local readConstant := by
  refine readU8_local.bind fun tag => ?_
  split
  · exact readString_local.map _
  · exact readString_local.map _
  · exact readU8_local.map _
  · exact .pure _
  · exact .pure _
  · exact readString_local.map _
  · exact .fail _

theorem readOpcode_local : Local readOpcode := by
  refine readU8_local.bind fun value => ?_
  cases opcodeFromU8 value with
  | none => exact .fail _
  | some opcode => exact .pure opcode

theorem readTypeTag_local : Local readTypeTag := by
  refine readU8_local.bind fun value => ?_
  cases typeTagFromU8 value with
  | none => exact .fail _
  | some tag => exact .pure tag

theorem readSourceRef_local : Local readSourceRef :=
  readU32_local.bind fun _ => readU32_local.bind fun _ => readU32_local.bind fun _ =>
    readU32_local.bind fun _ => readU32_local.bind fun _ => readU32_local.map _

theorem readInstruction_local : Local readInstruction :=
  readOpcode_local.bind fun _ => readTypeTag_local.bind fun _ => readU32_local.bind fun _ =>
    readLength_local.bind fun count => (readU32_local.table count).map _

theorem readBlock_local : Local readBlock :=
  readU32_local.bind fun _ => readLength_local.bind fun count =>
    (readInstruction_local.table count).map _

theorem readExceptionEntry_local : Local readExceptionEntry :=
  readU32_local.bind fun _ => readU32_local.bind fun _ => readU32_local.map _

theorem readFunction_local : Local readFunction :=
  readString_local.bind fun _ => readLength_local.bind fun params =>
    (readTypeTag_local.table params).bind fun _ => readTypeTag_local.bind fun _ =>
    readLength_local.bind fun blocks => (readBlock_local.table blocks).bind fun _ =>
    readLength_local.bind fun entries => (readExceptionEntry_local.table entries).map _

theorem readHeader_local : Local readHeader := by
  refine readMagic_local.bind fun magic => ?_
  by_cases hmagic : magic = bytecodeMagic
  · rw [if_pos hmagic]
    refine readU16_local.bind fun version => ?_
    by_cases hversion : version = bytecodeVersion
    · rw [if_pos hversion]
      exact .pure _
    · rw [if_neg hversion]
      exact .fail _
  · rw [if_neg hmagic]
    exact .fail _

theorem readModule_local : Local readModule :=
  readHeader_local.bind fun _ => readLength_local.bind fun constants =>
    readLength_local.bind fun sources => readLength_local.bind fun functions =>
    (readConstant_local.table constants).bind fun _ => (readSourceRef_local.table sources).bind fun _ =>
    (readFunction_local.table functions).map _

/-- Of two accepted files neither is a proper beginning of the other. -/
theorem decodeModule_unique {bytes extra : List UInt8} {m m' : BytecodeModule}
    (h : decodeModule bytes = .ok m) (h' : decodeModule (bytes ++ extra) = .ok m') : extra = [] := by
  unfold decodeModule at h h'
  exact readModule_local.finish_unique (Prod.ext h rfl) (Prod.ext h' rfl)

/-- What is cut off from an accepted file, or added to it, makes decoding fail. -/
theorem decodeModule_prefixFree {bytes other : List UInt8} {m : BytecodeModule}
    (h : decodeModule bytes = .ok m) (hne : other ≠ bytes)
    (hpart : other <+: bytes ∨ bytes <+: other) : ∃ e, decodeModule other = .error e := by
  cases hother : decodeModule other with
  | error e => exact ⟨e, rfl⟩
  | ok m' =>
    refine absurd ?_ hne
    cases hpart with
    | inl hshort =>
      obtain ⟨extra, rfl⟩ := hshort
      rw [decodeModule_unique hother h, List.append_nil]
    | inr hlong =>
      obtain ⟨extra, rfl⟩ := hlong
      rw [decodeModule_unique h hother, List.append_nil]

theorem sampleModule_extended :
    ∃ e, decodeModule (encodeModule sampleModule ++ [0]) = .error e :=
  decodeModule_prefixFree decodeModule_encodeModule_sample (by decide +kernel)
    (.inr (List.prefix_append _ _))

/-- The requests for space while `bytes` are decoded: how many entries, and how many bytes
    are left. -/
def reservations (bytes : List UInt8) : List (ℕ × ℕ) :=
  ((readModule >>= fun m => finish ⟨"trailing bytes after bytecode module"⟩ >>= fun _ => pure m)
    ⟨bytes, []⟩).2.reserved

def operandsHead : Head UInt8 := thenHead readLength (tableHead readU32 noHead)

def instructionHead : Head UInt8 :=
  thenHead readOpcode fun _ => thenHead readTypeTag fun _ => thenHead readU32 fun _ => operandsHead

def blockHead : Head UInt8 :=
  thenHead readU32 fun _ => thenHead readLength (tableHead readInstruction instructionHead)

def exceptionsHead : Head UInt8 := thenHead readLength (tableHead readExceptionEntry noHead)

def blocksHead : Head UInt8 :=
  thenHead readLength fun count => orHead (tableHead readBlock blockHead count)
    (thenHead (table readBlock count) fun _ => exceptionsHead)

def functionHead : Head UInt8 :=
  thenHead readString fun _ => thenHead readLength fun count =>
    orHead (tableHead readTypeTag noHead count)
      (thenHead (table readTypeTag count) fun _ => thenHead readTypeTag fun _ => blocksHead)

/-- The beginnings of a module that end where a table begins. -/
def moduleHead : Head UInt8 :=
  thenHead readHeader fun _ => thenHead readLength fun constants => thenHead readLength fun sources =>
    thenHead readLength fun functions => orHead (tableHead readConstant noHead constants)
      (thenHead (table readConstant constants) fun _ =>
        orHead (tableHead readSourceRef noHead sources)
          (thenHead (table readSourceRef sources) fun _ => tableHead readFunction functionHead functions))

theorem readExact_requests (n : ℕ) : Requests (readExact n) noHead := Requests.take n _

theorem readU8_requests : Requests readU8 noHead := (readExact_requests 1).map (readExact_local 1) _

theorem readMagic_requests : Requests readMagic noHead :=
  (readExact_requests 4).map (readExact_local 4) _

theorem readU16_requests : Requests readU16 noHead := (readExact_requests 2).map (readExact_local 2) _

theorem readU32_requests : Requests readU32 noHead := (readExact_requests 4).map (readExact_local 4) _

theorem readLength_requests : Requests readLength noHead := readU32_requests.map readU32_local _

theorem readString_requests : Requests readString noHead := by
  refine readLength_requests.none readLength_local fun length =>
    (readExact_requests length).none (readExact_local length) fun bytes => ?_
  cases String.fromUTF8? ⟨bytes.toArray⟩ with
  | none => exact .fail _
  | some value => exact .pure value

theorem readConstant_requests : Requests readConstant noHead := by
  refine readU8_requests.none readU8_local fun tag => ?_
  split
  · exact readString_requests.map readString_local _
  · exact readString_requests.map readString_local _
  · exact readU8_requests.map readU8_local _
  · exact .pure _
  · exact .pure _
  · exact readString_requests.map readString_local _
  · exact .fail _

theorem readOpcode_requests : Requests readOpcode noHead := by
  refine readU8_requests.none readU8_local fun value => ?_
  cases opcodeFromU8 value with
  | none => exact .fail _
  | some opcode => exact .pure opcode

theorem readTypeTag_requests : Requests readTypeTag noHead := by
  refine readU8_requests.none readU8_local fun value => ?_
  cases typeTagFromU8 value with
  | none => exact .fail _
  | some tag => exact .pure tag

theorem readSourceRef_requests : Requests readSourceRef noHead :=
  readU32_requests.none readU32_local fun _ => readU32_requests.none readU32_local fun _ =>
    readU32_requests.none readU32_local fun _ => readU32_requests.none readU32_local fun _ =>
    readU32_requests.none readU32_local fun _ => readU32_requests.map readU32_local _

theorem readExceptionEntry_requests : Requests readExceptionEntry noHead :=
  readU32_requests.none readU32_local fun _ => readU32_requests.none readU32_local fun _ =>
    readU32_requests.map readU32_local _

theorem readInstruction_requests : Requests readInstruction instructionHead :=
  readOpcode_requests.andThen readOpcode_local fun _ =>
    readTypeTag_requests.andThen readTypeTag_local fun _ =>
    readU32_requests.andThen readU32_local fun _ =>
    readLength_requests.andThen readLength_local fun count =>
    (readU32_requests.table readU32_local count).map (readU32_local.table count) _

theorem readBlock_requests : Requests readBlock blockHead :=
  readU32_requests.andThen readU32_local fun _ =>
    readLength_requests.andThen readLength_local fun count =>
    (readInstruction_requests.table readInstruction_local count).map
      (readInstruction_local.table count) _

theorem readFunction_requests : Requests readFunction functionHead :=
  readString_requests.andThen readString_local fun _ =>
    readLength_requests.andThen readLength_local fun params =>
    (readTypeTag_requests.table readTypeTag_local params).bind (readTypeTag_local.table params) fun _ =>
    readTypeTag_requests.andThen readTypeTag_local fun _ =>
    readLength_requests.andThen readLength_local fun blocks =>
    (readBlock_requests.table readBlock_local blocks).bind (readBlock_local.table blocks) fun _ =>
    readLength_requests.andThen readLength_local fun entries =>
    (readExceptionEntry_requests.table readExceptionEntry_local entries).map
      (readExceptionEntry_local.table entries) _

theorem readHeader_requests : Requests readHeader noHead := by
  refine readMagic_requests.none readMagic_local fun magic => ?_
  by_cases hmagic : magic = bytecodeMagic
  · rw [if_pos hmagic]
    refine readU16_requests.none readU16_local fun version => ?_
    by_cases hversion : version = bytecodeVersion
    · rw [if_pos hversion]
      exact .pure _
    · rw [if_neg hversion]
      exact .fail _
  · rw [if_neg hmagic]
    exact .fail _

theorem readModule_requests : Requests readModule moduleHead :=
  readHeader_requests.andThen readHeader_local fun _ =>
    readLength_requests.andThen readLength_local fun constants =>
    readLength_requests.andThen readLength_local fun sources =>
    readLength_requests.andThen readLength_local fun functions =>
    (readConstant_requests.table readConstant_local constants).bind
      (readConstant_local.table constants) fun _ =>
    (readSourceRef_requests.table readSourceRef_local sources).bind
      (readSourceRef_local.table sources) fun _ =>
    (readFunction_requests.table readFunction_local functions).map
      (readFunction_local.table functions) _

/-- The requests stay within the file exactly when no table begins in it whose count is
    greater than the number of bytes behind it. -/
theorem reservations_within_iff (bytes : List UInt8) :
    (∀ request ∈ reservations bytes, request.1 ≤ request.2) ↔
      ∀ w rest n, bytes = w ++ rest → moduleHead w n → n ≤ rest.length :=
  requests_within_iff (readModule_requests.atEnd readModule_local _) bytes

/-- A header that announces 4294967295 constants, and nothing else. -/
def hostileBytes : List UInt8 :=
  [84, 83, 86, 77, 1, 0, 255, 255, 255, 255, 0, 0, 0, 0, 0, 0, 0, 0]

theorem hostileBytes_reservations :
    (4294967295, 0) ∈ reservations hostileBytes ∧
      ¬ ∀ request ∈ reservations hostileBytes, request.1 ≤ request.2 := by
  have hmem : (4294967295, 0) ∈ reservations hostileBytes := by decide +kernel
  exact ⟨hmem, fun h => absurd (h _ hmem) (by decide)⟩

end Tsvm.BytecodeReads
