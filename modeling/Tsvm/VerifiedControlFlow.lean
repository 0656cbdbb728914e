import Tsvm.VerifiedReferences

set_option autoImplicit false

/-!
# Control flow of verified modules

A jump of an accepted module always finds its block. The initial transfer to
block 0 and the terminator of a block are not checked: a run keeps to its blocks
when every function it calls has a block 0 and every block it enters has a
terminator.
-/
namespace Tsvm.VerifiedControlFlow
open Bytecode BytecodeVerifier BytecodeVerifierFacts Interop RuntimeValues Interpreter
  InterpreterSteps RuntimeFailures VerifiedReferences

variable {ν : Type} [F64 ν]

section

variable (m : BytecodeModule) (host : HostEnvironment ν)

def GoesTo (name : String) (args : List (RuntimeValue ν)) (s : Machine ν)
    (function : BytecodeFunction) : Prop :=
  ∃ t, dispatch m host name args s = (.ok (.inr function), t)

/-- The functions that are called when `name` is: its own and those of the calls
    that are passed. -/
def Called (name : String) (args : List (RuntimeValue ν)) (s : Machine ν)
    (function : BytecodeFunction) : Prop :=
  GoesTo m host name args s function ∨
    ∃ p name' args', Passes m host name args s p ∧ CallsWith m p name' args' ∧
      GoesTo m host name' args' p.machine function

/-- The blocks of a run are found, and left by a terminator. -/
structure KeepsToBlocks (name : String) (args : List (RuntimeValue ν)) (s : Machine ν) : Prop where
  lookup : ∀ fuel id, (callFunction m host fuel name args s).1 ≠ .error (.runtime (.blockMissing id))
  inside : ∀ p, Passes m host name args s p → p.instruction ≠ none
  leaves : ∀ p, Passes m host name args s p → p.pc = 0 → ∀ fuel flow frame t,
    executeBlock m (callFunction m host fuel) p.block.instructions p.frame p.machine =
      (.ok (flow, frame), t) → flow ≠ .continue

end

variable {m : BytecodeModule} {host : HostEnvironment ν}

omit [F64 ν] in
theorem findBlock_of_mem {function : BytecodeFunction} {id : UInt32}
    (h : id ∈ blockIds function) : ∃ block, findBlock function id = .ok block := by
  cases hd : findBlock function id with
  | ok block => exact ⟨block, rfl⟩
  | error e => exact absurd h (findBlock_error hd).2

omit [F64 ν] in
theorem Checked.target {ids : List UInt32} {instruction : Instruction} {s t : BlockState}
    {frame frame' : Frame ν} {target : UInt32} (hchecked : Checked m ids instruction s t)
    (heffect : Effect instruction frame (.jump target) frame') : target ∈ ids := by
  cases heffect with
  | branch hop htarget =>
    cases hchecked with
    | branch _ hthen helse =>
      rcases htarget with ⟨⟨⟩⟩ | ⟨⟨⟩⟩
      · exact hthen
      · exact helse
    | _ => cases hop
  | jump hop htarget =>
    cases hchecked with
    | jump hmem =>
      cases htarget
      exact hmem
    | _ => cases hop

theorem Verified.jump_found (haccepted : Accepted m) {p : Point ν} (hp : Verified m p)
    {target : UInt32} {frame : Frame ν} {t : Machine ν}
    (hexec : Executes m host p (.jump target) frame t) :
    ∃ block, findBlock p.function target = .ok block := by
  obtain ⟨instruction, hi, heffect⟩ := hexec.effect
  exact findBlock_of_mem (Checked.target (hp.checked haccepted hi) heffect)

theorem CheckedFailure.not_blockMissing {instruction : Instruction} {id : UInt32} :
    ¬ CheckedFailure ν m instruction (.runtime (.blockMissing id)) := by
  intro h
  cases h with
  | heap h => cases h

omit [F64 ν] in
theorem refuses_blockMissing {name : String} {args : List (RuntimeValue ν)} {s : Machine ν}
    {id : UInt32} :
    Refuses m host name args s (.runtime (.blockMissing id)) ↔
      id = 0 ∧ ∃ function, GoesTo m host name args s function ∧ 0 ∉ blockIds function := by
  constructor
  · rintro (h | ⟨function, t, hdispatch, h⟩)
    · rcases dispatch_error h with h | ⟨error, h⟩ | h
      · cases h
      · cases h
      · cases h
    · obtain ⟨he, hmem⟩ := findBlock_error h
      cases he
      exact ⟨rfl, function, ⟨t, hdispatch⟩, hmem⟩
  · rintro ⟨rfl, function, ⟨t, hdispatch⟩, hmem⟩
    refine .inr ⟨function, t, hdispatch, ?_⟩
    cases hd : findBlock function 0 with
    | ok block =>
      obtain ⟨hblock, hid⟩ := findBlock_eq_ok hd
      exact absurd (List.mem_map.mpr ⟨block, hblock, hid⟩) hmem
    | error e => rw [(findBlock_error hd).1]

theorem callFunction_blockMissing_iff (haccepted : Accepted m) {name : String}
    {args : List (RuntimeValue ν)} {s : Machine ν} :
    (∀ fuel id, (callFunction m host fuel name args s).1 ≠ .error (.runtime (.blockMissing id))) ↔
      ∀ function, Called m host name args s function → 0 ∈ blockIds function := by
  have hne : ∀ id, Stop.runtime (.blockMissing id) ≠ .outOfFuel := fun id => nofun
  constructor
  · intro h function hcalled
    by_contra hmem
    have hstop : Refuses m host name args s (.runtime (.blockMissing 0)) ∨
        ∃ p, Passes m host name args s p ∧ Fails m host p (.runtime (.blockMissing 0)) := by
      rcases hcalled with hgoes | ⟨p, name', args', hpasses, hcalls, hgoes⟩
      · exact .inl (refuses_blockMissing.mpr ⟨rfl, function, hgoes, hmem⟩)
      · exact .inr ⟨p, hpasses,
          .call hcalls (refuses_blockMissing.mpr ⟨rfl, function, hgoes, hmem⟩)⟩
    obtain ⟨fuel, hfuel⟩ := (callFunction_error_iff (hne 0)).mpr hstop
    exact h fuel 0 hfuel
  · intro h fuel id hfuel
    rcases (callFunction_error_iff (hne id)).mp ⟨fuel, hfuel⟩ with hrefuse | ⟨p, hpasses, hfails⟩
    · obtain ⟨_, function, hgoes, hmem⟩ := refuses_blockMissing.mp hrefuse
      exact hmem (h function (.inl hgoes))
    · have hp := Verified.reachable haccepted hpasses.reachable
      cases hfails with
      | instruction hi hown =>
        exact CheckedFailure.not_blockMissing
          (Checked.failure (hp.checked haccepted hi) (hp.supplies haccepted) hown)
      | call hcalls hrefuse =>
        obtain ⟨_, function, hgoes, hmem⟩ := refuses_blockMissing.mp hrefuse
        exact hmem (h function (.inr ⟨p, _, _, hpasses, hcalls, hgoes⟩))
      | jump hexec hblock =>
        obtain ⟨block, hfound⟩ := Verified.jump_found haccepted hp hexec
        rw [hfound] at hblock
        cases hblock

omit [F64 ν] in
theorem Effect.not_terminator {instruction : Instruction} {frame frame' : Frame ν}
    (h : Effect instruction frame .continue frame') : isTerminator instruction.opcode = false := by
  cases h with
  | push hop value =>
    cases hcode : instruction.opcode <;> rw [hcode] at hop <;> first | rfl | cases hop
  | storeLocal hop => rw [hop]; rfl
  | storeMember hop => rw [hop]; rfl

theorem Reachable.unterminated {p : Point ν} (h : Reachable m host p) :
    ∀ instruction ∈ p.block.instructions.take p.pc, isTerminator instruction.opcode = false := by
  refine h.induction (I := fun p => ∀ instruction ∈ p.block.instructions.take p.pc,
    isTerminator instruction.opcode = false) ?_ ?_
  · rintro p ⟨function, _, block, args, machine, _, rfl⟩ instruction hmem
    cases hmem
  · intro p q hp hstep
    cases hstep with
    | next hnext =>
      obtain ⟨frame, machine, hexec, rfl⟩ := hnext
      obtain ⟨instruction, hi, heffect⟩ := hexec.effect
      intro i hmem
      simp only [Point.after, List.take_add_one, List.mem_append, Option.mem_toList] at hmem
      rcases hmem with hmem | hmem
      · exact hp i hmem
      · have hsame : some instruction = some i := hi.symm.trans hmem
        cases hsame
        exact Effect.not_terminator heffect
    | jump hexec hblock =>
      intro i hmem
      cases hmem
    | call hcalls henter =>
      obtain ⟨function, block, t, _, _, rfl⟩ := henter
      intro i hmem
      cases hmem

/-- In a run of an accepted module whose functions have a block 0 and whose
    blocks have a terminator, every block is found and left by a terminator. -/
theorem callFunction_keepsToBlocks (haccepted : Accepted m) (name : String)
    (args : List (RuntimeValue ν)) (s : Machine ν)
    (hentry : ∀ function, Called m host name args s function → 0 ∈ blockIds function)
    (hblocks : ∀ p, Passes m host name args s p → hasTerminator p.block = true) :
    KeepsToBlocks m host name args s := by
  have hinside : ∀ p, Passes m host name args s p → p.instruction ≠ none := by
    intro p hpasses hnone
    have hlength := List.getElem?_eq_none_iff.mp hnone
    obtain ⟨instruction, hmem, hterminator⟩ := List.any_eq_true.mp (hblocks p hpasses)
    have hbefore := Reachable.unterminated hpasses.reachable instruction
    rw [List.take_of_length_le hlength] at hbefore
    rw [hbefore hmem] at hterminator
    cases hterminator
  refine ⟨(callFunction_blockMissing_iff haccepted).mpr hentry, hinside, ?_⟩
  rintro p hpasses hpc fuel flow frame t hexec rfl
  have hends := executeBlock_ends (callFunction_ends m host fuel)
    p.block.instructions p (by rw [hpc, List.drop_zero]) (by omega)
  rw [hexec] at hends
  obtain ⟨start, henter, hreach⟩ := hpasses
  refine hinside (p.atEnd frame t) ⟨start, henter, hreach.trans hends.reaches⟩ ?_
  exact List.getElem?_eq_none_iff.mpr le_rfl

/-- The only block has the id 1. -/
def noBlockZero : BytecodeModule := entryModule [.boolean true] [⟨1, [returnVoid]⟩]

/-- Block 0 ends without a terminator, block 1 has one. -/
def fallsThrough : BytecodeModule := entryModule [.boolean true] [⟨0, [loadTrue]⟩, ⟨1, [returnVoid]⟩]

theorem accepted_leaves_blocks :
    verifyModule noBlockZero = .ok () ∧ verifyModule fallsThrough = .ok () ∧
      ¬ KeepsToBlocks noBlockZero (.new : HostEnvironment Int) "__entry" [] .new ∧
      ¬ KeepsToBlocks fallsThrough (.new : HostEnvironment Int) "__entry" [] .new := by
  refine ⟨rfl, rfl, fun h => h.lookup 1 0 rfl, fun h => ?_⟩
  have henter : Enters fallsThrough (.new : HostEnvironment Int) "__entry" [] .new
      (entry ⟨"__entry", [], .undefined, [⟨0, [loadTrue]⟩, ⟨1, [returnVoid]⟩], []⟩
        ⟨0, [loadTrue]⟩ [] .new) := ⟨_, _, _, rfl, rfl, rfl⟩
  exact h.leaves _ ⟨_, henter, .refl⟩ rfl 0 .continue ⟨[], [.boolean true]⟩ .new rfl rfl

theorem Called.mem {name : String} {args : List (RuntimeValue ν)} {s : Machine ν}
    {function : BytecodeFunction} (h : Called m host name args s function) :
    function ∈ m.functions := by
  rcases h with ⟨t, hdispatch⟩ | ⟨p, name', args', _, _, t, hdispatch⟩
  · exact dispatch_mem hdispatch
  · exact dispatch_mem hdispatch

theorem armsModule_keepsToBlocks :
    KeepsToBlocks armsModule (.new : HostEnvironment Int) "__entry" [.boolean true] .new := by
  have haccepted : Accepted armsModule := rfl
  refine callFunction_keepsToBlocks haccepted "__entry" _ _ ?_ ?_
  · intro function hcalled
    obtain rfl := List.mem_singleton.mp hcalled.mem
    decide
  · intro p hpasses
    have hp := Verified.reachable haccepted hpasses.reachable
    have hall : ∀ function ∈ armsModule.functions, ∀ block ∈ function.blocks,
        hasTerminator block = true := by decide
    exact hall p.function hp.function p.block hp.block

end Tsvm.VerifiedControlFlow
