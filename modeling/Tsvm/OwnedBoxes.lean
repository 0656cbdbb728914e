import Mathlib

set_option autoImplicit false

/-!
# Objects behind pointers

A library keeps its objects in boxes and gives their addresses to a caller, who passes them
back until he has the object released. An allocator may use the address of a released box
again. As long as the caller uses no pointer that he has released, his variables might as
well hold the objects themselves, each of which only changes with the calls made on it.
-/
namespace Tsvm.OwnedBoxes

/-- What a variable of the caller stands for. -/
inductive Slot (α : Type) where
  | null
  | live (object : α)
  | released

/-- What an operation does: a reply, what is left of the object it was given, and what is
    written into a new variable of the caller, which may be null. -/
structure Answer (α ρ : Type) where
  reply : ρ
  kept : Option α
  created : Option (Option α)

/-- A call, on the pointer in one of the variables or on none. -/
structure Request (ι : Type) where
  target : Option ℕ
  operation : ι

variable {ι α ρ : Type}

abbrev Behaviour (ι α ρ : Type) := ι → Option α → Option (Answer α ρ)

variable (act : Behaviour ι α ρ)

namespace Slot

def given : Slot α → Option (Option α)
  | .null => some none
  | .live object => some (some object)
  | .released => none

def after (kept : Option α) : Slot α → Slot α
  | .live _ =>
    match kept with
    | some object => .live object
    | none => .released
  | slot => slot

def new : Option (Option α) → List (Slot α)
  | none => []
  | some none => [.null]
  | some (some object) => [.live object]

end Slot

def passed (target : Option ℕ) (slots : List (Slot α)) : Option (Slot α) :=
  match target with
  | none => some .null
  | some index => slots[index]?

def assign (target : Option ℕ) (slot : Slot α) (slots : List (Slot α)) :
    List (Slot α) :=
  match target with
  | none => slots
  | some index => slots.set index slot

def perform (request : Request ι) (slots : List (Slot α)) :
    Option (ρ × List (Slot α)) := do
  let slot ← passed request.target slots
  let object ← slot.given
  let answer ← act request.operation object
  pure (answer.reply, assign request.target (slot.after answer.kept) slots ++
    Slot.new answer.created)

def performAll : List (Request ι) → List (Slot α) → Option (List ρ × List (Slot α))
  | [], slots => some ([], slots)
  | request :: requests, slots => do
    let first ← perform act request slots
    let rest ← performAll requests first.2
    pure (first.1 :: rest.1, rest.2)

/-- The replies of one object to the operations on it. -/
def performAlone : List ι → Slot α → Option (List ρ × Slot α)
  | [], slot => some ([], slot)
  | operation :: operations, slot => do
    let object ← slot.given
    let answer ← act operation object
    let rest ← performAlone operations (slot.after answer.kept)
    pure (answer.reply :: rest.1, rest.2)

def onSlot (index : ℕ) (requests : List (Request ι)) : List ι :=
  (requests.filter fun request => request.target = some index).map Request.operation

def repliesOn (index : ℕ) (requests : List (Request ι)) (replies : List ρ) : List ρ :=
  ((requests.zip replies).filter fun exchange => exchange.1.target = some index).map Prod.snd

variable {act} {request : Request ι} {requests : List (Request ι)} {reply : ρ}
  {replies : List ρ} {slots after : List (Slot α)}

theorem perform_eq_some (h : perform act request slots = some (reply, after)) :
    ∃ slot object answer, passed request.target slots = some slot ∧
      slot.given = some object ∧ act request.operation object = some answer ∧
      answer.reply = reply ∧ after =
        assign request.target (slot.after answer.kept) slots ++
          Slot.new answer.created := by
  obtain ⟨slot, hpassed, h⟩ := Option.bind_eq_some_iff.mp h
  obtain ⟨object, hgiven, h⟩ := Option.bind_eq_some_iff.mp h
  obtain ⟨answer, hact, h⟩ := Option.bind_eq_some_iff.mp h
  cases h
  exact ⟨slot, object, answer, hpassed, hgiven, hact, rfl, rfl⟩

theorem assign_length (target : Option ℕ) (slot : Slot α)
    (slots : List (Slot α)) :
    (assign target slot slots).length = slots.length := by
  cases target with
  | none => rfl
  | some index => exact List.length_set

theorem performAll_cons (h : performAll act (request :: requests) slots =
    some (replies, after)) : ∃ reply middle rest, perform act request slots =
      some (reply, middle) ∧ performAll act requests middle = some (rest, after) ∧
      replies = reply :: rest := by
  obtain ⟨⟨reply, middle⟩, hfirst, h⟩ := Option.bind_eq_some_iff.mp h
  obtain ⟨⟨rest, last⟩, hrest, h⟩ := Option.bind_eq_some_iff.mp h
  cases h
  exact ⟨reply, middle, rest, hfirst, hrest, rfl⟩

theorem performAlone_cons {operation : ι} {operations : List ι} {slot last : Slot α}
    (h : performAlone act (operation :: operations) slot = some (replies, last)) :
    ∃ object answer rest, slot.given = some object ∧ act operation object = some answer ∧
      performAlone act operations (slot.after answer.kept) = some (rest, last) ∧
      replies = answer.reply :: rest := by
  obtain ⟨object, hgiven, h⟩ := Option.bind_eq_some_iff.mp h
  obtain ⟨answer, hact, h⟩ := Option.bind_eq_some_iff.mp h
  obtain ⟨⟨rest, _⟩, hrest, h⟩ := Option.bind_eq_some_iff.mp h
  cases h
  exact ⟨object, answer, rest, hgiven, hact, hrest, rfl⟩

theorem perform_other (h : perform act request slots = some (reply, after)) {index : ℕ}
    (hother : request.target ≠ some index) {slot : Slot α}
    (hindex : slots[index]? = some slot) : after[index]? = some slot := by
  obtain ⟨_, _, answer, _, _, _, _, rfl⟩ := perform_eq_some h
  have hlt := (List.getElem?_eq_some_iff.mp hindex).1
  rw [List.getElem?_append_left (by rw [assign_length]; exact hlt)]
  cases htarget : request.target with
  | none => exact hindex
  | some target =>
    rw [htarget] at hother
    rw [assign, List.getElem?_set_ne fun heq => hother (congrArg some heq)]
    exact hindex

theorem perform_own (h : perform act request slots = some (reply, after)) {index : ℕ}
    (hown : request.target = some index) {slot : Slot α}
    (hindex : slots[index]? = some slot) : ∃ object answer,
      slot.given = some object ∧ act request.operation object = some answer ∧
      answer.reply = reply ∧ after[index]? = some (slot.after answer.kept) := by
  obtain ⟨found, object, answer, hpassed, hgiven, hact, hreply, rfl⟩ := perform_eq_some h
  rw [hown, passed, hindex] at hpassed
  cases hpassed
  refine ⟨object, answer, hgiven, hact, hreply, ?_⟩
  have hlt := (List.getElem?_eq_some_iff.mp hindex).1
  rw [List.getElem?_append_left (by rw [assign_length]; exact hlt), hown, assign,
    List.getElem?_set_self hlt]

theorem performAll_append {more : List (Request ι)}
    (h : performAll act (requests ++ more) slots = some (replies, after)) :
    ∃ first middle rest, performAll act requests slots = some (first, middle) ∧
      performAll act more middle = some (rest, after) ∧ first.length = requests.length ∧
      replies = first ++ rest := by
  induction requests generalizing slots replies with
  | nil => exact ⟨[], slots, replies, rfl, h, rfl, rfl⟩
  | cons request requests ih =>
    obtain ⟨reply, next, others, hfirst, hothers, rfl⟩ := performAll_cons h
    obtain ⟨first, middle, rest, hbefore, hmore, hlength, rfl⟩ := ih hothers
    refine ⟨reply :: first, middle, rest, ?_, hmore, congrArg Nat.succ hlength, rfl⟩
    exact Option.bind_eq_some_iff.mpr ⟨_, hfirst, Option.bind_eq_some_iff.mpr ⟨_, hbefore, rfl⟩⟩

section

variable {index : ℕ}

theorem onSlot_own (h : request.target = some index) :
    onSlot index (request :: requests) = request.operation :: onSlot index requests := by
  simp [onSlot, h]

theorem onSlot_other (h : request.target ≠ some index) :
    onSlot index (request :: requests) = onSlot index requests := by
  simp [onSlot, h]

theorem repliesOn_own (h : request.target = some index) :
    repliesOn index (request :: requests) (reply :: replies) =
      reply :: repliesOn index requests replies := by
  simp [repliesOn, h]

theorem repliesOn_other (h : request.target ≠ some index) :
    repliesOn index (request :: requests) (reply :: replies) =
      repliesOn index requests replies := by
  simp [repliesOn, h]

end

/-- Whatever calls are made in between, an object answers as if it were alone. -/
theorem performAll_alone (h : performAll act requests slots = some (replies, after)) {index : ℕ}
    {slot : Slot α} (hindex : slots[index]? = some slot) :
    ∃ last, performAlone act (onSlot index requests) slot =
        some (repliesOn index requests replies, last) ∧ after[index]? = some last := by
  induction requests generalizing slots slot replies with
  | nil =>
    cases h
    exact ⟨slot, rfl, hindex⟩
  | cons request requests ih =>
    obtain ⟨reply, middle, rest, hfirst, hrest, rfl⟩ := performAll_cons h
    by_cases hown : request.target = some index
    · obtain ⟨object, answer, hgiven, hact, rfl, hafter⟩ := perform_own hfirst hown hindex
      obtain ⟨last, halone, hlast⟩ := ih hrest hafter
      refine ⟨last, ?_, hlast⟩
      rw [onSlot_own hown, repliesOn_own hown, performAlone]
      exact Option.bind_eq_some_iff.mpr ⟨object, hgiven, Option.bind_eq_some_iff.mpr
        ⟨answer, hact, Option.bind_eq_some_iff.mpr ⟨_, halone, rfl⟩⟩⟩
    · obtain ⟨last, halone, hlast⟩ := ih hrest (perform_other hfirst hown hindex)
      refine ⟨last, ?_, hlast⟩
      rw [onSlot_other hown, repliesOn_other hown]
      exact halone

abbrev Address := ℕ

abbrev Memory (α : Type) := Address → Option α

/-- The variables of the caller and the memory of the library. -/
structure Machine (α : Type) where
  pointers : List (Option Address)
  memory : Memory α

def Memory.put (memory : Memory α) (address : Address) (box : Option α) : Memory α :=
  Function.update memory address box

def allocated (fresh : Address) (created : Option (Option α)) (memory : Memory α) :
    Option (Option Address) × Memory α :=
  match created with
  | none => (none, memory)
  | some none => (some none, memory)
  | some (some object) => (some (some fresh), memory.put fresh (some object))

abbrev Method (ρ α : Type) :=
  Option Address → Memory α → Option (ρ × Option (Option Address) × Memory α)

variable (act) in
def performAt (fresh : Address) (operation : ι) : Method ρ α := fun pointer memory =>
  match pointer with
  | none => do
    let answer ← act operation none
    pure (answer.reply, allocated fresh answer.created memory)
  | some address => do
    let object ← memory address
    let answer ← act operation (some object)
    pure (answer.reply, allocated fresh answer.created (memory.put address answer.kept))

def pointerOf (target : Option ℕ) (pointers : List (Option Address)) : Option (Option Address) :=
  match target with
  | none => some none
  | some index => pointers[index]?

def callMethod (method : ι → Method ρ α) (request : Request ι) (machine : Machine α) :
    Option (ρ × Machine α) := do
  let pointer ← pointerOf request.target machine.pointers
  let (reply, written, memory) ← method request.operation pointer machine.memory
  pure (reply, ⟨machine.pointers ++ written.toList, memory⟩)

/-- A row of calls, with an allocator that may look at everything. -/
def callAll (method : Address → ι → Method ρ α) (allocator : List ρ → Machine α → Address) :
    List (Request ι) → List ρ → Machine α → Option (List ρ × Machine α)
  | [], replies, machine => some (replies, machine)
  | request :: requests, replies, machine => do
    let (reply, machine) ← callMethod (method (allocator replies machine)) request machine
    callAll method allocator requests (replies ++ [reply]) machine

/-- The pointers lead to the objects, each live object has a box of its own, and there are no
    other boxes. -/
structure Holds (slots : List (Slot α)) (machine : Machine α) : Prop where
  length : machine.pointers.length = slots.length
  null : ∀ index : ℕ, slots[index]? = some .null → machine.pointers[index]? = some none
  live : ∀ (index : ℕ) object, slots[index]? = some (.live object) →
    ∃ address, machine.pointers[index]? = some (some address) ∧ machine.memory address = some object
  own : ∀ (index other : ℕ) object object' address, slots[index]? = some (.live object) →
    slots[other]? = some (.live object') → machine.pointers[index]? = some (some address) →
    machine.pointers[other]? = some (some address) → index = other
  owned : ∀ address object, machine.memory address = some object → ∃ index : ℕ,
    slots[index]? = some (.live object) ∧ machine.pointers[index]? = some (some address)

section

variable {machine : Machine α}

theorem Memory.put_self (memory : Memory α) (address : Address) (box : Option α) :
    memory.put address box address = box := Function.update_self ..

theorem Memory.put_other (memory : Memory α) {address other : Address} (h : other ≠ address)
    (box : Option α) : memory.put address box other = memory other := Function.update_of_ne h ..

theorem Slot.after_live {object object' : α} {kept : Option α}
    (h : (Slot.live object).after kept = .live object') : kept = some object' := by
  cases kept with
  | none => cases h
  | some left =>
    cases h
    rfl

theorem Holds.put (h : Holds slots machine) {index : ℕ} {object : α} {address : Address}
    (hslot : slots[index]? = some (.live object))
    (hpointer : machine.pointers[index]? = some (some address)) (kept : Option α) :
    Holds (slots.set index ((Slot.live object).after kept))
      ⟨machine.pointers, machine.memory.put address kept⟩ := by
  have hlt := (List.getElem?_eq_some_iff.mp hslot).1
  have hself := List.getElem?_set_self (a := (Slot.live object).after kept) hlt
  -- The slot at `other` was live before if it is live now.
  have hbefore (other : ℕ) (object' : α)
      (hother : (slots.set index ((Slot.live object).after kept))[other]? = some (.live object')) :
      ∃ before, slots[other]? = some (.live before) := by
    by_cases heq : other = index
    · rw [heq]
      exact ⟨object, hslot⟩
    · rw [List.getElem?_set_ne (Ne.symm heq)] at hother
      exact ⟨object', hother⟩
  refine ⟨?_, fun other hother => ?_, fun other object' hother => ?_, ?_, ?_⟩
  · rw [List.length_set]
    exact h.length
  · by_cases heq : other = index
    · rw [heq, hself] at hother
      cases kept with
      | none => cases hother
      | some left => cases hother
    · rw [List.getElem?_set_ne (Ne.symm heq)] at hother
      exact h.null other hother
  · by_cases heq : other = index
    · rw [heq, hself] at hother
      rw [heq, Slot.after_live (Option.some.inj hother)]
      exact ⟨address, hpointer, Memory.put_self _ _ _⟩
    · rw [List.getElem?_set_ne (Ne.symm heq)] at hother
      obtain ⟨address', hpointer', hmemory⟩ := h.live other object' hother
      have hplace : address' ≠ address := by
        rintro rfl
        exact heq (h.own other index object' object address' hother hslot hpointer' hpointer)
      exact ⟨address', hpointer', (Memory.put_other _ hplace _).trans hmemory⟩
  · intro i j a b place hi hj hpi hpj
    obtain ⟨before, hi⟩ := hbefore i a hi
    obtain ⟨before', hj⟩ := hbefore j b hj
    exact h.own i j before before' place hi hj hpi hpj
  · intro place found hfound
    change machine.memory.put address kept place = some found at hfound
    by_cases hplace : place = address
    · rw [hplace, Memory.put_self] at hfound
      rw [hplace]
      refine ⟨index, ?_, hpointer⟩
      rw [hself, hfound]
      rfl
    · rw [Memory.put_other _ hplace] at hfound
      obtain ⟨other, hother, hpointer'⟩ := h.owned place found hfound
      refine ⟨other, ?_, hpointer'⟩
      rw [List.getElem?_set_ne]
      · exact hother
      · rintro rfl
        rw [hpointer] at hpointer'
        cases hpointer'
        exact hplace rfl

theorem getElem?_concat_cases {β : Type} {xs : List β} {x y : β} {index : ℕ}
    (h : (xs ++ [x])[index]? = some y) :
    xs[index]? = some y ∨ index = xs.length ∧ x = y := by
  have hlt := (List.getElem?_eq_some_iff.mp h).1
  rw [List.length_append, List.length_singleton] at hlt
  by_cases heq : index = xs.length
  · rw [heq, List.getElem?_concat_length] at h
    exact .inr ⟨heq, Option.some.inj h⟩
  · rw [List.getElem?_append_left (by omega)] at h
    exact .inl h

theorem Holds.pushNull (h : Holds slots machine) :
    Holds (slots ++ [.null]) ⟨machine.pointers ++ [none], machine.memory⟩ := by
  have hold {index : ℕ} {object : α} (hindex : (slots ++ [Slot.null])[index]? = some (.live object)) :
      slots[index]? = some (.live object) := by
    rcases getElem?_concat_cases hindex with hindex | ⟨_, hnull⟩
    · exact hindex
    · cases hnull
  have hpointer {index : ℕ} {object : α} (hindex : slots[index]? = some (.live object)) :
      (machine.pointers ++ [none])[index]? = machine.pointers[index]? := by
    have hlt := (List.getElem?_eq_some_iff.mp hindex).1
    exact List.getElem?_append_left (by rw [h.length]; exact hlt)
  refine ⟨?_, fun index hindex => ?_, fun index object hindex => ?_, ?_, ?_⟩
  · rw [List.length_append, List.length_append, h.length]
    rfl
  · rcases getElem?_concat_cases hindex with hindex | ⟨rfl, _⟩
    · have hlt := (List.getElem?_eq_some_iff.mp hindex).1
      rw [List.getElem?_append_left (by rw [h.length]; exact hlt)]
      exact h.null index hindex
    · rw [← h.length]
      exact List.getElem?_concat_length
  · have hslot := hold hindex
    rw [hpointer hslot]
    exact h.live index object hslot
  · intro i j a b place hi hj hpi hpj
    rw [hpointer (hold hi)] at hpi
    rw [hpointer (hold hj)] at hpj
    exact h.own i j a b place (hold hi) (hold hj) hpi hpj
  · intro place found hfound
    obtain ⟨index, hindex, hplace⟩ := h.owned place found hfound
    refine ⟨index, ?_, (hpointer hindex).trans hplace⟩
    exact List.getElem?_append_left (List.getElem?_eq_some_iff.mp hindex).1 ▸ hindex

theorem Holds.pushLive (h : Holds slots machine) {fresh : Address}
    (hfresh : machine.memory fresh = none) (object : α) :
    Holds (slots ++ [.live object])
      ⟨machine.pointers ++ [some fresh], machine.memory.put fresh (some object)⟩ := by
  have hlast : (machine.pointers ++ [some fresh])[slots.length]? = some (some fresh) := by
    rw [← h.length]
    exact List.getElem?_concat_length
  have hpointer {index : ℕ} {found : Slot α} (hindex : slots[index]? = some found) :
      (machine.pointers ++ [some fresh])[index]? = machine.pointers[index]? := by
    have hlt := (List.getElem?_eq_some_iff.mp hindex).1
    exact List.getElem?_append_left (by rw [h.length]; exact hlt)
  -- A box that is in use is not the new one.
  have hplace {index : ℕ} {found : α} {place : Address}
      (hindex : slots[index]? = some (.live found))
      (hat : machine.pointers[index]? = some (some place)) : place ≠ fresh := by
    rintro rfl
    obtain ⟨other, hother, hmemory⟩ := h.live index found hindex
    rw [hat] at hother
    cases hother
    rw [hfresh] at hmemory
    cases hmemory
  refine ⟨?_, fun index hindex => ?_, fun index found hindex => ?_, ?_, ?_⟩
  · rw [List.length_append, List.length_append, h.length]
    rfl
  · rcases getElem?_concat_cases hindex with hindex | ⟨_, hnull⟩
    · rw [hpointer hindex]
      exact h.null index hindex
    · cases hnull
  · rcases getElem?_concat_cases hindex with hindex | ⟨rfl, hnew⟩
    · obtain ⟨place, hat, hmemory⟩ := h.live index found hindex
      exact ⟨place, (hpointer hindex).trans hat,
        (Memory.put_other _ (hplace hindex hat) _).trans hmemory⟩
    · cases hnew
      exact ⟨fresh, hlast, Memory.put_self _ _ _⟩
  · intro i j a b place hi hj hpi hpj
    rcases getElem?_concat_cases hi with hi | ⟨rfl, _⟩
    · rw [hpointer hi] at hpi
      rcases getElem?_concat_cases hj with hj | ⟨rfl, _⟩
      · rw [hpointer hj] at hpj
        exact h.own i j a b place hi hj hpi hpj
      · rw [hlast] at hpj
        cases hpj
        exact absurd rfl (hplace hi hpi)
    · rw [hlast] at hpi
      cases hpi
      rcases getElem?_concat_cases hj with hj | ⟨rfl, _⟩
      · rw [hpointer hj] at hpj
        exact absurd rfl (hplace hj hpj)
      · rfl
  · intro place found hfound
    change machine.memory.put fresh (some object) place = some found at hfound
    by_cases heq : place = fresh
    · rw [heq, Memory.put_self] at hfound
      cases hfound
      rw [heq]
      exact ⟨slots.length, List.getElem?_concat_length, hlast⟩
    · rw [Memory.put_other _ heq] at hfound
      obtain ⟨index, hindex, hat⟩ := h.owned place found hfound
      refine ⟨index, ?_, (hpointer hindex).trans hat⟩
      exact List.getElem?_append_left (List.getElem?_eq_some_iff.mp hindex).1 ▸ hindex

theorem Holds.allocate (h : Holds slots machine) {fresh : Address}
    (hfresh : machine.memory fresh = none) (created : Option (Option α)) :
    Holds (slots ++ Slot.new created)
      ⟨machine.pointers ++ (allocated fresh created machine.memory).1.toList,
        (allocated fresh created machine.memory).2⟩ := by
  cases created with
  | none =>
    change Holds (slots ++ []) ⟨machine.pointers ++ [], machine.memory⟩
    rw [List.append_nil, List.append_nil]
    exact h
  | some created =>
    cases created with
    | none => exact h.pushNull
    | some object => exact h.pushLive hfresh object

theorem Holds.call (h : Holds slots machine) {fresh : Address}
    (hfresh : machine.memory fresh = none)
    (hperform : perform act request slots = some (reply, after)) :
    ∃ machine', callMethod (performAt act fresh) request machine = some (reply, machine') ∧
      Holds after machine' := by
  obtain ⟨slot, object, answer, hpassed, hgiven, hact, rfl, rfl⟩ := perform_eq_some hperform
  obtain ⟨target, operation⟩ := request
  cases target with
  | none =>
    cases hpassed
    cases hgiven
    refine ⟨_, ?_, h.allocate hfresh answer.created⟩
    exact Option.bind_eq_some_iff.mpr ⟨_, Option.bind_eq_some_iff.mpr ⟨answer, hact, rfl⟩, rfl⟩
  | some index =>
    change slots[index]? = some slot at hpassed
    cases slot with
    | null =>
      cases hgiven
      have hset : assign (some index) (Slot.null.after answer.kept) slots = slots := by
        obtain ⟨hlt, hget⟩ := List.getElem?_eq_some_iff.mp hpassed
        change slots.set index .null = slots
        rw [← hget]
        exact List.set_getElem_self hlt
      rw [hset]
      refine ⟨_, ?_, h.allocate hfresh answer.created⟩
      exact Option.bind_eq_some_iff.mpr ⟨none, h.null index hpassed,
        Option.bind_eq_some_iff.mpr ⟨_, Option.bind_eq_some_iff.mpr ⟨answer, hact, rfl⟩, rfl⟩⟩
    | live object =>
      cases hgiven
      obtain ⟨address, hpointer, hmemory⟩ := h.live index object hpassed
      have hput := h.put hpassed hpointer answer.kept
      have hother : fresh ≠ address := by
        rintro rfl
        rw [hfresh] at hmemory
        cases hmemory
      have hfresh' : machine.memory.put address answer.kept fresh = none :=
        (Memory.put_other _ hother _).trans hfresh
      have hmethod : performAt act fresh operation (some address) machine.memory =
          some (answer.reply, allocated fresh answer.created
            (machine.memory.put address answer.kept)) :=
        Option.bind_eq_some_iff.mpr ⟨object, hmemory,
          Option.bind_eq_some_iff.mpr ⟨answer, hact, rfl⟩⟩
      refine ⟨_, ?_, hput.allocate hfresh' answer.created⟩
      exact Option.bind_eq_some_iff.mpr ⟨some address, hpointer,
        Option.bind_eq_some_iff.mpr ⟨_, hmethod, rfl⟩⟩
    | released => cases hgiven

theorem Holds.exists_free (h : Holds slots machine) : ∃ address, machine.memory address = none := by
  obtain ⟨address, hnew⟩ := Infinite.exists_notMem_finset (machine.pointers.filterMap id).toFinset
  refine ⟨address, ?_⟩
  cases hmemory : machine.memory address with
  | none => rfl
  | some object =>
    obtain ⟨index, _, hpointer⟩ := h.owned address object hmemory
    refine absurd (List.mem_toFinset.mpr ?_) hnew
    exact List.mem_filterMap.mpr ⟨some address, List.mem_of_getElem? hpointer, rfl⟩

/-- The allocator gives no address of a box that is in use, as long as there are others. -/
def Sound (allocator : List ρ → Machine α → Address) : Prop :=
  ∀ replies (machine : Machine α) address, machine.memory address = none →
    machine.memory (allocator replies machine) = none

/-- Whatever addresses the allocator chooses, a caller who keeps to the rules gets the replies
    of the objects, and the boxes at the end are those of the objects that are left. -/
theorem Holds.callAll (h : Holds slots machine) {allocator : List ρ → Machine α → Address}
    (hsound : Sound allocator) (before : List ρ)
    (hperform : performAll act requests slots = some (replies, after)) :
    ∃ machine', callAll (performAt act) allocator requests before machine =
      some (before ++ replies, machine') ∧ Holds after machine' := by
  induction requests generalizing slots machine before replies with
  | nil =>
    cases hperform
    refine ⟨machine, ?_, h⟩
    rw [List.append_nil]
    rfl
  | cons request requests ih =>
    obtain ⟨reply, middle, rest, hfirst, hrest, rfl⟩ := performAll_cons hperform
    obtain ⟨address, hfree⟩ := h.exists_free
    obtain ⟨next, hcall, hnext⟩ := h.call (hsound before machine address hfree) hfirst
    obtain ⟨last, hcalls, hlast⟩ := ih hnext (before ++ [reply]) hrest
    refine ⟨last, ?_, hlast⟩
    refine Option.bind_eq_some_iff.mpr ⟨(reply, next), hcall, ?_⟩
    rw [List.append_assoc] at hcalls
    exact hcalls

theorem callAll_mono {method method' : Address → ι → Method ρ α}
    (h : ∀ fresh operation pointer memory result,
      method fresh operation pointer memory = some result →
        method' fresh operation pointer memory = some result)
    {allocator : List ρ → Machine α → Address} {before : List ρ} {result : List ρ × Machine α}
    (hcalls : OwnedBoxes.callAll method allocator requests before machine = some result) :
    OwnedBoxes.callAll method' allocator requests before machine = some result := by
  induction requests generalizing machine before with
  | nil => exact hcalls
  | cons request requests ih =>
    obtain ⟨⟨reply, next⟩, hcall, hcalls⟩ := Option.bind_eq_some_iff.mp hcalls
    refine Option.bind_eq_some_iff.mpr ⟨(reply, next), ?_, ih hcalls⟩
    obtain ⟨pointer, hpointer, hcall⟩ := Option.bind_eq_some_iff.mp hcall
    obtain ⟨⟨reply', written, memory⟩, hmethod, hcall⟩ := Option.bind_eq_some_iff.mp hcall
    exact Option.bind_eq_some_iff.mpr ⟨pointer, hpointer,
      Option.bind_eq_some_iff.mpr ⟨_, h _ _ _ _ _ hmethod, hcall⟩⟩

theorem Holds.empty : Holds ([] : List (Slot α)) ⟨[], fun _ => none⟩ where
  length := rfl
  null := fun _ h => nomatch h
  live := fun _ _ h => nomatch h
  own := fun _ _ _ _ _ h => nomatch h
  owned := fun _ _ h => nomatch h

theorem Holds.memory_empty (h : Holds slots machine)
    (hreleased : ∀ object, Slot.live object ∉ slots) (address : Address) :
    machine.memory address = none := by
  cases hmemory : machine.memory address with
  | none => rfl
  | some object =>
    obtain ⟨index, hslot, _⟩ := h.owned address object hmemory
    exact absurd (List.mem_of_getElem? hslot) (hreleased object)

end

end Tsvm.OwnedBoxes
