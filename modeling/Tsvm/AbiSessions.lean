import Tsvm.CApi
import Tsvm.OwnedBoxes

set_option autoImplicit false

/-!
# Page sessions behind the C interface

The exported functions on the pointers they are given. A call that is `none` has undefined
behaviour or does not return. Several page sessions and results may be alive at the same
time, their calls in any order, and the allocator may reuse the addresses of released ones.
-/
namespace Tsvm.AbiSessions
open Interop Interpreter Pipeline PreparationCache RuntimeValues ScriptLoader Semantic CApi
  OwnedBoxes

/-- What the library allocates for its caller: a `TsvmPageSession` or a `TsvmResult`. -/
inductive Box (ν : Type) where
  | session (session : PageScriptSession ν)
  | result (json : ByteArray)

inductive Reply where
  | status (status : Status)
  | stats (status : Status) (stats : Option PreparedModuleCacheStats)
  | json (bytes : Option ByteArray)
  | done

/-- The exported functions with their arguments, but for the pointer to a box. Of a pointer
    the caller provides for a result it only matters whether it is null; `source` are the bytes
    that can be read. -/
inductive EntryPoint where
  | executeUtf8 (source : Option ByteArray) (sourceLen : ℕ) (order : IterationOrder) (fuel : ℕ)
      (outResult : Bool)
  | pageSessionCreate (cacheCapacity : ℕ) (outSession : Bool)
  | pageSessionExecuteUtf8 (source : Option ByteArray) (sourceLen : ℕ) (policy : ℤ)
      (order : IterationOrder) (fuel : ℕ) (outResult : Bool)
  | pageSessionCacheStats (outStats : Bool)
  | pageSessionFree
  | resultJson (outLen : Bool)
  | resultFree

/-- The bytes at `source`, of which at least `sourceLen` have to be readable. -/
def sourceFromRaw (source : Option ByteArray) (sourceLen : ℕ) : Option (Except Status ByteArray) :=
  if sourceLen = 0 then some (.ok .empty)
  else match source with
    | none => some (.error .invalidArgument)
    | some bytes => if sourceLen ≤ bytes.size then some (.ok (bytes.extract 0 sourceLen)) else none

def scriptPolicyFromRaw (policy : ℤ) : Except Status ScriptPolicy :=
  if policy = 0 then .ok .default
  else if policy = 1 then .ok ⟨false⟩
  else .error .invalidArgument

/-- A panic is caught; an overflow of the stack ends the process. -/
def catchUnwind (result : Except Stop CApiResult) (message : String) : Option CApiResult :=
  match result with
  | .ok result => some result
  | .error .panic => some (.error .internalError message)
  | .error _ => none

section

variable {ν : Type} [F64 ν] (isFinite : ν → Bool) (debug : ExecuteError → String)
  (utf8Error : ByteArray → String)

abbrev Called (ν : Type) := Reply × Option (Option Address) × Memory (Box ν)

variable (fresh : Address) (memory : Memory (Box ν))

def writeResult (result : CApiResult) : Called ν :=
  (.status result.status, some (some fresh), memory.put fresh (some (.result result.json.toUTF8)))

def tsvmExecuteUtf8 (source : Option ByteArray) (sourceLen : ℕ) (order : IterationOrder)
    (fuel : ℕ) (outResult : Bool) : Option (Called ν) :=
  if outResult = false then some (.status .invalidArgument, none, memory)
  else match sourceFromRaw source sourceLen with
    | none => none
    | some (.error status) => some (.status status, some none, memory)
    | some (.ok source) => do
      let result ← catchUnwind (executeUtf8 isFinite debug utf8Error source order fuel)
        "TSVM C ABI execution panicked"
      pure (writeResult fresh memory result)

def tsvmPageSessionCreate (cacheCapacity : ℕ) (outSession : Bool) : Option (Called ν) :=
  if outSession = false then some (.status .invalidArgument, none, memory)
  else match PageScriptSession.new cacheCapacity with
    | .error _ => some (.status .invalidArgument, some none, memory)
    | .ok session => some (.status .ok, some (some fresh), memory.put fresh (some (.session session)))

def tsvmPageSessionExecuteUtf8 (session : Option Address) (source : Option ByteArray)
    (sourceLen : ℕ) (policy : ℤ) (order : IterationOrder) (fuel : ℕ) (outResult : Bool) :
    Option (Called ν) :=
  match session with
  | none => some (.status .invalidArgument, none, memory)
  | some session =>
    if outResult = false then some (.status .invalidArgument, none, memory)
    else match sourceFromRaw source sourceLen with
      | none => none
      | some (.error status) => some (.status status, some none, memory)
      | some (.ok source) =>
        match scriptPolicyFromRaw policy with
        | .error status => some (.status status, some none, memory)
        | .ok policy =>
          match String.fromUTF8? source with
          | none => some (writeResult fresh memory (.error .invalidUtf8 (utf8Error source)))
          | some source =>
            match memory session with
            | some (.session page) => do
              let (result, page) := executePageSessionUtf8 isFinite ⟨order, source⟩ policy fuel page
              let result ← catchUnwind result "TSVM page-session execution panicked"
              pure (writeResult fresh (memory.put session (some (.session page))) result)
            | _ => none

def tsvmPageSessionCacheStats (session : Option Address) (outStats : Bool) : Option (Called ν) :=
  match session with
  | none => some (.stats .invalidArgument none, none, memory)
  | some session =>
    if outStats = false then some (.stats .invalidArgument none, none, memory)
    else match memory session with
      | some (.session page) => some (.stats .ok (some page.cacheStats), none, memory)
      | _ => none

def tsvmPageSessionFree (session : Option Address) : Option (Called ν) :=
  match session with
  | none => some (.done, none, memory)
  | some session =>
    match memory session with
    | some (.session _) => some (.done, none, memory.put session none)
    | _ => none

def tsvmResultJson (result : Option Address) (outLen : Bool) : Option (Called ν) :=
  match result with
  | none => some (.json none, none, memory)
  | some result =>
    if outLen = false then some (.json none, none, memory)
    else match memory result with
      | some (.result json) => some (.json (some json), none, memory)
      | _ => none

def tsvmResultFree (result : Option Address) : Option (Called ν) :=
  match result with
  | none => some (.done, none, memory)
  | some result =>
    match memory result with
    | some (.result _) => some (.done, none, memory.put result none)
    | _ => none

def invoke (entryPoint : EntryPoint) : Method Reply (Box ν) := fun pointer memory =>
  match entryPoint with
  | .executeUtf8 source sourceLen order fuel outResult =>
    tsvmExecuteUtf8 isFinite debug utf8Error fresh memory source sourceLen order fuel outResult
  | .pageSessionCreate cacheCapacity outSession =>
    tsvmPageSessionCreate fresh memory cacheCapacity outSession
  | .pageSessionExecuteUtf8 source sourceLen policy order fuel outResult =>
    tsvmPageSessionExecuteUtf8 isFinite utf8Error fresh memory pointer source sourceLen policy order
      fuel outResult
  | .pageSessionCacheStats outStats => tsvmPageSessionCacheStats memory pointer outStats
  | .pageSessionFree => tsvmPageSessionFree memory pointer
  | .resultJson outLen => tsvmResultJson memory pointer outLen
  | .resultFree => tsvmResultFree memory pointer

def writes (kept : Option (Box ν)) (result : CApiResult) : Answer (Box ν) Reply :=
  ⟨.status result.status, kept, some (some (.result result.json.toUTF8))⟩

def executeBytes (source : ByteArray) (policy : ScriptPolicy) (order : IterationOrder)
    (fuel : ℕ) (page : PageScriptSession ν) : Option (Answer (Box ν) Reply) :=
  match String.fromUTF8? source with
  | none => some (writes (some (.session page)) (.error .invalidUtf8 (utf8Error source)))
  | some source =>
    let (result, page) := executePageSessionUtf8 isFinite ⟨order, source⟩ policy fuel page
    (catchUnwind result "TSVM page-session execution panicked").map (writes (some (.session page)))

/-- The exported functions, if their caller had the objects and not pointers to them. -/
def behaviour : Behaviour EntryPoint (Box ν) Reply := fun entryPoint object =>
  match entryPoint, object with
  | .executeUtf8 _ _ _ _ false, object => some ⟨.status .invalidArgument, object, none⟩
  | .executeUtf8 source sourceLen order fuel true, object =>
    match sourceFromRaw source sourceLen with
    | none => none
    | some (.error status) => some ⟨.status status, object, some none⟩
    | some (.ok source) =>
      (catchUnwind (executeUtf8 isFinite debug utf8Error source order fuel)
        "TSVM C ABI execution panicked").map (writes object)
  | .pageSessionCreate _ false, object => some ⟨.status .invalidArgument, object, none⟩
  | .pageSessionCreate cacheCapacity true, object =>
    match PageScriptSession.new cacheCapacity with
    | .error _ => some ⟨.status .invalidArgument, object, some none⟩
    | .ok session => some ⟨.status .ok, object, some (some (.session session))⟩
  | .pageSessionExecuteUtf8 _ _ _ _ _ _, none => some ⟨.status .invalidArgument, none, none⟩
  | .pageSessionExecuteUtf8 _ _ _ _ _ false, some (.session page) =>
    some ⟨.status .invalidArgument, some (.session page), none⟩
  | .pageSessionExecuteUtf8 source sourceLen policy order fuel true, some (.session page) =>
    match sourceFromRaw source sourceLen with
    | none => none
    | some (.error status) => some ⟨.status status, some (.session page), some none⟩
    | some (.ok source) =>
      match scriptPolicyFromRaw policy with
      | .error status => some ⟨.status status, some (.session page), some none⟩
      | .ok policy => executeBytes isFinite utf8Error source policy order fuel page
  | .pageSessionCacheStats _, none => some ⟨.stats .invalidArgument none, none, none⟩
  | .pageSessionCacheStats outStats, some (.session page) =>
    some ⟨if outStats then .stats .ok (some page.cacheStats) else .stats .invalidArgument none,
      some (.session page), none⟩
  | .pageSessionFree, none | .pageSessionFree, some (.session _) => some ⟨.done, none, none⟩
  | .resultJson _, none => some ⟨.json none, none, none⟩
  | .resultJson outLen, some (.result json) =>
    some ⟨.json (if outLen then some json else none), some (.result json), none⟩
  | .resultFree, none | .resultFree, some (.result _) => some ⟨.done, none, none⟩
  | _, _ => none

section

variable {isFinite debug utf8Error fresh memory}

omit [F64 ν] in
theorem put_same {address : Address} {box : Option (Box ν)} (h : memory address = box) :
    memory.put address box = memory := by
  rw [← h]
  exact Function.update_eq_self address memory

variable {object : Option (Box ν)} {answer : Answer (Box ν) Reply}

variable (fresh memory) in
theorem tsvmExecuteUtf8_eq {source : Option ByteArray} {sourceLen : ℕ} {order : IterationOrder}
    {fuel : ℕ} {outResult : Bool} (h : behaviour isFinite debug utf8Error
      (.executeUtf8 source sourceLen order fuel outResult) object = some answer) :
    answer.kept = object ∧ tsvmExecuteUtf8 isFinite debug utf8Error fresh memory source sourceLen
      order fuel outResult = some (answer.reply, allocated fresh answer.created memory) := by
  cases outResult with
  | false =>
    cases h
    exact ⟨rfl, rfl⟩
  | true =>
    rw [tsvmExecuteUtf8, if_neg fun hnull => nomatch hnull]
    cases hraw : sourceFromRaw source sourceLen with
    | none => simp only [behaviour, hraw, reduceCtorEq] at h
    | some raw =>
      cases raw with
      | error status =>
        simp only [behaviour, hraw, Option.some.injEq] at h
        rw [← h]
        exact ⟨rfl, rfl⟩
      | ok bytes =>
        simp only [behaviour, hraw] at h
        obtain ⟨result, hresult, rfl⟩ := Option.map_eq_some_iff.mp h
        simp only [hresult]
        exact ⟨rfl, rfl⟩

variable (fresh memory) in
theorem tsvmPageSessionCreate_eq {cacheCapacity : ℕ} {outSession : Bool}
    (h : behaviour isFinite debug utf8Error (.pageSessionCreate cacheCapacity outSession) object =
      some answer) : answer.kept = object ∧ tsvmPageSessionCreate fresh memory cacheCapacity
        outSession = some (answer.reply, allocated fresh answer.created memory) := by
  cases outSession with
  | false =>
    cases h
    exact ⟨rfl, rfl⟩
  | true =>
    rw [tsvmPageSessionCreate, if_neg fun hnull => nomatch hnull]
    cases hnew : (PageScriptSession.new cacheCapacity : Except _ (PageScriptSession ν)) with
    | error error =>
      simp only [behaviour, hnew, Option.some.injEq] at h
      rw [← h]
      exact ⟨rfl, rfl⟩
    | ok session =>
      simp only [behaviour, hnew, Option.some.injEq] at h
      rw [← h]
      exact ⟨rfl, rfl⟩

theorem tsvmPageSessionExecuteUtf8_eq {address : Address} {page : PageScriptSession ν}
    (hmemory : memory address = some (.session page)) {source : Option ByteArray} {sourceLen : ℕ}
    {policy : ℤ} {order : IterationOrder} {fuel : ℕ} {outResult : Bool}
    (h : behaviour isFinite debug utf8Error
      (.pageSessionExecuteUtf8 source sourceLen policy order fuel outResult)
      (some (.session page)) = some answer) :
    tsvmPageSessionExecuteUtf8 isFinite utf8Error fresh memory (some address) source sourceLen policy
        order fuel outResult =
      some (answer.reply, allocated fresh answer.created (memory.put address answer.kept)) := by
  have hsame : memory.put address (some (.session page)) = memory := put_same hmemory
  cases outResult with
  | false =>
    cases h
    rw [hsame]
    rfl
  | true =>
    simp only [tsvmPageSessionExecuteUtf8, if_neg (fun hnull => nomatch hnull : ¬ true = false)]
    cases hraw : sourceFromRaw source sourceLen with
    | none => simp only [behaviour, hraw, reduceCtorEq] at h
    | some raw =>
      cases raw with
      | error status =>
        simp only [behaviour, hraw, Option.some.injEq] at h
        rw [← h, hsame]
        rfl
      | ok bytes =>
        simp only [behaviour, hraw] at h
        cases hpolicy : scriptPolicyFromRaw policy with
        | error status =>
          simp only [hpolicy, Option.some.injEq] at h
          rw [← h, hsame]
          rfl
        | ok policy =>
          simp only [hpolicy, executeBytes] at h
          cases htext : String.fromUTF8? bytes with
          | none =>
            simp only [htext, Option.some.injEq] at h
            simp only [htext]
            rw [← h, writes, hsame]
            rfl
          | some text =>
            simp only [htext] at h
            obtain ⟨result, hresult, rfl⟩ := Option.map_eq_some_iff.mp h
            simp only [htext, hmemory, hresult]
            rfl

theorem invoke_live {entryPoint : EntryPoint} {address : Address} {object : Box ν}
    (hmemory : memory address = some object)
    (h : behaviour isFinite debug utf8Error entryPoint (some object) = some answer) :
    invoke isFinite debug utf8Error fresh entryPoint (some address) memory =
      some (answer.reply, allocated fresh answer.created (memory.put address answer.kept)) := by
  have hsame : memory.put address (some object) = memory := put_same hmemory
  cases entryPoint with
  | executeUtf8 source sourceLen order fuel outResult =>
    obtain ⟨hkept, hrun⟩ := tsvmExecuteUtf8_eq fresh memory h
    rw [hkept, hsame]
    exact hrun
  | pageSessionCreate cacheCapacity outSession =>
    obtain ⟨hkept, hrun⟩ := tsvmPageSessionCreate_eq fresh memory h
    rw [hkept, hsame]
    exact hrun
  | pageSessionExecuteUtf8 source sourceLen policy order fuel outResult =>
    cases object with
    | result json => cases outResult <;> cases h
    | session page => exact tsvmPageSessionExecuteUtf8_eq hmemory h
  | pageSessionCacheStats outStats =>
    cases object with
    | result json => cases h
    | session page =>
      cases h
      rw [hsame]
      change tsvmPageSessionCacheStats memory (some address) outStats = _
      cases outStats with
      | false => rfl
      | true =>
        simp only [tsvmPageSessionCacheStats, hmemory]
        rfl
  | pageSessionFree =>
    cases object with
    | result json => cases h
    | session page =>
      cases h
      change tsvmPageSessionFree memory (some address) = _
      rw [tsvmPageSessionFree, hmemory]
      rfl
  | resultJson outLen =>
    cases object with
    | session page => cases h
    | result json =>
      cases h
      rw [hsame]
      change tsvmResultJson memory (some address) outLen = _
      cases outLen with
      | false => rfl
      | true =>
        simp only [tsvmResultJson, hmemory]
        rfl
  | resultFree =>
    cases object with
    | session page => cases h
    | result json =>
      cases h
      change tsvmResultFree memory (some address) = _
      rw [tsvmResultFree, hmemory]
      rfl

theorem invoke_null {entryPoint : EntryPoint}
    (h : behaviour isFinite debug utf8Error entryPoint none = some answer) :
    invoke isFinite debug utf8Error fresh entryPoint none memory =
      some (answer.reply, allocated fresh answer.created memory) := by
  cases entryPoint with
  | executeUtf8 source sourceLen order fuel outResult => exact (tsvmExecuteUtf8_eq fresh memory h).2
  | pageSessionCreate cacheCapacity outSession => exact (tsvmPageSessionCreate_eq fresh memory h).2
  | pageSessionExecuteUtf8 source sourceLen policy order fuel outResult =>
    cases outResult <;> cases h <;> rfl
  | pageSessionCacheStats | pageSessionFree | resultJson | resultFree =>
    cases h
    rfl

theorem invoke_of_performAt {entryPoint : EntryPoint} {pointer : Option Address}
    {result : Reply × Option (Option Address) × Memory (Box ν)}
    (h : performAt (behaviour isFinite debug utf8Error) fresh entryPoint pointer memory =
      some result) :
    invoke isFinite debug utf8Error fresh entryPoint pointer memory = some result := by
  cases pointer with
  | none =>
    obtain ⟨answer, hact, h⟩ := Option.bind_eq_some_iff.mp h
    rw [invoke_null hact]
    exact h
  | some address =>
    obtain ⟨object, hmemory, h⟩ := Option.bind_eq_some_iff.mp h
    obtain ⟨answer, hact, h⟩ := Option.bind_eq_some_iff.mp h
    rw [invoke_live hmemory hact]
    exact h

end

/-- What a row of calls has returned, object by object: a session has answered the calls on
    it like a session alone, whatever was done with the others in between, and a result has
    always shown the text that was written into it. -/
structure KeepsApart (script : List (Request EntryPoint)) (replies : List Reply) : Prop where
  sessions : ∀ before after capacity earlier slots page,
    script = before ++ ⟨none, .pageSessionCreate capacity true⟩ :: after →
    performAll (behaviour isFinite debug utf8Error) before [] = some (earlier, slots) →
    PageScriptSession.new capacity = .ok page →
    ∃ last, performAlone (behaviour isFinite debug utf8Error) (onSlot slots.length after)
        (.live (.session page)) =
      some (repliesOn slots.length after (replies.drop (before.length + 1)), last)
  results : ∀ before after earlier slots (index : ℕ) json, script = before ++ after →
    performAll (behaviour isFinite debug utf8Error) before [] = some (earlier, slots) →
    slots[index]? = some (.live (.result json)) →
    ∀ reply, (.resultJson true, reply) ∈
        (onSlot index after).zip (repliesOn index after (replies.drop before.length)) →
      reply = .json (some json)

variable {isFinite debug utf8Error}

theorem result_kept {operation : EntryPoint} {json : ByteArray} {answer : Answer (Box ν) Reply}
    (h : behaviour isFinite debug utf8Error operation (some (.result json)) = some answer) :
    (operation = .resultJson true → answer.reply = .json (some json)) ∧
      (answer.kept = some (.result json) ∨ answer.kept = none) := by
  cases operation with
  | executeUtf8 source sourceLen order fuel outResult =>
    have hkept := (tsvmExecuteUtf8_eq 0 (fun _ => none) h).1
    exact ⟨fun heq => (nomatch heq), .inl hkept⟩
  | pageSessionCreate cacheCapacity outSession =>
    have hkept := (tsvmPageSessionCreate_eq 0 (fun _ => none) h).1
    exact ⟨fun heq => (nomatch heq), .inl hkept⟩
  | pageSessionExecuteUtf8 source sourceLen policy order fuel outResult =>
    cases outResult <;> cases h
  | pageSessionCacheStats | pageSessionFree => cases h
  | resultJson outLen =>
    cases h
    refine ⟨fun heq => ?_, .inl rfl⟩
    cases heq
    rfl
  | resultFree =>
    cases h
    exact ⟨fun heq => (nomatch heq), .inr rfl⟩

theorem result_replies {operations : List EntryPoint} {json : ByteArray} {replies : List Reply}
    {last : Slot (Box ν)} (h : performAlone (behaviour isFinite debug utf8Error) operations
      (.live (.result json)) = some (replies, last)) :
    ∀ reply, (.resultJson true, reply) ∈ operations.zip replies → reply = .json (some json) := by
  induction operations generalizing replies with
  | nil =>
    intro reply hmem
    cases hmem
  | cons operation operations ih =>
    obtain ⟨object, answer, rest, hgiven, hact, hrest, rfl⟩ := performAlone_cons h
    cases hgiven
    obtain ⟨hreply, hkept⟩ := result_kept hact
    intro reply hmem
    rcases List.mem_cons.mp hmem with heq | hmem
    · obtain ⟨hoperation, hsame⟩ := Prod.mk.inj heq
      rw [hsame]
      exact hreply hoperation.symm
    · rcases hkept with hkept | hkept
      · rw [hkept] at hrest
        exact ih hrest reply hmem
      · -- No operation follows the one that releases it.
        rw [hkept] at hrest
        cases operations with
        | nil => cases hmem
        | cons next others => cases hrest

theorem drop_append_cons {β : Type} (first : List β) (x : β) (rest : List β) :
    (first ++ x :: rest).drop (first.length + 1) = rest := by
  rw [List.append_cons, List.drop_left' (by rw [List.length_append, List.length_singleton])]

theorem performAll_keepsApart {script : List (Request EntryPoint)} {replies : List Reply}
    {after : List (Slot (Box ν))}
    (h : performAll (behaviour isFinite debug utf8Error) script [] = some (replies, after)) :
    KeepsApart isFinite debug utf8Error script replies := by
  refine ⟨fun before later capacity earlier slots page hsplit hbefore hnew => ?_,
    fun before later earlier slots index json hsplit hbefore hslot reply hreply => ?_⟩
  · rw [hsplit] at h
    obtain ⟨first, middle, rest, hfirst, hrest, hlength, rfl⟩ := performAll_append h
    rw [hbefore] at hfirst
    cases hfirst
    obtain ⟨reply, next, others, hcreate, hothers, rfl⟩ := performAll_cons hrest
    have hnext : next = slots ++ [.live (.session page)] := by
      obtain ⟨slot, object, answer, hpassed, hgiven, hact, _, hafter⟩ := perform_eq_some hcreate
      cases hpassed
      cases hgiven
      simp only [behaviour, hnew, Option.some.injEq] at hact
      rw [hafter, ← hact]
      rfl
    have hpage : next[slots.length]? = some (.live (.session page)) := by
      rw [hnext, List.getElem?_concat_length]
    obtain ⟨last, halone, _⟩ := performAll_alone hothers hpage
    refine ⟨last, ?_⟩
    rw [← hlength, drop_append_cons]
    exact halone
  · rw [hsplit] at h
    obtain ⟨first, middle, rest, hfirst, hrest, hlength, rfl⟩ := performAll_append h
    rw [hbefore] at hfirst
    cases hfirst
    obtain ⟨last, halone, _⟩ := performAll_alone hrest hslot
    rw [← hlength, List.drop_left] at hreply
    exact result_replies halone reply hreply

/-- A caller who passes no released pointer gets from the exported functions what the objects
    answer, wherever the allocator puts them: no call is undefined, each object only sees the
    calls on it, and what is not released at the end is what the caller still has. -/
theorem calls_keepApart {allocator : List Reply → OwnedBoxes.Machine (Box ν) → Address}
    (hsound : Sound allocator) {script : List (Request EntryPoint)} {replies : List Reply}
    {slots : List (Slot (Box ν))}
    (h : performAll (behaviour isFinite debug utf8Error) script [] = some (replies, slots)) :
    KeepsApart isFinite debug utf8Error script replies ∧
      ∃ machine, callAll (invoke isFinite debug utf8Error) allocator script [] ⟨[], fun _ => none⟩ =
          some (replies, machine) ∧
        Holds slots machine ∧
        ((∀ object, Slot.live object ∉ slots) → ∀ address, machine.memory address = none) := by
  obtain ⟨machine, hcalls, hholds⟩ := Holds.empty.callAll hsound [] h
  refine ⟨performAll_keepsApart h, machine, ?_, hholds, hholds.memory_empty⟩
  exact callAll_mono (fun _ _ _ _ _ => invoke_of_performAt) hcalls

end

open Classical in
noncomputable def lowestFree {α ρ : Type} : List ρ → OwnedBoxes.Machine α → Address :=
  fun _ machine => if h : ∃ address, machine.memory address = none then Nat.find h else 0

theorem lowestFree_sound {α ρ : Type} : Sound (lowestFree (α := α) (ρ := ρ)) := by
  intro replies machine address hfree
  have hexists : ∃ address, machine.memory address = none := ⟨address, hfree⟩
  rw [lowestFree, dif_pos hexists]
  exact Nat.find_spec hexists

def twoSessions : List (Request EntryPoint) :=
  let source := "console.log(1);".toUTF8
  [⟨none, .pageSessionCreate 1 true⟩, ⟨none, .pageSessionCreate 2 true⟩,
    ⟨some 0, .pageSessionExecuteUtf8 source 15 0 .listed 5 true⟩,
    ⟨some 1, .pageSessionExecuteUtf8 source 15 1 .listed 5 true⟩,
    ⟨some 2, .resultJson true⟩, ⟨some 2, .resultFree⟩,
    ⟨some 0, .pageSessionExecuteUtf8 none 3 0 .listed 5 true⟩, ⟨some 0, .pageSessionFree⟩,
    ⟨some 1, .pageSessionExecuteUtf8 source 15 0 .listed 5 true⟩,
    ⟨none, .executeUtf8 source 15 .listed 5 true⟩, ⟨some 1, .pageSessionCacheStats true⟩,
    ⟨some 3, .resultJson true⟩, ⟨some 3, .resultFree⟩, ⟨some 4, .resultFree⟩]

theorem twoSessions_keepApart : ∃ replies slots machine,
    KeepsApart (fun _ : Int => true) (fun _ => "") (fun _ => "") twoSessions replies ∧
      callAll (invoke (fun _ : Int => true) (fun _ => "") (fun _ => "")) lowestFree twoSessions []
        ⟨[], fun _ => none⟩ = some (replies, machine) ∧ Holds slots machine := by
  have hallowed : (performAll (behaviour (fun _ : Int => true) (fun _ => "") (fun _ => ""))
      twoSessions []).isSome = true := by decide +kernel
  obtain ⟨⟨replies, slots⟩, hrun⟩ := Option.isSome_iff_exists.mp hallowed
  obtain ⟨hapart, machine, hcalls, hholds, _⟩ := calls_keepApart lowestFree_sound hrun
  exact ⟨replies, slots, machine, hapart, hcalls, hholds⟩

end Tsvm.AbiSessions
