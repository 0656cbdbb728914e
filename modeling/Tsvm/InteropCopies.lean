import Tsvm.ExactCollection
import Tsvm.Materialization

set_option autoImplicit false

/-!
# Copies of interop values

`runtime_from_interop` allocates children before their parents. What is allocated
later takes no slot away from what there is, so that the graph behind the new value
reads back as the interop value, as long as the indices of its slots fit into a `u32`.
-/
namespace Tsvm.InteropCopies
open Heap Interop RuntimeValues HandleIntegrity Materialization StaleHandles

section Allocations

variable {τ : Type} {heap : GcHeap τ}

def Extends (old new : GcHeap τ) : Prop :=
  ∀ handle found, old.get handle = some found → new.get handle = some found

theorem Extends.refl (heap : GcHeap τ) : Extends heap heap := fun _ _ hget => hget

theorem Extends.trans {first middle last : GcHeap τ} (left : Extends first middle)
    (right : Extends middle last) : Extends first last :=
  fun handle found hget => right handle found (left handle found hget)

def nextSlots (heap : GcHeap τ) (n : ℕ) : List ℕ :=
  heap.freeList.take n ++ List.range' heap.capacity (n - heap.freeList.length)

theorem nextSlots_succ (h : heap.Counted) (value : τ) (n : ℕ) :
    nextSlots heap (n + 1) = heap.nextIndex :: nextSlots (heap.allocate value).2 n := by
  unfold nextSlots GcHeap.nextIndex GcHeap.capacity GcHeap.allocate
  cases hfree : heap.freeList with
  | nil => simp [List.range'_succ]
  | cons index rest =>
    obtain ⟨hlt, _⟩ := h.free index (by rw [hfree]; exact List.mem_cons_self)
    have hold : index ≠ heap.slots.length := Nat.ne_of_lt hlt
    simp [hold]

theorem Counted.nextIndex_valueAt (h : heap.Counted) :
    heap.nextIndex ≤ heap.slots.length ∧ heap.valueAt heap.nextIndex = none := by
  rw [GcHeap.nextIndex]
  cases hfree : heap.freeList with
  | nil =>
    refine ⟨Nat.le_refl _, ?_⟩
    rw [List.headD_nil, GcHeap.valueAt, List.getElem?_eq_none (Nat.le_refl _)]
    rfl
  | cons index rest =>
    obtain ⟨hlt, hnone⟩ := h.free index (by rw [hfree]; exact List.mem_cons_self)
    exact ⟨Nat.le_of_lt hlt, hnone⟩

theorem extends_allocate (h : heap.Counted) (value : τ) : Extends heap (heap.allocate value).2 := by
  intro handle found hget
  obtain ⟨hle, hnone⟩ := Counted.nextIndex_valueAt h
  have hother : heap.nextIndex ≠ handle.index.toNat := by
    intro heq
    rw [heq, GcHeap.get_valueAt hget] at hnone
    cases hnone
  rw [GcHeap.get_eq, GcHeap.allocate_generationAt, GcHeap.allocate_valueAt _ _ _ hle,
    if_neg hother, ← GcHeap.get_eq]
  exact hget

theorem allocate_get_handle (h : heap.Counted) (value : τ) (hindex : heap.nextIndex < 2 ^ 32) :
    (heap.allocate value).2.get (heap.allocate value).1 = some value := by
  have hhandle : (heap.allocate value).1.index.toNat = heap.nextIndex :=
    UInt32.toNat_ofNat_of_lt' hindex
  have hgeneration : (heap.allocate value).2.generationAt heap.nextIndex =
      (heap.allocate value).1.generation := rfl
  rw [GcHeap.get_eq, hhandle, if_pos hgeneration,
    GcHeap.allocate_valueAt _ _ _ (Counted.nextIndex_valueAt h).1, if_pos rfl]

/-- `n` allocations, and what else `old` holds is kept. -/
structure Grows (old : GcHeap τ) (n : ℕ) (new : GcHeap τ) : Prop where
  counted : new.Counted
  kept : Extends old new
  slots : ∀ more, nextSlots old (n + more) = nextSlots old n ++ nextSlots new more

theorem Grows.refl (h : heap.Counted) : Grows heap 0 heap := by
  refine ⟨h, .refl heap, fun more => ?_⟩
  rw [Nat.zero_add, nextSlots, nextSlots, List.take_zero, Nat.zero_sub]
  rfl

theorem Grows.trans {first middle last : GcHeap τ} {m n : ℕ} (left : Grows first m middle)
    (right : Grows middle n last) : Grows first (m + n) last := by
  refine ⟨right.counted, left.kept.trans right.kept, fun more => ?_⟩
  rw [Nat.add_assoc, left.slots, left.slots, right.slots, List.append_assoc]

theorem Grows.allocate (h : heap.Counted) (value : τ) : Grows heap 1 (heap.allocate value).2 := by
  refine ⟨h.allocate value, extends_allocate h value, fun more => ?_⟩
  have hone : nextSlots heap 1 = [heap.nextIndex] := by
    rw [show nextSlots heap 1 = _ from nextSlots_succ h value 0, nextSlots, List.take_zero, Nat.zero_sub]
    rfl
  rw [Nat.add_comm, nextSlots_succ h value, hone]
  rfl

/-- The indices of the next `n` slots fit into a `u32`. -/
def Room (heap : GcHeap τ) (n : ℕ) : Prop := ∀ index ∈ nextSlots heap n, index < 2 ^ 32

theorem Room.split {old new : GcHeap τ} {m n : ℕ} (hgrows : Grows old m new) (h : Room old (m + n)) :
    Room old m ∧ Room new n := by
  rw [Room, hgrows.slots] at h
  exact ⟨fun index hmem => h index (List.mem_append_left _ hmem),
    fun index hmem => h index (List.mem_append_right _ hmem)⟩

end Allocations

variable {ν : Type} {heap : Store ν}

/-- `materialize` on some depth gives the interop value. -/
def Reads (heap : Store ν) (found : RuntimeValue ν) (value : InteropValue ν) : Prop :=
  ∃ depth read, materializeWithin heap depth found = .ok read ∧ interopFromValue read = value

theorem mapM_ok_iff {α β : Type} {f : α → Except Stop β} {xs : List α} {ys : List β} :
    xs.mapM f = .ok ys ↔ List.Forall₂ (fun x y => f x = .ok y) xs ys := by
  induction xs generalizing ys with
  | nil =>
    rw [List.mapM_nil, List.forall₂_nil_left_iff]
    exact ⟨fun h => (Except.ok.inj h).symm, fun h => by rw [h]; rfl⟩
  | cons x xs ih =>
    rw [List.mapM_cons, List.forall₂_cons_left_iff]
    cases hx : f x with
    | error e =>
      constructor
      · intro h
        cases h
      · rintro ⟨_, _, h, _⟩
        cases h
    | ok y =>
      constructor
      · intro h
        cases hrest : xs.mapM f with
        | error e =>
          rw [hrest] at h
          cases h
        | ok rest =>
          rw [hrest] at h
          exact ⟨y, rest, rfl, ih.mp hrest, (Except.ok.inj h).symm⟩
      · rintro ⟨_, rest, hy, hrest, rfl⟩
        cases hy
        rw [ih.mpr hrest]
        rfl

section Depth

variable {depth : ℕ} {handle : HeapHandle} {read : Value ν}

theorem materializeField_ok_iff {field : String × RuntimeValue ν} {entry : String × Value ν} :
    materializeField heap depth field = .ok entry ↔
      field.1 = entry.1 ∧ materializeWithin heap depth field.2 = .ok entry.2 := by
  rw [materializeField]
  cases materializeWithin heap depth field.2 with
  | error e => exact ⟨fun h => (by cases h), fun h => (by cases h.2)⟩
  | ok value =>
    refine ⟨fun h => ?_, fun h => ?_⟩
    · cases h
      exact ⟨rfl, rfl⟩
    · obtain ⟨name, entry⟩ := entry
      cases h.1
      cases h.2
      rfl

theorem materializeWithin_object_ok :
    materializeWithin heap (depth + 1) (.object handle) = .ok read ↔
      ∃ fields entries, heap.get handle = some (.object fields) ∧ read = .object entries ∧
        List.Forall₂ (fun field entry =>
          field.1 = entry.1 ∧ materializeWithin heap depth field.2 = .ok entry.2)
          fields.toList entries := by
  constructor
  · intro h
    by_cases hget : ∃ fields, heap.get handle = some (.object fields)
    · obtain ⟨fields, hget⟩ := hget
      rw [materializeWithin_object hget] at h
      cases hfields : fields.toList.mapM (materializeField heap depth) with
      | error e =>
        rw [hfields] at h
        cases h
      | ok entries =>
        rw [hfields] at h
        refine ⟨fields, entries, hget, (Except.ok.inj h).symm, ?_⟩
        exact (mapM_ok_iff.mp hfields).imp fun _ _ => materializeField_ok_iff.mp
    · rw [materializeWithin] at h
      split at h
      · exact absurd ⟨_, ‹_›⟩ hget
      · cases h
  · rintro ⟨fields, entries, hget, rfl, hfields⟩
    have hall := mapM_ok_iff.mpr (hfields.imp fun _ _ => materializeField_ok_iff.mpr)
    rw [materializeWithin_object hget, hall]
    rfl

theorem materializeWithin_array_ok :
    materializeWithin heap (depth + 1) (.array handle) = .ok read ↔
      ∃ values items, heap.get handle = some (.array values) ∧ read = .array items ∧
        List.Forall₂ (fun value item => materializeWithin heap depth value = .ok item)
          values items := by
  constructor
  · intro h
    by_cases hget : ∃ values, heap.get handle = some (.array values)
    · obtain ⟨values, hget⟩ := hget
      rw [materializeWithin_array hget] at h
      cases hvalues : values.mapM (materializeWithin heap depth) with
      | error e =>
        rw [hvalues] at h
        cases h
      | ok items =>
        rw [hvalues] at h
        exact ⟨values, items, hget, (Except.ok.inj h).symm, mapM_ok_iff.mp hvalues⟩
    · rw [materializeWithin] at h
      split at h
      · exact absurd ⟨_, ‹_›⟩ hget
      · cases h
  · rintro ⟨values, items, hget, rfl, hvalues⟩
    rw [materializeWithin_array hget, mapM_ok_iff.mpr hvalues]
    rfl

end Depth

theorem materializeWithin_extends {old new : Store ν} (hextends : Extends old new) {depth more : ℕ}
    (hle : depth ≤ more) {found : RuntimeValue ν} {read : Value ν}
    (h : materializeWithin old depth found = .ok read) :
    materializeWithin new more found = .ok read := by
  induction depth generalizing more found read with
  | zero =>
    cases found with
    | object _ => cases h
    | array _ => cases h
    | _ => cases h; cases more <;> rfl
  | succ depth ih =>
    obtain ⟨more, rfl⟩ : ∃ rest, more = rest + 1 := ⟨more - 1, by omega⟩
    have hrest : depth ≤ more := by omega
    cases found with
    | object handle =>
      obtain ⟨fields, entries, hget, hread, hfields⟩ := materializeWithin_object_ok.mp h
      refine materializeWithin_object_ok.mpr ⟨fields, entries, hextends _ _ hget, hread, ?_⟩
      exact hfields.imp fun _ _ hfield => ⟨hfield.1, ih hrest hfield.2⟩
    | array handle =>
      obtain ⟨values, items, hget, hread, hvalues⟩ := materializeWithin_array_ok.mp h
      refine materializeWithin_array_ok.mpr ⟨values, items, hextends _ _ hget, hread, ?_⟩
      exact hvalues.imp fun _ _ hvalue => ih hrest hvalue
    | _ => exact h

theorem Reads.extend {old new : Store ν} (hextends : Extends old new) {found : RuntimeValue ν}
    {value : InteropValue ν} (h : Reads old found value) : Reads new found value := by
  obtain ⟨depth, read, hread, hvalue⟩ := h
  exact ⟨depth, read, materializeWithin_extends hextends (Nat.le_refl _) hread, hvalue⟩

theorem Reads.materialize {found : RuntimeValue ν} {value : InteropValue ν}
    (h : Reads heap found value) :
    ∃ read, materialize heap found = .ok read ∧ interopFromValue read = value := by
  obtain ⟨depth, read, hread, hvalue⟩ := h
  have hends : materializeWithin heap depth found ≠ .error .stackOverflow := by
    rw [hread]
    exact fun heq => by cases heq
  have hall : RuntimeValues.materialize heap found ≠ .error .stackOverflow := fun hoverflow =>
    (materialize_overflow_iff heap found).mp hoverflow ⟨depth, hends⟩
  refine ⟨read, ?_, hvalue⟩
  rw [← hread]
  exact materializeWithin_agree hall hends

def ReadsFields (heap : Store ν) (fields : List (String × RuntimeValue ν))
    (entries : List (String × InteropValue ν)) : Prop :=
  List.Forall₂ (fun field entry => field.1 = entry.1 ∧ Reads heap field.2 entry.2) fields entries

def ReadsValues (heap : Store ν) (values : List (RuntimeValue ν))
    (items : List (InteropValue ν)) : Prop :=
  List.Forall₂ (Reads heap) values items

theorem ReadsFields.depth {fields : List (String × RuntimeValue ν)}
    {entries : List (String × InteropValue ν)} (h : ReadsFields heap fields entries) :
    ∃ depth read, interopFromFields read = entries ∧
      List.Forall₂ (fun field entry =>
        field.1 = entry.1 ∧ materializeWithin heap depth field.2 = .ok entry.2) fields read := by
  induction h with
  | nil => exact ⟨0, [], rfl, .nil⟩
  | @cons field entry fields entries hfirst _ ih =>
    obtain ⟨hname, depth, read, hread, hvalue⟩ := hfirst
    obtain ⟨depths, reads, hreads, hrest⟩ := ih
    refine ⟨max depth depths, (field.1, read) :: reads, ?_, .cons ⟨rfl, ?_⟩ (hrest.imp ?_)⟩
    · rw [interopFromFields, hvalue, hreads, hname]
    · exact materializeWithin_extends (.refl heap) (Nat.le_max_left _ _) hread
    · exact fun _ _ hfield =>
        ⟨hfield.1, materializeWithin_extends (.refl heap) (Nat.le_max_right _ _) hfield.2⟩

theorem ReadsValues.depth {values : List (RuntimeValue ν)} {items : List (InteropValue ν)}
    (h : ReadsValues heap values items) :
    ∃ depth read, interopFromValues read = items ∧
      List.Forall₂ (fun value item => materializeWithin heap depth value = .ok item)
        values read := by
  induction h with
  | nil => exact ⟨0, [], rfl, .nil⟩
  | cons hfirst _ ih =>
    obtain ⟨depth, read, hread, hvalue⟩ := hfirst
    obtain ⟨depths, reads, hreads, hrest⟩ := ih
    refine ⟨max depth depths, read :: reads, ?_, .cons ?_ (hrest.imp ?_)⟩
    · rw [interopFromValues, hvalue, hreads]
    · exact materializeWithin_extends (.refl heap) (Nat.le_max_left _ _) hread
    · exact fun _ _ hitem => materializeWithin_extends (.refl heap) (Nat.le_max_right _ _) hitem

theorem Reads.object {handle : HeapHandle} {fields : Std.TreeMap String (RuntimeValue ν)}
    {entries : List (String × InteropValue ν)} (hget : heap.get handle = some (.object fields))
    (h : ReadsFields heap fields.toList entries) : Reads heap (.object handle) (.object entries) := by
  obtain ⟨depth, read, hread, hfields⟩ := h.depth
  refine ⟨depth + 1, .object read, materializeWithin_object_ok.mpr ⟨fields, read, hget, rfl, hfields⟩, ?_⟩
  rw [interopFromValue, hread]

theorem Reads.array {handle : HeapHandle} {values : List (RuntimeValue ν)}
    {items : List (InteropValue ν)} (hget : heap.get handle = some (.array values))
    (h : ReadsValues heap values items) : Reads heap (.array handle) (.array items) := by
  obtain ⟨depth, read, hread, hvalues⟩ := h.depth
  refine ⟨depth + 1, .array read, materializeWithin_array_ok.mpr ⟨values, read, hget, rfl, hvalues⟩, ?_⟩
  rw [interopFromValue, hread]

section Fields

variable {α : Type}

/-- Names in the order of the keys of a `BTreeMap`, each once. -/
def Ascending (fields : List (String × α)) : Prop :=
  fields.Pairwise fun first second => compare first.1 second.1 = .lt

theorem toList_insert_last {object : Std.TreeMap String α} {name : String} (value : α)
    (h : ∀ field ∈ object.toList, compare field.1 name = .lt) :
    (object.insert name value).toList = object.toList ++ [(name, value)] := by
  have hkept : object.toList.filter (fun field => ¬ name == field.1) = object.toList := by
    refine List.filter_eq_self.mpr fun field hfield => ?_
    have hlt := h field hfield
    have hne : name ≠ field.1 := by
      intro heq
      have hself : compare field.1 field.1 = .eq := Std.ReflCmp.compare_self
      rw [heq, hself] at hlt
      cases hlt
    simpa using hne
  have hperm := Std.TreeMap.toList_insert_perm (t := object) (k := name) (v := value)
  rw [hkept] at hperm
  have hordered : Ascending (object.toList ++ [(name, value)]) := by
    refine List.pairwise_append.mpr ⟨Std.TreeMap.ordered_keys_toList, List.pairwise_singleton _ _, ?_⟩
    intro first hfirst second hsecond
    rw [List.mem_singleton.mp hsecond]
    exact h first hfirst
  refine List.Perm.eq_of_pairwise ?_ Std.TreeMap.ordered_keys_toList hordered
    (hperm.trans (List.perm_append_singleton _ _).symm)
  intro first second _ _ hlt hgt
  have hswap : compare first.1 second.1 = (compare second.1 first.1).swap :=
    Std.OrientedCmp.eq_swap
  rw [hswap, hgt] at hlt
  cases hlt

end Fields

mutual

/-- The lists of fields at every depth are those of `BTreeMap`s. -/
def Ordered : InteropValue ν → Prop
  | .object fields => Ascending fields ∧ OrderedFields fields
  | .array values => OrderedValues values
  | .number _ | .string _ | .boolean _ | .null | .undefined => True

def OrderedFields : List (String × InteropValue ν) → Prop
  | [] => True
  | (_, value) :: fields => Ordered value ∧ OrderedFields fields

def OrderedValues : List (InteropValue ν) → Prop
  | [] => True
  | value :: values => Ordered value ∧ OrderedValues values

end

mutual

/-- How many objects and arrays a value has. -/
def containers : InteropValue ν → ℕ
  | .object fields => containersOfFields fields + 1
  | .array values => containersOfValues values + 1
  | .number _ | .string _ | .boolean _ | .null | .undefined => 0

def containersOfFields : List (String × InteropValue ν) → ℕ
  | [] => 0
  | (_, value) :: fields => containers value + containersOfFields fields

def containersOfValues : List (InteropValue ν) → ℕ
  | [] => 0
  | value :: values => containers value + containersOfValues values

end

mutual

theorem runtimeFromInterop_grows (value : InteropValue ν) {heap : Store ν} (h : heap.Counted) :
    Grows heap (containers value) (runtimeFromInterop value heap).2 := by
  cases value with
  | object fields =>
    have hfields := runtimeFromFields_grows fields h ∅
    exact hfields.trans (.allocate hfields.counted _)
  | array values =>
    have hvalues := runtimeFromValues_grows values h
    exact hvalues.trans (.allocate hvalues.counted _)
  | _ => exact .refl h

theorem runtimeFromFields_grows (fields : List (String × InteropValue ν)) {heap : Store ν}
    (h : heap.Counted) (runtimeFields : Std.TreeMap String (RuntimeValue ν)) :
    Grows heap (containersOfFields fields) (runtimeFromFields fields heap runtimeFields).2 := by
  cases fields with
  | nil => exact .refl h
  | cons field fields =>
    have hvalue := runtimeFromInterop_grows field.2 h
    exact hvalue.trans (runtimeFromFields_grows fields hvalue.counted _)

theorem runtimeFromValues_grows (values : List (InteropValue ν)) {heap : Store ν}
    (h : heap.Counted) :
    Grows heap (containersOfValues values) (runtimeFromValues values heap).2 := by
  cases values with
  | nil => exact .refl h
  | cons value values =>
    have hvalue := runtimeFromInterop_grows value h
    exact hvalue.trans (runtimeFromValues_grows values hvalue.counted)

end

mutual

theorem runtimeFromInterop_reads (value : InteropValue ν) {heap : Store ν} (h : heap.Counted)
    (hordered : Ordered value) (hroom : Room heap (containers value)) :
    Reads (runtimeFromInterop value heap).2 (runtimeFromInterop value heap).1 value := by
  cases value with
  | object fields =>
    obtain ⟨hascending, hinner⟩ := hordered
    have hgrows := runtimeFromFields_grows fields h ∅
    obtain ⟨hbefore, hlast⟩ := hroom.split hgrows
    have hless : ∀ field ∈ (∅ : Std.TreeMap String (RuntimeValue ν)).toList, ∀ entry ∈ fields,
        compare field.1 entry.1 = .lt := fun field hfield => absurd hfield List.not_mem_nil
    have hnone : ReadsFields heap (∅ : Std.TreeMap String (RuntimeValue ν)).toList [] := .nil
    have hfields := runtimeFromFields_reads fields h hinner hbefore hascending hless hnone
    have hnext : (runtimeFromFields fields heap ∅).2.nextIndex < 2 ^ 32 := by
      refine hlast _ ?_
      rw [nextSlots_succ hgrows.counted (.object ∅) 0]
      exact List.mem_cons_self
    have hget := allocate_get_handle hgrows.counted
      (.object (runtimeFromFields fields heap ∅).1) hnext
    have hkept := extends_allocate hgrows.counted (.object (runtimeFromFields fields heap ∅).1)
    exact Reads.object hget (hfields.imp fun _ _ hfield => ⟨hfield.1, hfield.2.extend hkept⟩)
  | array values =>
    have hgrows := runtimeFromValues_grows values h
    obtain ⟨hbefore, hlast⟩ := hroom.split hgrows
    have hvalues := runtimeFromValues_reads values h hordered hbefore
    have hnext : (runtimeFromValues values heap).2.nextIndex < 2 ^ 32 := by
      refine hlast _ ?_
      rw [nextSlots_succ hgrows.counted (.object ∅) 0]
      exact List.mem_cons_self
    have hget := allocate_get_handle hgrows.counted
      (.array (runtimeFromValues values heap).1) hnext
    have hkept := extends_allocate hgrows.counted (.array (runtimeFromValues values heap).1)
    exact Reads.array hget (hvalues.imp fun _ _ hvalue => hvalue.extend hkept)
  | _ => exact ⟨0, _, rfl, rfl⟩

theorem runtimeFromFields_reads (fields : List (String × InteropValue ν)) {heap : Store ν}
    (h : heap.Counted) (hordered : OrderedFields fields)
    (hroom : Room heap (containersOfFields fields)) (hascending : Ascending fields)
    {runtimeFields : Std.TreeMap String (RuntimeValue ν)} {before : List (String × InteropValue ν)}
    (hless : ∀ field ∈ runtimeFields.toList, ∀ entry ∈ fields, compare field.1 entry.1 = .lt)
    (hbefore : ReadsFields heap runtimeFields.toList before) :
    ReadsFields (runtimeFromFields fields heap runtimeFields).2
      (runtimeFromFields fields heap runtimeFields).1.toList (before ++ fields) := by
  cases fields with
  | nil =>
    rw [List.append_nil]
    exact hbefore
  | cons field fields =>
    obtain ⟨name, value⟩ := field
    have hgrows := runtimeFromInterop_grows value h
    obtain ⟨hfirst, hrest⟩ := hroom.split hgrows
    have hvalue := runtimeFromInterop_reads value h hordered.1 hfirst
    obtain ⟨hname, hsorted⟩ := List.pairwise_cons.mp hascending
    have hlast := toList_insert_last (runtimeFromInterop value heap).1
      fun field hfield => hless field hfield (name, value) List.mem_cons_self
    have hkept : ReadsFields (runtimeFromInterop value heap).2 runtimeFields.toList before :=
      hbefore.imp fun _ _ hfield => ⟨hfield.1, hfield.2.extend hgrows.kept⟩
    have hnext : ReadsFields (runtimeFromInterop value heap).2
        (runtimeFields.insert name (runtimeFromInterop value heap).1).toList
        (before ++ [(name, value)]) := by
      rw [hlast]
      exact List.rel_append hkept (.cons ⟨rfl, hvalue⟩ .nil)
    have hstep := runtimeFromFields_reads fields hgrows.counted hordered.2 hrest hsorted
      (by
        rw [hlast]
        intro field hfield entry hentry
        rcases List.mem_append.mp hfield with hold | hnew
        · exact hless field hold entry (List.mem_cons_of_mem _ hentry)
        · rw [List.mem_singleton.mp hnew]
          exact hname entry hentry) hnext
    rw [List.append_assoc] at hstep
    exact hstep

theorem runtimeFromValues_reads (values : List (InteropValue ν)) {heap : Store ν}
    (h : heap.Counted) (hordered : OrderedValues values)
    (hroom : Room heap (containersOfValues values)) :
    ReadsValues (runtimeFromValues values heap).2 (runtimeFromValues values heap).1 values := by
  cases values with
  | nil => exact .nil
  | cons value values =>
    have hgrows := runtimeFromInterop_grows value h
    obtain ⟨hfirst, hrest⟩ := hroom.split hgrows
    have hvalue := runtimeFromInterop_reads value h hordered.1 hfirst
    have hkept := (runtimeFromValues_grows values hgrows.counted).kept
    exact .cons (hvalue.extend hkept)
      (runtimeFromValues_reads values hgrows.counted hordered.2 hrest)

end

/-- The conversion into the heap, then back out of the new heap. -/
structure LosslessCopy (value : InteropValue ν) (heap : Store ν) : Prop where
  reads : ∃ read, materialize (runtimeFromInterop value heap).2 (runtimeFromInterop value heap).1 =
    .ok read ∧ interopFromValue read = value
  kept : Extends heap (runtimeFromInterop value heap).2

/-- The copy is lossless while the indices of the slots it takes fit into a `u32`. -/
theorem runtimeFromInterop_lossless (ops : List (Operation (HeapValue ν))) {value : InteropValue ν}
    (hordered : Ordered value) (hroom : Room (run ops .new) (containers value)) :
    LosslessCopy value (run ops .new) := by
  have hcounted : (run ops .new : Store ν).Counted := ExactCollection.run_counted ops .new
  exact ⟨(runtimeFromInterop_reads value hcounted hordered hroom).materialize,
    (runtimeFromInterop_grows value hcounted).kept⟩

/-- A field in the third slot, after the first has been reclaimed and taken again. -/
theorem runtimeFromInterop_reused :
    LosslessCopy (.object [("a", .array [.number 1, .object []]), ("b", .string "x")])
      (run [.allocate (.array []), .allocate (.object ∅), .collect [⟨1, 0⟩]] .new : Store Int) :=
  runtimeFromInterop_lossless _
    ⟨List.pairwise_cons.mpr ⟨fun entry hentry => by
        rw [List.mem_singleton.mp hentry]
        decide, List.pairwise_singleton _ _⟩,
      ⟨trivial, ⟨List.Pairwise.nil, trivial⟩, trivial⟩, trivial, trivial⟩
    (by unfold Room; decide)

theorem crowd_ordered (n : ℕ) : Ordered (crowd n) := by
  have hall : OrderedValues (List.replicate n (.object [] : InteropValue Int)) := by
    induction n with
    | zero => trivial
    | succ n ih => exact ⟨⟨List.Pairwise.nil, trivial⟩, ih⟩
  exact hall

theorem crowd_loss {n : ℕ} (hn : 0 < n) (hwraps : UInt32.ofNat n = 0) :
    ¬ LosslessCopy (crowd n) .new := by
  intro h
  obtain ⟨read, hread, _⟩ := h.reads
  obtain ⟨hvalue, hget⟩ := crowd_handle hn hwraps
  rw [hvalue, materialize, heapDepth, materializeWithin, hget] at hread
  cases hread

/-- The handle of an array behind `2 ^ 32` objects finds the first of them. -/
theorem runtimeFromInterop_loss :
    ¬ ∀ (ops : List (Operation (HeapValue Int))) (value : InteropValue Int), Ordered value →
      LosslessCopy value (run ops .new) := fun hall =>
  crowd_loss (by decide) (by decide) (hall [] (crowd (2 ^ 32)) (crowd_ordered _))

end Tsvm.InteropCopies
