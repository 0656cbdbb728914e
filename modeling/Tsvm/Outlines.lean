import Mathlib

set_option autoImplicit false

/-!
# Nested intervals

A tree of intervals: each node stands for a part of a text, its children for parts of that
part. In a nested tree the children of a node are inside it, one behind the other.
-/
namespace Tsvm

inductive Outline where
  | node (start stop : ℕ) (children : List Outline)

namespace Outline

def start : Outline → ℕ
  | .node start _ _ => start

def stop : Outline → ℕ
  | .node _ stop _ => stop

mutual

def Nested : Outline → Prop
  | .node start stop children => start < stop ∧ NestedIn start stop children

/-- One behind the other between `lo` and `hi`. -/
def NestedIn : ℕ → ℕ → List Outline → Prop
  | lo, hi, [] => lo ≤ hi
  | lo, hi, tree :: trees => lo ≤ tree.start ∧ tree.Nested ∧ NestedIn tree.stop hi trees

end

variable {lo mid hi lo' hi' : ℕ} {tree : Outline} {trees trees' : List Outline}

theorem Nested.lt (h : tree.Nested) : tree.start < tree.stop := by
  cases tree with
  | node start stop children =>
    rw [Nested] at h
    exact h.1

@[simp] theorem nestedIn_nil : NestedIn lo hi [] ↔ lo ≤ hi := by rw [NestedIn]

theorem nestedIn_cons : NestedIn lo hi (tree :: trees) ↔
    lo ≤ tree.start ∧ tree.Nested ∧ NestedIn tree.stop hi trees := by rw [NestedIn]

@[simp] theorem nestedIn_singleton :
    NestedIn lo hi [tree] ↔ lo ≤ tree.start ∧ tree.Nested ∧ tree.stop ≤ hi := by
  rw [nestedIn_cons, nestedIn_nil]

theorem NestedIn.le (h : NestedIn lo hi trees) : lo ≤ hi := by
  induction trees generalizing lo with
  | nil => exact nestedIn_nil.mp h
  | cons tree trees ih =>
    obtain ⟨hlo, htree, hrest⟩ := nestedIn_cons.mp h
    have hlt := htree.lt
    have hle := ih hrest
    omega

theorem NestedIn.mono (h : NestedIn lo hi trees) (hlo : lo' ≤ lo) (hhi : hi ≤ hi') :
    NestedIn lo' hi' trees := by
  induction trees generalizing lo lo' with
  | nil =>
    have hle := nestedIn_nil.mp h
    exact nestedIn_nil.mpr (by omega)
  | cons tree trees ih =>
    obtain ⟨hstart, htree, hrest⟩ := nestedIn_cons.mp h
    exact nestedIn_cons.mpr ⟨Nat.le_trans hlo hstart, htree, ih hrest (Nat.le_refl _)⟩

theorem NestedIn.append (h : NestedIn lo mid trees) (h' : NestedIn mid hi trees') :
    NestedIn lo hi (trees ++ trees') := by
  induction trees generalizing lo with
  | nil => exact h'.mono (nestedIn_nil.mp h) (Nat.le_refl _)
  | cons tree trees ih =>
    obtain ⟨hstart, htree, hrest⟩ := nestedIn_cons.mp h
    exact nestedIn_cons.mpr ⟨hstart, htree, ih hrest⟩

theorem NestedIn.node {start stop : ℕ} (h : NestedIn start stop trees) (hlt : start < stop)
    (hlo : lo ≤ start) (hhi : stop ≤ hi) : NestedIn lo hi [.node start stop trees] :=
  nestedIn_singleton.mpr ⟨hlo, by rw [Nested]; exact ⟨hlt, h⟩, hhi⟩

mutual

def intervals : Outline → List (ℕ × ℕ)
  | .node start stop children => (start, stop) :: allIntervals children

def allIntervals : List Outline → List (ℕ × ℕ)
  | [] => []
  | tree :: trees => tree.intervals ++ allIntervals trees

end

/-- Two intervals that do not cross. -/
def Laminar (a b : ℕ × ℕ) : Prop :=
  a.2 ≤ b.1 ∨ b.2 ≤ a.1 ∨ (a.1 ≤ b.1 ∧ b.2 ≤ a.2) ∨ (b.1 ≤ a.1 ∧ a.2 ≤ b.2)

mutual

theorem Nested.inside : ∀ {tree : Outline}, tree.Nested →
    ∀ a ∈ tree.intervals, tree.start ≤ a.1 ∧ a.1 < a.2 ∧ a.2 ≤ tree.stop
  | .node start stop children, h, a, ha => by
    rw [Nested] at h
    rw [intervals] at ha
    rcases List.mem_cons.mp ha with rfl | ha
    · exact ⟨Nat.le_refl _, h.1, Nat.le_refl _⟩
    · exact NestedIn.inside h.2 a ha

theorem NestedIn.inside : ∀ {trees : List Outline} {lo hi : ℕ}, NestedIn lo hi trees →
    ∀ a ∈ allIntervals trees, lo ≤ a.1 ∧ a.1 < a.2 ∧ a.2 ≤ hi
  | [], _, _, _, _, ha => by
    rw [allIntervals] at ha
    cases ha
  | tree :: trees, _, _, h, a, ha => by
    obtain ⟨hstart, htree, hrest⟩ := nestedIn_cons.mp h
    have hlt := htree.lt
    have hle := hrest.le
    rw [allIntervals] at ha
    rcases List.mem_append.mp ha with ha | ha
    · have hinside := Nested.inside htree a ha
      omega
    · have hinside := NestedIn.inside hrest a ha
      omega

end

mutual

/-- The intervals of a nested tree do not cross. -/
theorem Nested.laminar : ∀ {tree : Outline}, tree.Nested →
    ∀ a ∈ tree.intervals, ∀ b ∈ tree.intervals, Laminar a b
  | .node start stop children, h, a, ha, b, hb => by
    have hinside := h.inside
    have hsecond := hinside b hb
    have hfirst := hinside a ha
    rw [intervals] at ha hb
    rw [Nested] at h
    rcases List.mem_cons.mp ha with rfl | ha
    · exact .inr (.inr (.inl ⟨hsecond.1, hsecond.2.2⟩))
    · rcases List.mem_cons.mp hb with rfl | hb
      · exact .inr (.inr (.inr ⟨hfirst.1, hfirst.2.2⟩))
      · exact NestedIn.laminar h.2 a ha b hb

theorem NestedIn.laminar : ∀ {trees : List Outline} {lo hi : ℕ}, NestedIn lo hi trees →
    ∀ a ∈ allIntervals trees, ∀ b ∈ allIntervals trees, Laminar a b
  | [], _, _, _, _, ha, _, _ => by
    rw [allIntervals] at ha
    cases ha
  | tree :: trees, _, _, h, a, ha, b, hb => by
    obtain ⟨_, htree, hrest⟩ := nestedIn_cons.mp h
    rw [allIntervals] at ha hb
    rcases List.mem_append.mp ha with ha | ha
    · rcases List.mem_append.mp hb with hb | hb
      · exact Nested.laminar htree a ha b hb
      · have hfirst := htree.inside a ha
        have hsecond := hrest.inside b hb
        exact .inl (by omega)
    · rcases List.mem_append.mp hb with hb | hb
      · have hfirst := hrest.inside a ha
        have hsecond := htree.inside b hb
        exact .inr (.inl (by omega))
      · exact NestedIn.laminar hrest a ha b hb

end

end Outline
end Tsvm
