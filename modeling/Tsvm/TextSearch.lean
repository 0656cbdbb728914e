import Tsvm.ScriptLoader

set_option autoImplicit false

/-!
# Searching a text

Where the first occurrence of a pattern is, in a text that is put together from parts. A
part may be passed over when no occurrence begins in it.
-/
namespace Tsvm.TextSearch
open ScriptLoader

variable {pattern part text : List Char}

theorem findText_cons (pattern : List Char) (ch : Char) (text : List Char) :
    findText pattern (ch :: text) = if pattern <+: ch :: text then some ([], ch :: text)
      else (findText pattern text).map fun found => (ch :: found.1, found.2) := by
  rw [findText]
  by_cases h : pattern <+: ch :: text
  · rw [if_pos (List.isPrefixOf_iff_prefix.mpr h), if_pos h]
  · rw [if_neg fun hbool => h (List.isPrefixOf_iff_prefix.mp hbool), if_neg h]

theorem findText_start (hne : pattern ≠ []) (h : pattern <+: text) :
    findText pattern text = some ([], text) := by
  cases text with
  | nil => exact absurd (List.prefix_nil.mp h) hne
  | cons ch text => rw [findText_cons, if_pos h]

/-- No occurrence of the pattern begins in the part when the text follows. -/
def Passes (pattern part text : List Char) : Prop :=
  ∀ tail, tail <:+ part → tail ≠ [] → ¬ pattern <+: tail ++ text

theorem Passes.tail {ch : Char} (h : Passes pattern (ch :: part) text) :
    Passes pattern part text :=
  fun tail hsuffix => h tail (hsuffix.trans (List.suffix_cons ch part))

theorem findText_passes (h : Passes pattern part text) :
    findText pattern (part ++ text) =
      (findText pattern text).map fun found => (part ++ found.1, found.2) := by
  induction part with
  | nil => simp
  | cons ch part ih =>
    have hstart : ¬ pattern <+: ch :: (part ++ text) := h _ List.suffix_rfl (List.cons_ne_nil _ _)
    rw [List.cons_append, findText_cons, if_neg hstart, ih h.tail, Option.map_map]
    rfl

theorem findText_behind (hne : pattern ≠ []) (hpasses : Passes pattern part text)
    (h : pattern <+: text) : findText pattern (part ++ text) = some (part, text) := by
  rw [findText_passes hpasses, findText_start hne h, Option.map_some, List.append_nil]

theorem Passes.append {first second : List Char} (hfirst : Passes pattern first (second ++ text))
    (hsecond : Passes pattern second text) : Passes pattern (first ++ second) text := by
  intro tail hsuffix hne
  obtain ⟨front, hfront⟩ := hsuffix
  rcases List.append_eq_append_iff.mp hfront with ⟨middle, hmiddle, rfl⟩ | ⟨middle, rfl, hmiddle⟩
  · by_cases hnil : middle = []
    · subst hnil
      exact hsecond second List.suffix_rfl hne
    · rw [List.append_assoc]
      exact hfirst middle ⟨front, hmiddle.symm⟩ hnil
  · exact hsecond tail ⟨middle, hmiddle.symm⟩ hne

theorem findText_append {found : List Char × List Char} (h : findText pattern text = some found) :
    text = found.1 ++ found.2 := by
  induction text generalizing found with
  | nil =>
    rw [findText] at h
    split at h
    · cases h
      rfl
    · cases h
  | cons ch text ih =>
    rw [findText_cons] at h
    split at h
    · cases h
      rfl
    · obtain ⟨inner, hinner, rfl⟩ := Option.map_eq_some_iff.mp h
      exact congrArg (ch :: ·) (ih hinner)

/-- What is found begins with the pattern, and no occurrence begins before it. -/
theorem findText_some (hne : pattern ≠ []) {found : List Char × List Char}
    (h : findText pattern text = some found) :
    pattern <+: found.2 ∧ Passes pattern found.1 found.2 := by
  induction text generalizing found with
  | nil =>
    rw [findText, if_neg (by simpa using hne)] at h
    cases h
  | cons ch text ih =>
    rw [findText_cons] at h
    split at h
    · rename_i hstart
      cases h
      exact ⟨hstart, fun tail hsuffix htail => absurd (List.suffix_nil.mp hsuffix) htail⟩
    · rename_i hstart
      obtain ⟨inner, hinner, rfl⟩ := Option.map_eq_some_iff.mp h
      obtain ⟨hfound, hpasses⟩ := ih hinner
      refine ⟨hfound, fun tail hsuffix htail => ?_⟩
      rcases List.suffix_cons_iff.mp hsuffix with rfl | hsuffix
      · rw [List.cons_append, ← findText_append hinner]
        exact hstart
      · exact hpasses tail hsuffix htail

theorem findText_eq_none_iff (hne : pattern ≠ []) :
    findText pattern text = none ↔ ¬ pattern <:+: text := by
  induction text with
  | nil =>
    rw [findText, if_neg (by simpa using hne), List.infix_nil]
    exact iff_of_true rfl hne
  | cons ch text ih =>
    rw [findText_cons, List.infix_cons_iff, not_or]
    split
    · rename_i hstart
      exact iff_of_false (fun h => by cases h) fun h => h.1 hstart
    · rename_i hstart
      rw [Option.map_eq_none_iff, ih]
      exact ⟨fun h => ⟨hstart, h⟩, fun h => h.2⟩

theorem passes_of_notMem {first : Char} {rest : List Char} (h : first ∉ part) :
    Passes (first :: rest) part text := by
  intro tail hsuffix htail hoccurs
  obtain ⟨ch, tail, rfl⟩ := List.exists_cons_of_ne_nil htail
  obtain ⟨more, hmore⟩ := hoccurs
  obtain rfl : first = ch := (List.cons.inj hmore).1
  exact h (hsuffix.subset List.mem_cons_self)

theorem passes_before {first : Char} {rest behind : List Char} (hfirst : first ∉ rest)
    (h : ¬ (first :: rest) <:+: part) : Passes (first :: rest) part ((first :: rest) ++ behind) := by
  intro tail hsuffix htail hoccurs
  by_cases hlength : (first :: rest).length ≤ tail.length
  · have hinside : (first :: rest) <+: tail :=
      List.prefix_of_prefix_length_le hoccurs (List.prefix_append _ _) hlength
    exact h (hinside.isInfix.trans hsuffix.isInfix)
  · obtain ⟨ch, tail, rfl⟩ := List.exists_cons_of_ne_nil htail
    have hinside : ch :: tail <+: first :: rest :=
      List.prefix_of_prefix_length_le (List.prefix_append _ _) hoccurs (by omega)
    obtain ⟨more, hmore⟩ := hinside
    obtain ⟨after, hafter⟩ := hoccurs
    have hbehind : more ++ after = (first :: rest) ++ behind := by
      refine @List.append_cancel_left _ (ch :: tail) _ _ ?_
      rw [← List.append_assoc, hmore]
      exact hafter
    cases more with
    | nil =>
      rw [List.append_nil] at hmore
      rw [hmore] at hlength
      exact hlength (Nat.le_refl _)
    | cons next more =>
      obtain rfl : next = first := (List.cons.inj hbehind).1
      have hrest : tail ++ next :: more = rest := (List.cons.inj hmore).2
      refine hfirst ?_
      rw [← hrest]
      exact List.mem_append_right _ List.mem_cons_self

end Tsvm.TextSearch
