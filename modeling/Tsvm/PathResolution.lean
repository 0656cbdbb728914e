import Tsvm.ScriptLoader

set_option autoImplicit false

/-!
# Paths of modules and scripts

Both resolvers go along the segments of a relative path from the directory of the base
and write the place they come to as an absolute path. Only a source that is absolute
already is taken as it stands.
-/
namespace Tsvm.PathResolution
open Ast Modules ScriptLoader

structure IsName (part : String) : Prop where
  nonempty : part ≠ ""
  dot : part ≠ "."
  parent : part ≠ ".."
  slash : '/' ∉ part.toList

/-- The parts of a path lead from one place to another; above the root is the root. -/
inductive Leads : List String → List String → List String → Prop
  | done {place : List String} : Leads place [] place
  | stay {place target parts : List String} {part : String} (hpart : part = "." ∨ part = "")
      (hrest : Leads place parts target) : Leads place (part :: parts) target
  | up {place target parts : List String} (hrest : Leads place.dropLast parts target) :
      Leads place (".." :: parts) target
  | down {place target parts : List String} {part : String} (hpart : IsName part)
      (hrest : Leads (place ++ [part]) parts target) : Leads place (part :: parts) target

/-- The place that a reference in a document at `base` names. -/
def Names (base : List String) (reference : String) (target : List String) : Prop :=
  Leads (if hasPrefix "/" reference then [] else base.dropLast) (splitSlash reference) target

def pathOf (place : List String) : String := "/" ++ "/".intercalate place

def Normal (path : String) : Prop :=
  ∃ place, (∀ part ∈ place, IsName part) ∧ path = pathOf place

theorem notMem_splitOn {text piece : List Char} (h : piece ∈ text.splitOn '/') : '/' ∉ piece := by
  induction text generalizing piece with
  | nil =>
    rw [List.splitOn_nil, List.mem_singleton] at h
    rw [h]
    exact List.not_mem_nil
  | cons ch text ih =>
    rw [List.splitOn_cons_eq_if_modifyHead] at h
    by_cases hch : ch = '/'
    · rw [hch, beq_self_eq_true, if_pos rfl] at h
      rcases List.mem_cons.mp h with rfl | h
      · exact List.not_mem_nil
      · exact ih h
    · rw [beq_false_of_ne hch, if_neg Bool.false_ne_true] at h
      cases hsplit : text.splitOn '/' with
      | nil =>
        rw [hsplit] at h
        exact absurd h List.not_mem_nil
      | cons first rest =>
        rw [hsplit, List.modifyHead_cons] at h
        rcases List.mem_cons.mp h with rfl | h
        · have hfirst : '/' ∉ first := ih (by rw [hsplit]; exact List.mem_cons_self)
          rw [List.mem_cons, not_or]
          exact ⟨Ne.symm hch, hfirst⟩
        · exact ih (by rw [hsplit]; exact List.mem_cons_of_mem _ h)

theorem notMem_splitSlash {text part : String} (h : part ∈ splitSlash text) :
    '/' ∉ part.toList := by
  obtain ⟨piece, hpiece, rfl⟩ := List.mem_map.mp h
  rw [String.toList_ofList]
  exact notMem_splitOn hpiece

theorem splitSlash_pathOf {place : List String} (hne : place ≠ [])
    (hplace : ∀ part ∈ place, IsName part) : splitSlash (pathOf place) = "" :: place := by
  have htext : (pathOf place).toList = ['/'].intercalate ([] :: place.map String.toList) := by
    rw [pathOf, String.toList_append, String.toList_intercalate,
      List.intercalate_cons_of_ne_nil (by simp [hne])]
    rfl
  rw [splitSlash, htext, List.splitOn_intercalate _ _ (List.cons_ne_nil _ _), List.map_cons,
    List.map_map]
  · have hid : String.ofList ∘ String.toList = id := funext fun part => String.ofList_toList
    rw [hid, List.map_id]
  · intro piece hpiece
    rcases List.mem_cons.mp hpiece with rfl | hpiece
    · exact List.not_mem_nil
    · obtain ⟨part, hpart, rfl⟩ := List.mem_map.mp hpiece
      exact (hplace part hpart).slash

theorem pushPart_leads {place target parts : List String} {part : String}
    (hslash : '/' ∉ part.toList) :
    Leads place (part :: parts) target ↔ Leads (pushPart place part) parts target := by
  rw [pushPart]
  by_cases hstay : part = "." ∨ part = ""
  · rw [if_pos hstay]
    constructor
    · intro h
      cases h with
      | stay _ hrest => exact hrest
      | up hrest => exact absurd hstay (by decide)
      | down hpart _ => exact absurd hstay (by rw [not_or]; exact ⟨hpart.dot, hpart.nonempty⟩)
    · exact .stay hstay
  · rw [if_neg hstay]
    by_cases hup : part = ".."
    · subst hup
      rw [if_pos rfl]
      constructor
      · intro h
        cases h with
        | stay hpart _ => exact absurd hpart hstay
        | up hrest => exact hrest
        | down hpart _ => exact absurd rfl hpart.parent
      · exact .up
    · rw [if_neg hup]
      constructor
      · intro h
        cases h with
        | stay hpart _ => exact absurd hpart hstay
        | up _ => exact absurd rfl hup
        | down _ hrest => exact hrest
      · rw [not_or] at hstay
        exact .down ⟨hstay.2, hstay.1, hup, hslash⟩

theorem foldl_pushPart_leads {parts : List String} (hslash : ∀ part ∈ parts, '/' ∉ part.toList)
    (place target : List String) :
    Leads place parts target ↔ parts.foldl pushPart place = target := by
  induction parts generalizing place with
  | nil =>
    constructor
    · intro h
      cases h with
      | done => rfl
    · rintro rfl
      exact .done
  | cons part parts ih =>
    obtain ⟨hpart, hparts⟩ := List.forall_mem_cons.mp hslash
    rw [pushPart_leads hpart, List.foldl_cons, ih hparts]

theorem Leads.names {place parts target : List String} (h : Leads place parts target)
    (hplace : ∀ part ∈ place, IsName part) : ∀ part ∈ target, IsName part := by
  induction h with
  | done => exact hplace
  | stay _ _ ih => exact ih hplace
  | up _ ih => exact ih fun part hpart => hplace part (List.mem_of_mem_dropLast hpart)
  | down hpart _ ih =>
    refine ih fun part hmem => ?_
    rcases List.mem_append.mp hmem with hold | hnew
    · exact hplace part hold
    · rw [List.mem_singleton.mp hnew]
      exact hpart

theorem leads_names {parts : List String} (hparts : ∀ part ∈ parts, IsName part)
    (place : List String) : Leads place parts (place ++ parts) := by
  induction parts generalizing place with
  | nil =>
    rw [List.append_nil]
    exact .done
  | cons part parts ih =>
    obtain ⟨hpart, hrest⟩ := List.forall_mem_cons.mp hparts
    have hleads := ih hrest (place ++ [part])
    rw [List.append_assoc] at hleads
    exact .down hpart hleads

section Base

variable {base : List String}

theorem directory_pathOf (hbase : ∀ part ∈ base, IsName part) :
    ((splitSlash (pathOf base)).filter fun part => part ≠ "").dropLast = base.dropLast := by
  by_cases hne : base = []
  · subst hne
    rfl
  · rw [splitSlash_pathOf hne hbase, List.filter_cons_of_neg (by simp)]
    congr 1
    refine List.filter_eq_self.mpr fun part hpart => ?_
    simpa using (hbase part hpart).nonempty

theorem joinPath_eq (hbase : ∀ part ∈ base, IsName part) {reference : String}
    {target : List String} (h : Leads base.dropLast (splitSlash reference) target) :
    joinPath (pathOf base) reference = pathOf target := by
  have hslash : ∀ part ∈ splitSlash reference, '/' ∉ part.toList :=
    fun part hpart => notMem_splitSlash hpart
  have hfold := (foldl_pushPart_leads hslash base.dropLast target).mp h
  rw [joinPath, directory_pathOf hbase, hfold]
  rfl

theorem exists_leads (reference : String) (place : List String) :
    ∃ target, Leads place (splitSlash reference) target :=
  ⟨_, (foldl_pushPart_leads (fun _ hpart => notMem_splitSlash hpart) place _).mpr rfl⟩

theorem joinPath_normal (hbase : ∀ part ∈ base, IsName part) (reference : String) :
    Normal (joinPath (pathOf base) reference) := by
  obtain ⟨target, htarget⟩ := exists_leads reference base.dropLast
  refine ⟨target, htarget.names fun part hpart => ?_, joinPath_eq hbase htarget⟩
  exact hbase part (List.mem_of_mem_dropLast hpart)

/-- What is asked of the resolution of one reference in a document at `base`. -/
structure Canonical (base : List String) (reference : String) : Prop where
  url : Normal (resolveUrl (pathOf base) reference)
  imports : ∀ declaration : ImportDeclaration, declaration.from = reference →
    ∀ resolved, resolveImport (pathOf base) declaration = .ok resolved → Normal resolved
  agree : hasPrefix "./" reference = true ∨ hasPrefix "../" reference = true →
    hasSuffix ".ts" reference = true → ∀ declaration : ImportDeclaration,
      declaration.from = reference →
        resolveImport (pathOf base) declaration = .ok (resolveUrl (pathOf base) reference)
  key : ∀ target, Names base reference target → resolveUrl (pathOf base) reference = pathOf target

theorem resolveImport_eq_ok {declaration : ImportDeclaration} {resolved : String}
    (h : resolveImport (pathOf base) declaration = .ok resolved) :
    resolved = joinPath (pathOf base) declaration.from := by
  rw [resolveImport] at h
  split at h
  · cases h
  · split at h
    · cases h
    · exact (Except.ok.inj h).symm

theorem hasPrefix_slash {reference : String}
    (h : hasPrefix "./" reference = true ∨ hasPrefix "../" reference = true) :
    hasPrefix "/" reference = false := by
  unfold hasPrefix at h ⊢
  cases hlist : reference.toList with
  | nil => rfl
  | cons first rest =>
    rw [hlist] at h
    have hdot : first = '.' := by
      rcases h with h | h
      · obtain ⟨tail, htail⟩ := List.isPrefixOf_iff_prefix.mp h
        cases htail
        rfl
      · obtain ⟨tail, htail⟩ := List.isPrefixOf_iff_prefix.mp h
        cases htail
        rfl
    rw [hdot]
    rfl

theorem canonical_relative (hbase : ∀ part ∈ base, IsName part) {reference : String}
    (hrelative : hasPrefix "/" reference = false) : Canonical base reference := by
  have hurl : resolveUrl (pathOf base) reference = joinPath (pathOf base) reference := by
    rw [resolveUrl, hrelative]
    rfl
  refine ⟨?_, ?_, ?_, ?_⟩
  · rw [hurl]
    exact joinPath_normal hbase reference
  · rintro declaration rfl resolved hresolved
    rw [resolveImport_eq_ok hresolved]
    exact joinPath_normal hbase declaration.from
  · rintro hstart hstop declaration rfl
    have hstarts : (hasPrefix "./" declaration.from || hasPrefix "../" declaration.from) = true :=
      Bool.or_eq_true_iff.mpr hstart
    rw [resolveImport, hstarts, hstop, hurl]
    rfl
  · intro target htarget
    rw [Names, hrelative] at htarget
    rw [hurl]
    exact joinPath_eq hbase htarget

theorem canonical_absolute {reference : String} (habsolute : hasPrefix "/" reference = true)
    (hnormal : Normal reference) : Canonical base reference := by
  have hurl : resolveUrl (pathOf base) reference = reference := by
    rw [resolveUrl, habsolute]
    rfl
  have hrelative : ¬ (hasPrefix "./" reference = true ∨ hasPrefix "../" reference = true) := by
    intro h
    rw [hasPrefix_slash h] at habsolute
    cases habsolute
  refine ⟨?_, ?_, ?_, ?_⟩
  · rw [hurl]
    exact hnormal
  · rintro declaration rfl resolved hresolved
    rw [resolveImport, Bool.eq_false_iff.mpr fun h => hrelative (Bool.or_eq_true_iff.mp h)] at hresolved
    cases hresolved
  · exact fun h => absurd h hrelative
  · intro target htarget
    obtain ⟨place, hplace, rfl⟩ := hnormal
    rw [Names, habsolute, if_pos rfl] at htarget
    rw [hurl]
    congr 1
    have hslash : ∀ part ∈ splitSlash (pathOf place), '/' ∉ part.toList :=
      fun part hpart => notMem_splitSlash hpart
    have hleads : Leads [] (splitSlash (pathOf place)) place := by
      by_cases hne : place = []
      · subst hne
        exact .stay (.inr rfl) (.stay (.inr rfl) .done)
      · rw [splitSlash_pathOf hne hplace]
        exact .stay (.inr rfl) (leads_names hplace [])
    rw [← (foldl_pushPart_leads hslash [] target).mp htarget]
    exact ((foldl_pushPart_leads hslash [] place).mp hleads).symm

/-- Only an absolute source that is not normal is a key of its own. -/
theorem canonical_iff (hbase : ∀ part ∈ base, IsName part) (reference : String) :
    Canonical base reference ↔ (hasPrefix "/" reference = true → Normal reference) := by
  constructor
  · intro h habsolute
    have hurl := h.url
    rw [resolveUrl, habsolute] at hurl
    exact hurl
  · intro h
    cases hstart : hasPrefix "/" reference with
    | false => exact canonical_relative hbase hstart
    | true => exact canonical_absolute hstart (h hstart)

end Base

theorem isName_page : ∀ part ∈ ["app", "page.html"], IsName part := by
  intro part hpart
  rcases List.mem_pair.mp hpart with rfl | rfl <;>
    exact ⟨by decide, by decide, by decide, by decide⟩

theorem canonical_dots : Canonical ["app", "page.html"] "../lib/./math.ts" ↔
    (hasPrefix "/" "../lib/./math.ts" = true → Normal "../lib/./math.ts") :=
  canonical_iff isName_page _

/-- `/app/../lib/math.ts` keeps its dots. -/
theorem not_canonical :
    ¬ ∀ (base : List String), (∀ part ∈ base, IsName part) → ∀ reference, Canonical base reference := by
  intro hall
  obtain ⟨place, hplace, hpath⟩ := (hall _ isName_page "/app/../lib/math.ts").url
  have hsplit : splitSlash (pathOf place) = ["", "app", "..", "lib", "math.ts"] := by
    rw [← hpath]
    decide +kernel
  by_cases hne : place = []
  · subst hne
    exact absurd hsplit (by decide +kernel)
  · rw [splitSlash_pathOf hne hplace] at hsplit
    cases hsplit
    exact (hplace ".." (by simp)).parent rfl

end Tsvm.PathResolution
