import Tsvm.DomFetch
import Tsvm.UrlReferences

set_option autoImplicit false

/-!
# The same-origin gate

`same_origin_path` lets every URL through that starts with a slash. Behind a second one
such a URL names an authority.
-/
namespace Tsvm.SameOrigin
open Modules DomFetch Interop UrlReferences

theorem hasPrefix_iff {start text : String} :
    hasPrefix start text = true ↔ ∃ rest, text.toList = start.toList ++ rest := by
  rw [hasPrefix, List.isPrefixOf_iff_prefix]
  exact exists_congr fun rest => eq_comm

theorem stripPrefix_eq_some {start text path : String} (h : stripPrefix start text = some path) :
    text.toList = start.toList ++ path.toList := by
  rw [stripPrefix] at h
  split at h
  · rename_i hstart
    obtain ⟨rest, hrest⟩ := hasPrefix_iff.mp hstart
    cases h
    rw [String.toList_ofList, hrest, List.drop_left]
  · cases h

section

variable {σ : Syntax}

def service (origin : Origin σ) (resources : Sources) : FetchService :=
  ⟨String.ofList origin.text, resources⟩

/-- The gate for one URL: what it lets through stays in the origin, and what leaves the
    origin fails in the same way whatever the resources are. -/
structure Gated (origin : Origin σ) (url : String) : Prop where
  same : ∀ resources path, (service origin resources).sameOriginPath url = .ok path →
    resolve origin url.toList = origin.target
  blocked : resolve origin url.toList ≠ origin.target →
    ∃ error, ∀ resources, (service origin resources).text url = .error error

theorem sameOriginPath_service (origin : Origin σ) (resources : Sources) (url : String) :
    (service origin resources).sameOriginPath url = (service origin ∅).sameOriginPath url := rfl

theorem sameOriginPath_absolute {origin : Origin σ} {resources : Sources} {url path : String}
    (hslash : hasPrefix "/" url = false)
    (h : (service origin resources).sameOriginPath url = .ok path) :
    resolve origin url.toList = origin.target := by
  rw [FetchService.sameOriginPath, hslash, if_neg Bool.false_ne_true] at h
  cases hstrip : stripPrefix (service origin resources).origin url with
  | none =>
    rw [hstrip] at h
    cases h
  | some found =>
    rw [hstrip] at h
    dsimp only at h
    split at h
    · rename_i hfound
      obtain ⟨rest, hrest⟩ := hasPrefix_iff.mp hfound
      rw [stripPrefix_eq_some hstrip, hrest]
      change resolve origin ((String.ofList origin.text).toList ++ '/' :: rest) = _
      rw [String.toList_ofList]
      exact resolve_text origin rest
    · cases h

theorem sameOriginPath_slash {origin : Origin σ} {url : String} (h : hasPrefix "/" url = true)
    (resources : Sources) : (service origin resources).sameOriginPath url = .ok url := by
  rw [FetchService.sameOriginPath, h]
  rfl

theorem resolve_hasPrefix {origin : Origin σ} {url : String} (h : hasPrefix "/" url = true) :
    resolve origin url.toList = ⟨origin.scheme,
      some ((σ.authorityPart (σ.kept url.toList)).getD origin.authority)⟩ := by
  obtain ⟨rest, hrest⟩ := hasPrefix_iff.mp h
  rw [hrest]
  exact resolve_slash origin rest

theorem Gated.authority {origin : Origin σ} {url : String} (h : Gated origin url)
    (hstart : hasPrefix "/" url = true) {authority : List Char}
    (hauthority : σ.authorityPart (σ.kept url.toList) = some authority) :
    authority = origin.authority := by
  have htarget := h.same ∅ url (sameOriginPath_slash hstart ∅)
  rw [resolve_hasPrefix hstart, hauthority, Origin.target, Target.mk.injEq] at htarget
  exact Option.some.inj htarget.2

/-- The gate fails for the URLs behind two slashes that name another authority. -/
theorem gated_iff (origin : Origin σ) (url : String) :
    Gated origin url ↔ (hasPrefix "/" url = true →
      ∀ authority, σ.authorityPart (σ.kept url.toList) = some authority →
        authority = origin.authority) := by
  constructor
  · exact fun h hstart _ hauthority => h.authority hstart hauthority
  · intro h
    have hsame (path : String) (hpath : (service origin ∅).sameOriginPath url = .ok path) :
        resolve origin url.toList = origin.target := by
      cases hstart : hasPrefix "/" url with
      | false => exact sameOriginPath_absolute hstart hpath
      | true =>
        rw [resolve_hasPrefix hstart, Origin.target]
        cases hauthority : σ.authorityPart (σ.kept url.toList) with
        | none => rfl
        | some authority =>
          rw [h hstart authority hauthority]
          rfl
    refine ⟨fun _ path hpath => hsame path hpath, fun hforeign => ?_⟩
    cases hpath : (service origin ∅).sameOriginPath url with
    | ok path => exact absurd (hsame path hpath) hforeign
    | error error =>
      refine ⟨error, fun resources => ?_⟩
      rw [FetchService.text, sameOriginPath_service, hpath]
      rfl

end

def exampleOrigin : Origin generic where
  scheme := ['h', 't', 't', 'p', 's']
  authority := ['e', 'x', 'a', 'm', 'p', 'l', 'e', '.', 't', 'e', 's', 't']
  scheme_ne_nil := List.cons_ne_nil _ _
  scheme_chars := by simp [generic, Syntax.inScheme, Syntax.ends]
  authority_chars := by simp [generic, Syntax.ends]

/-- `//evil.test/message.txt` passes. -/
theorem not_gated : ¬ ∀ (origin : Origin generic) (url : String), Gated origin url := by
  intro hall
  have hevil := (hall exampleOrigin "//evil.test/message.txt").authority (by decide +kernel)
    (show _ = some ['e', 'v', 'i', 'l', '.', 't', 'e', 's', 't'] by decide +kernel)
  exact absurd hevil (by decide +kernel)

end Tsvm.SameOrigin
