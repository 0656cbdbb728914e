import Mathlib

set_option autoImplicit false

/-!
# References relative to an origin

Where a URL reference leads from a page: its scheme and its authority, by the component
rules of generic URL syntax. Browsers differ from them in two points, which are
parameters: which characters separate like a slash, and which ones they drop.
-/
namespace UrlReferences

structure Syntax where
  slash : Char → Bool
  ignored : Char → Bool
  slash_solidus : slash '/' = true
  kept_solidus : ignored '/' = false
  kept_colon : ignored ':' = false

/-- Generic syntax. -/
def generic : Syntax := ⟨fun c => c == '/', fun _ => false, rfl, rfl, rfl⟩

/-- What browsers do for schemes like `https`. -/
def lenient : Syntax :=
  ⟨fun c => c == '/' || c == '\\', fun c => c == '\t' || c == '\n' || c == '\r', rfl, rfl, rfl⟩

namespace Syntax

variable (σ : Syntax)

def ends (c : Char) : Bool := σ.slash c || c == '?' || c == '#'

def kept (reference : List Char) : List Char := reference.filter fun c => !σ.ignored c

def inScheme (c : Char) : Bool := !(σ.ends c || c == ':')

def schemePart (reference : List Char) : Option (List Char × List Char) :=
  match reference.takeWhile σ.inScheme, reference.dropWhile σ.inScheme with
  | first :: scheme, ':' :: rest => some (first :: scheme, rest)
  | _, _ => none

def authorityPart : List Char → Option (List Char)
  | first :: second :: rest =>
    if σ.slash first && σ.slash second then some (rest.takeWhile fun c => !σ.ends c) else none
  | _ => none

end Syntax

structure Target where
  scheme : List Char
  authority : Option (List Char)
  deriving DecidableEq

/-- The origin of a page, `scheme://authority`. -/
structure Origin (σ : Syntax) where
  scheme : List Char
  authority : List Char
  scheme_ne_nil : scheme ≠ []
  scheme_chars : ∀ c ∈ scheme, σ.inScheme c = true ∧ σ.ignored c = false
  authority_chars : ∀ c ∈ authority, σ.ends c = false ∧ σ.ignored c = false

variable {σ : Syntax}

def Origin.text (origin : Origin σ) : List Char := origin.scheme ++ [':', '/', '/'] ++ origin.authority

def Origin.target (origin : Origin σ) : Target := ⟨origin.scheme, some origin.authority⟩

def resolve (origin : Origin σ) (reference : List Char) : Target :=
  match σ.schemePart (σ.kept reference) with
  | some (scheme, rest) => ⟨scheme, σ.authorityPart rest⟩
  | none => ⟨origin.scheme, some ((σ.authorityPart (σ.kept reference)).getD origin.authority)⟩

theorem Syntax.inScheme_solidus (σ : Syntax) : σ.inScheme '/' = false := by
  rw [inScheme, ends, σ.slash_solidus]
  rfl

theorem Syntax.inScheme_colon (σ : Syntax) : σ.inScheme ':' = false := by
  rw [inScheme, beq_self_eq_true, Bool.or_true]
  rfl

theorem resolve_slash (origin : Origin σ) (rest : List Char) :
    resolve origin ('/' :: rest) = ⟨origin.scheme,
      some ((σ.authorityPart (σ.kept ('/' :: rest))).getD origin.authority)⟩ := by
  have hkept : σ.kept ('/' :: rest) = '/' :: σ.kept rest :=
    List.filter_cons_of_pos (by rw [σ.kept_solidus]; rfl)
  have hnone : σ.schemePart (σ.kept ('/' :: rest)) = none := by
    rw [hkept, Syntax.schemePart, List.takeWhile_cons_of_neg (by simp [σ.inScheme_solidus])]
  rw [resolve, hnone]

theorem kept_eq_self {text : List Char} (h : ∀ c ∈ text, σ.ignored c = false) : σ.kept text = text :=
  List.filter_eq_self.mpr fun c hc => by rw [h c hc]; rfl

theorem resolve_text (origin : Origin σ) (rest : List Char) :
    resolve origin (origin.text ++ '/' :: rest) = origin.target := by
  have hscheme : σ.kept origin.scheme = origin.scheme :=
    kept_eq_self fun c hc => (origin.scheme_chars c hc).2
  have hauthority : σ.kept origin.authority = origin.authority :=
    kept_eq_self fun c hc => (origin.authority_chars c hc).2
  have hkept : σ.kept (origin.text ++ '/' :: rest) =
      origin.scheme ++ ':' :: '/' :: '/' :: (origin.authority ++ '/' :: σ.kept rest) := by
    have hseparator : σ.kept [':', '/', '/'] = [':', '/', '/'] := by
      refine kept_eq_self fun c hc => ?_
      rcases List.mem_cons.mp hc with rfl | hc
      · exact σ.kept_colon
      · rw [show c = '/' by simpa using hc]
        exact σ.kept_solidus
    have hslash : σ.kept ('/' :: rest) = '/' :: σ.kept rest :=
      List.filter_cons_of_pos (by rw [σ.kept_solidus]; rfl)
    have happend (first second : List Char) : σ.kept (first ++ second) = σ.kept first ++ σ.kept second :=
      List.filter_append ..
    rw [Origin.text, happend, happend, happend, hscheme, hauthority, hseparator, hslash]
    simp
  have hpart : σ.schemePart (origin.scheme ++ ':' :: '/' :: '/' ::
      (origin.authority ++ '/' :: σ.kept rest)) =
        some (origin.scheme, '/' :: '/' :: (origin.authority ++ '/' :: σ.kept rest)) := by
    have hall : ∀ c ∈ origin.scheme, σ.inScheme c = true := fun c hc => (origin.scheme_chars c hc).1
    have hcolon : ¬ σ.inScheme ':' = true := by rw [σ.inScheme_colon]; exact Bool.false_ne_true
    rw [Syntax.schemePart, List.takeWhile_append_of_pos hall, List.dropWhile_append_of_pos hall,
      List.takeWhile_cons_of_neg hcolon, List.dropWhile_cons_of_neg hcolon, List.append_nil]
    cases hcons : origin.scheme with
    | nil => exact absurd hcons origin.scheme_ne_nil
    | cons first scheme => rfl
  have hends : ∀ c ∈ origin.authority, (!σ.ends c) = true := fun c hc => by
    rw [(origin.authority_chars c hc).1]
    rfl
  have hstop : ('/' :: σ.kept rest).takeWhile (fun c => !σ.ends c) = [] :=
    List.takeWhile_cons_of_neg (by simp [Syntax.ends, σ.slash_solidus])
  rw [resolve, hkept, hpart, Origin.target]
  dsimp only
  rw [Syntax.authorityPart, σ.slash_solidus, List.takeWhile_append_of_pos hends, hstop,
    List.append_nil]
  rfl

end UrlReferences
