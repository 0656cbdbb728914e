import Tsvm.CApi
import Tsvm.CheckTraces

set_option autoImplicit false

/-!
# Results under all orders

The order in which a hash map goes through the fields of a type can only be seen
in the diagnostics, and from there in the text of a compile error.
-/
namespace Tsvm.DeterministicResults
open CApi Interop Parsing Pipeline RuntimeValues Semantic CheckTraces

structure Deterministic (source : String) : Prop where
  diagnostics : ∀ order order' : IterationOrder,
    (analyzeSource order source).diagnostics = (analyzeSource order' source).diagnostics
  results : ∀ (ν : Type) [F64 ν] (isFinite : ν → Bool) (debug : ExecuteError → String)
    (utf8Error : ByteArray → String) (bytes : ByteArray) (order order' : IterationOrder) (fuel : ℕ),
    String.fromUTF8? bytes = some source →
      executeUtf8 isFinite debug utf8Error bytes order fuel =
        executeUtf8 isFinite debug utf8Error bytes order' fuel

theorem fromSource_equal {order order' : IterationOrder} {source : String}
    (h : (analyzeSource order source).diagnostics = (analyzeSource order' source).diagnostics) :
    PreparedModule.fromSource order source = PreparedModule.fromSource order' source := by
  have hlowered : lowerSource order source = lowerSource order' source := by
    simp only [lowerSource, h]
  simp only [PreparedModule.fromSource, compileSource, hlowered]

theorem executeUtf8_equal {ν : Type} [F64 ν] (isFinite : ν → Bool) (debug : ExecuteError → String)
    (utf8Error : ByteArray → String) {bytes : ByteArray} {order order' : IterationOrder}
    {source : String} (fuel : ℕ) (hsource : String.fromUTF8? bytes = some source)
    (h : (analyzeSource order source).diagnostics = (analyzeSource order' source).diagnostics) :
    executeUtf8 isFinite debug utf8Error bytes order fuel =
      executeUtf8 isFinite debug utf8Error bytes order' fuel := by
  simp only [executeUtf8, executeSourceWithHost, hsource, fromSource_equal h]

/-- The result for a source is the same under all orders exactly when any two fields
    commute in every check of an object type. -/
theorem source_deterministic_iff (source : String) :
    Deterministic source ↔ ∀ check ∈ sourceChecks source, check.Steady := by
  rw [← analyzeSource_equal_iff]
  refine ⟨fun h => h.diagnostics, fun h => ⟨h, ?_⟩⟩
  intro ν _ isFinite debug utf8Error bytes order order' fuel hsource
  exact executeUtf8_equal isFinite debug utf8Error fuel hsource (h order order')

def reversed : IterationOrder := ⟨fun _ names => names.reverse, fun _ names => names.reverse_perm⟩

/-- An object without the two properties of its type. -/
theorem missingSource_not_deterministic :
    let source := "let o: { a: number, b: number } = {};"
    ¬ Deterministic source ∧
      (analyzeSource .listed source).diagnostics.map SemanticDiagnostic.message =
        ["missing property `a`", "missing property `b`"] ∧
      (analyzeSource reversed source).diagnostics.map SemanticDiagnostic.message =
        ["missing property `b`", "missing property `a`"] := by
  have hlisted : (analyzeSource .listed "let o: { a: number, b: number } = {};").diagnostics.map
      SemanticDiagnostic.message = ["missing property `a`", "missing property `b`"] := by
    decide +kernel
  have hreversed : (analyzeSource reversed "let o: { a: number, b: number } = {};").diagnostics.map
      SemanticDiagnostic.message = ["missing property `b`", "missing property `a`"] := by
    decide +kernel
  refine ⟨fun h => ?_, hlisted, hreversed⟩
  rw [h.diagnostics .listed reversed, hreversed] at hlisted
  exact absurd hlisted (by decide)

end Tsvm.DeterministicResults
