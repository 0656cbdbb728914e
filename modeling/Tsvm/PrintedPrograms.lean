import Tsvm.PrintedLoops

set_option autoImplicit false

/-!
# Printed programs

Printing a program and parsing it again gives the program back exactly when every
`for` in it has an initializer.
-/
namespace Tsvm.Printing
open Ast Lexing Parsing Grammar

mutual

theorem opensElse_braced (statement : Statement) :
    opensElse (braced statement) = opensElse statement := by
  cases statement with
  | «export» inner span => exact opensElse_braced inner
  | «if» test consequent alternate span => exact alternateOpensElse_braced alternate
  | «while» test body span => exact opensElse_braced body
  | «for» initializer test update body span => exact opensElse_braced body
  | _ => rfl

theorem alternateOpensElse_braced (alternate : Option Statement) :
    alternateOpensElse (bracedAlternate alternate) = alternateOpensElse alternate := by
  cases alternate with
  | none => rfl
  | some alternate => exact opensElse_braced alternate

end

theorem isSome_bracedAlternate (alternate : Option Statement) :
    (bracedAlternate alternate).isSome = alternate.isSome := by
  cases alternate <;> rfl

mutual

theorem completeStatement_braced (statement : Statement) :
    completeStatement (braced statement) = completeStatement statement := by
  cases statement with
  | «export» inner span => exact completeStatement_braced inner
  | function declaration span => exact completeStatements_braced declaration.body
  | «if» test consequent alternate span =>
    rw [braced, completeStatement, completeStatement, completeAlternate_braced alternate]
    split
    · rw [completeStatement, completeStatements, completeStatements, Bool.and_true,
        completeStatement_braced consequent]
    · rw [completeStatement_braced consequent]
  | «while» test body span =>
    rw [braced, completeStatement, completeStatement, completeStatement_braced body]
  | «for» initializer test update body span =>
    rw [braced, completeStatement, completeStatement, completeStatement_braced body]
  | block body span => exact completeStatements_braced body
  | _ => rfl

theorem completeAlternate_braced (alternate : Option Statement) :
    completeAlternate (bracedAlternate alternate) = completeAlternate alternate := by
  cases alternate with
  | none => rfl
  | some alternate => exact completeStatement_braced alternate

theorem completeStatements_braced (body : List Statement) :
    completeStatements (bracedStatements body) = completeStatements body := by
  cases body with
  | nil => rfl
  | cons statement body =>
    rw [bracedStatements, completeStatements, completeStatements, completeStatement_braced statement,
      completeStatements_braced body]

end

mutual

theorem initialized_braced (statement : Statement) :
    initialized (braced statement) = initialized statement := by
  cases statement with
  | «export» inner span => exact initialized_braced inner
  | function declaration span => exact initializedStatements_braced declaration.body
  | «if» test consequent alternate span =>
    rw [braced, initialized, initialized, initializedAlternate_braced alternate]
    split
    · rw [initialized, initializedStatements, initializedStatements, Bool.and_true,
        initialized_braced consequent]
    · rw [initialized_braced consequent]
  | «while» test body span => exact initialized_braced body
  | «for» initializer test update body span =>
    rw [braced, initialized, initialized, initialized_braced body]
  | block body span => exact initializedStatements_braced body
  | _ => rfl

theorem initializedAlternate_braced (alternate : Option Statement) :
    initializedAlternate (bracedAlternate alternate) = initializedAlternate alternate := by
  cases alternate with
  | none => rfl
  | some alternate => exact initialized_braced alternate

theorem initializedStatements_braced (body : List Statement) :
    initializedStatements (bracedStatements body) = initializedStatements body := by
  cases body with
  | nil => rfl
  | cons statement body =>
    rw [bracedStatements, initializedStatements, initializedStatements, initialized_braced statement,
      initializedStatements_braced body]

end

mutual

theorem undangling_braced (statement : Statement) : undangling (braced statement) = true := by
  cases statement with
  | «export» inner span => exact undangling_braced inner
  | function declaration span => exact undanglingStatements_braced declaration.body
  | «if» test consequent alternate span =>
    rw [braced, undangling, undanglingAlternate_braced alternate, Bool.and_true,
      isSome_bracedAlternate]
    by_cases hdangling : (alternate.isSome && opensElse consequent) = true
    · have hblock : opensElse (.block [braced consequent] consequent.span) = false := rfl
      rw [if_pos hdangling, undangling, undanglingStatements, undanglingStatements, Bool.and_true,
        undangling_braced consequent, hblock, Bool.and_false]
      rfl
    · rw [if_neg hdangling, undangling_braced consequent, opensElse_braced,
        Bool.eq_false_iff.mpr hdangling]
      rfl
  | «while» test body span => exact undangling_braced body
  | «for» initializer test update body span => exact undangling_braced body
  | block body span => exact undanglingStatements_braced body
  | _ => rfl

theorem undanglingAlternate_braced (alternate : Option Statement) :
    undanglingAlternate (bracedAlternate alternate) = true := by
  cases alternate with
  | none => rfl
  | some alternate => exact undangling_braced alternate

theorem undanglingStatements_braced (body : List Statement) :
    undanglingStatements (bracedStatements body) = true := by
  cases body with
  | nil => rfl
  | cons statement body =>
    rw [bracedStatements, undanglingStatements, undangling_braced statement,
      undanglingStatements_braced body]
    rfl

end

mutual

/-- Braces only go where an `if` is dangling. -/
theorem braced_same_iff (statement : Statement) :
    (braced statement).relocate nowhere = statement.relocate nowhere ↔
      undangling statement = true := by
  cases statement with
  | «export» inner span =>
    rw [braced, Statement.relocate, Statement.relocate, Statement.export.injEq,
      and_iff_left rfl, braced_same_iff inner]
    rfl
  | function declaration span =>
    obtain ⟨name, params, returnType, body⟩ := declaration
    rw [braced, Statement.relocate, Statement.relocate, Statement.function.injEq, and_iff_left rfl,
      FunctionDeclarationOf.mk.injEq, and_iff_right rfl, and_iff_right rfl, and_iff_right rfl,
      bracedStatements_same_iff body]
    rfl
  | «if» test consequent alternate span =>
    have hundangling : undangling (.if test consequent alternate span) = true ↔
        ((!(alternate.isSome && opensElse consequent)) = true ∧ undangling consequent = true) ∧
          undanglingAlternate alternate = true := by
      rw [undangling, Bool.and_eq_true_iff, Bool.and_eq_true_iff]
    rw [hundangling, braced, Statement.relocate, Statement.relocate, Statement.if.injEq,
      and_iff_right rfl, and_iff_left rfl, bracedAlternate_same_iff alternate]
    refine and_congr_left fun _ => ?_
    by_cases hdangling : (alternate.isSome && opensElse consequent) = true
    · rw [if_pos hdangling, hdangling]
      have hopens := (Bool.and_eq_true_iff.mp hdangling).2
      refine iff_of_false (fun heq => ?_) fun h => nomatch h.1
      cases consequent with
      | «export» | «if» | «while» | «for» => exact nomatch heq
      | _ => exact nomatch hopens
    · rw [if_neg hdangling, Bool.eq_false_iff.mpr hdangling, braced_same_iff consequent]
      exact (and_iff_right rfl).symm
  | «while» test body span =>
    rw [braced, Statement.relocate, Statement.relocate, Statement.while.injEq, and_iff_right rfl,
      and_iff_left rfl, braced_same_iff body]
    rfl
  | «for» initializer test update body span =>
    rw [braced, Statement.relocate, Statement.relocate, Statement.for.injEq, and_iff_right rfl,
      and_iff_right rfl, and_iff_right rfl, and_iff_left rfl, braced_same_iff body]
    rfl
  | block body span =>
    rw [braced, Statement.relocate, Statement.relocate, Statement.block.injEq, and_iff_left rfl,
      bracedStatements_same_iff body]
    rfl
  | _ => exact iff_of_true rfl rfl

theorem bracedAlternate_same_iff (alternate : Option Statement) :
    relocateOption nowhere (bracedAlternate alternate) = relocateOption nowhere alternate ↔
      undanglingAlternate alternate = true := by
  cases alternate with
  | none => exact iff_of_true rfl rfl
  | some alternate =>
    rw [bracedAlternate, relocateOption, relocateOption, Option.some_inj, braced_same_iff alternate]
    rfl

theorem bracedStatements_same_iff (body : List Statement) :
    relocateStatements nowhere (bracedStatements body) = relocateStatements nowhere body ↔
      undanglingStatements body = true := by
  cases body with
  | nil => exact iff_of_true rfl rfl
  | cons statement body =>
    rw [bracedStatements, relocateStatements, relocateStatements, List.cons_eq_cons,
      braced_same_iff statement, bracedStatements_same_iff body, undanglingStatements,
      Bool.and_eq_true_iff]

end

/-- A printed program is parsed as itself exactly when its loops have initializers; a
program with a dangling `if` comes back with the braces that printing puts around it. -/
theorem parseProgram_printed_iff (body : List Statement) (hcomplete : completeStatements body = true)
    (tokens : List Token) (h : kinds tokens = statementsKinds (bracedStatements body)) :
    ((parseProgram tokens).diagnostics = [] ∧
        relocateStatements nowhere (parseProgram tokens).program.body =
          relocateStatements nowhere (bracedStatements body) ↔
      initializedStatements body = true) ∧
    ((parseProgram tokens).diagnostics = [] ∧
        relocateStatements nowhere (parseProgram tokens).program.body =
          relocateStatements nowhere body ↔
      initializedStatements body = true ∧ undanglingStatements body = true) := by
  rw [← completeStatements_braced] at hcomplete
  have hundangling := undanglingStatements_braced body
  have hclean : (parseProgram tokens).diagnostics = [] → initializedStatements body = true := by
    intro hclean
    have hstatements := (parseProgram_iff tokens _).mp ⟨hclean, rfl⟩
    by_contra hinitialized
    rw [← initializedStatements_braced, Bool.not_eq_true] at hinitialized
    exact statements_unreadable _ hcomplete hundangling hinitialized none tokens [] tokens [] _
      (.inr rfl) h rfl rfl rfl hstatements
  have hread : initializedStatements body = true → (parseProgram tokens).diagnostics = [] ∧
      relocateStatements nowhere (parseProgram tokens).program.body =
        relocateStatements nowhere (bracedStatements body) := by
    intro hinitialized
    rw [← initializedStatements_braced] at hinitialized
    obtain ⟨v, hv, hread⟩ := statements_printed _ hcomplete hundangling hinitialized h
    obtain ⟨hdiagnostics, hbody⟩ :=
      (parseProgram_iff tokens v).mpr (hread none fun heq => nomatch heq)
    rw [hbody]
    exact ⟨hdiagnostics, hv⟩
  refine ⟨⟨fun hparsed => hclean hparsed.1, hread⟩, ⟨fun hparsed => ?_, fun hboth => ?_⟩⟩
  · have hinitialized := hclean hparsed.1
    exact ⟨hinitialized, (bracedStatements_same_iff body).mp
      ((hread hinitialized).2.symm.trans hparsed.2)⟩
  · obtain ⟨hdiagnostics, hbody⟩ := hread hboth.1
    exact ⟨hdiagnostics, hbody.trans ((bracedStatements_same_iff body).mpr hboth.2)⟩

def printed (body : List Statement) : List Token :=
  (statementsKinds (bracedStatements body)).map fun kind => ⟨kind, ⟨⟨0, 1, 1⟩, ⟨0, 1, 1⟩⟩⟩

/-- `for (let i = 0; ; ) if (i) { if (i) ; } else ;` -/
def countingLoop : List Statement :=
  let span : Span := ⟨⟨0, 1, 1⟩, ⟨0, 1, 1⟩⟩
  let i : Expression := .identifier "i" span
  [.for (some (.variable ⟨.let, "i", none, some (.number "0" span)⟩ span)) none none
    (.if i (.if i (.empty span) none span) (some (.empty span)) span) span]

/-- `for (;;) {}` -/
def bareLoop : List Statement :=
  let span : Span := ⟨⟨0, 1, 1⟩, ⟨0, 1, 1⟩⟩
  [.for none none none (.block [] span) span]

theorem countingLoop_printed :
    (parseProgram (printed countingLoop)).diagnostics = [] ∧
      relocateStatements nowhere (parseProgram (printed countingLoop)).program.body =
        relocateStatements nowhere (bracedStatements countingLoop) :=
  (parseProgram_printed_iff countingLoop (by decide) (printed countingLoop) (by decide)).1.mpr
    (by decide)

theorem bareLoop_not_round_trip :
    ¬ ∀ body, completeStatements body = true → ∀ tokens,
      kinds tokens = statementsKinds (bracedStatements body) →
      (parseProgram tokens).diagnostics = [] ∧
        relocateStatements nowhere (parseProgram tokens).program.body =
          relocateStatements nowhere (bracedStatements body) := by
  intro h
  have hclean := (h bareLoop (by decide) (printed bareLoop) (by decide)).1
  have hreports : (parseProgram (printed bareLoop)).diagnostics ≠ [] := by decide +kernel
  exact hreports hclean

end Tsvm.Printing
