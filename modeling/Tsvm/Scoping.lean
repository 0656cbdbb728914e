import Tsvm.LoweringBlocks
import Tsvm.TopLevelFunctions

set_option autoImplicit false

/-!
# The names a program uses

A `Site` is a name that the lowerer comes to, with the parameters and the
variables that are in scope there. The code of a lowered function has the names
of its sites and no others. The scopes are those of the analyzer, which has the
functions and the console in the outermost one besides.
-/
namespace Tsvm.Scoping
open Ast Ir Lowering LoweringCode LoweringBlocks Semantic TopLevelFunctions

/-- What the lowerer does with a name: an identifier is loaded or assigned, a variable is
    declared, and a callee is flattened to a name. -/
inductive Use where
  | access (name : String)
  | declaration (name : String)
  | call (callee : Expression)

/-- The name as it stands in an instruction. -/
inductive Spelling where
  | slot (name : String)
  | call (name : String)
  deriving Repr, DecidableEq

def Use.spelling : Use → Spelling
  | .access name | .declaration name => .slot name
  | .call callee => .call (calleeName callee)

def kindSpelling : IrInstructionKind → Option Spelling
  | .loadLocal name | .storeLocal name _ => some (.slot name)
  | .call name _ => some (.call name)
  | _ => none

def codeSpellings (code : List IrInstruction) : List Spelling :=
  code.filterMap fun instruction => kindSpelling instruction.kind

abbrev Scopes := List (List String)

def Scopes.declare (name : String) : Scopes → Scopes
  | [] => []
  | scope :: scopes => (name :: scope) :: scopes

structure Site where
  use : Use
  scopes : Scopes

def sitesIn (scopes : Scopes) (uses : List Use) : List Site := uses.map fun use => ⟨use, scopes⟩

mutual

/-- The names of an expression, as the lowerer comes to them. -/
def expressionUses : Expression → List Use
  | .identifier name _ => [.access name]
  | .number _ _ | .string _ _ | .boolean _ _ | .null _ | .undefined _ | .error _ => []
  | .object properties _ => propertiesUses properties
  | .array elements _ => expressionsUses elements
  | .member object _ _ => expressionUses object
  | .call callee arguments _ => expressionsUses arguments ++ [.call callee]
  | .unary _ argument _ => expressionUses argument
  | .binary left _ right _ => expressionUses left ++ expressionUses right
  | .assignment left _ right _ =>
    match left with
    | .identifier name _ => expressionUses right ++ [.access name]
    | .member object _ _ => expressionUses object ++ expressionUses right
    | _ => expressionUses right

def expressionsUses : List Expression → List Use
  | [] => []
  | expression :: expressions => expressionUses expression ++ expressionsUses expressions

def propertiesUses : List ObjectProperty → List Use
  | [] => []
  | .mk _ value _ :: properties => expressionUses value ++ propertiesUses properties

end

mutual

def statementScopes : Statement → Scopes → Scopes
  | .variable declaration _, scopes => scopes.declare declaration.name
  | .if _ consequent alternate _, scopes =>
    alternateScopes alternate (statementScopes consequent scopes)
  | .while _ body _, scopes => statementScopes body scopes
  | .export inner _, scopes => statementScopes inner scopes
  | .return _ _, scopes | .throw _ _, scopes | .expression _ _, scopes
  | .for _ _ _ _ _, scopes | .block _ _, scopes | .interface _ _, scopes | .typeAlias _ _, scopes
  | .class _ _, scopes | .function _ _, scopes | .import _ _, scopes | .empty _, scopes
  | .error _, scopes => scopes

def alternateScopes : Option Statement → Scopes → Scopes
  | some alternate, scopes => statementScopes alternate scopes
  | none, scopes => scopes

end

section

variable (uses : Scopes → Expression → List Use)

def optionalUses (scopes : Scopes) : Option Expression → List Use
  | some expression => uses scopes expression
  | none => []

mutual

/-- The names the lowerer comes to in a statement, those of an expression as `uses` takes
    them. It makes nothing of a loop. -/
def statementSites : Statement → Scopes → List Site
  | .variable declaration _, scopes =>
    sitesIn scopes
      (optionalUses uses scopes declaration.initializer ++ [.declaration declaration.name])
  | .return value _, scopes => sitesIn scopes (optionalUses uses scopes value)
  | .throw value _, scopes | .expression value _, scopes => sitesIn scopes (uses scopes value)
  | .if test consequent alternate _, scopes =>
    sitesIn scopes (uses scopes test) ++ statementSites consequent scopes ++
      alternateSites alternate (statementScopes consequent scopes)
  | .block body _, scopes => statementsSites body ([] :: scopes)
  | .export inner _, scopes => statementSites inner scopes
  | .interface _ _, _ | .typeAlias _ _, _ | .class _ _, _ | .function _ _, _ | .import _ _, _
  | .empty _, _ | .error _, _ | .while _ _ _, _ | .for _ _ _ _ _, _ => []

def alternateSites : Option Statement → Scopes → List Site
  | some alternate, scopes => statementSites alternate scopes
  | none, _ => []

def statementsSites : List Statement → Scopes → List Site
  | [], _ => []
  | statement :: statements, scopes =>
    statementSites statement scopes ++ statementsSites statements (statementScopes statement scopes)

end

def functionSites (declaration : FunctionDeclaration) : List Site :=
  statementsSites uses declaration.body [(declaration.params.map Parameter.name).reverse, []]

def entrySites (program : Program) : List Site :=
  statementsSites uses (program.body.filter isEntryStatement) [[]]

/-- The names of the functions of the lowered program. -/
def programSites (program : Program) : List Site :=
  (program.body.filterMap plainFunction).flatMap (fun binding => functionSites uses binding.declaration) ++
    entrySites uses program

end

def allUses : Scopes → Expression → List Use := fun _ => expressionUses

theorem codeSpellings_append (first second : List IrInstruction) :
    codeSpellings (first ++ second) = codeSpellings first ++ codeSpellings second :=
  List.filterMap_append

theorem ofValue_spellings (code : List IrInstruction) (n : ℕ) (kind : IrInstructionKind)
    (ty : IrType) (span : Span) :
    codeSpellings (Lowered.ofValue code n kind ty span).code =
      codeSpellings code ++ (kindSpelling kind).toList := by
  rw [Lowered.ofValue, codeSpellings_append]
  cases kind with
  | _ => rfl

theorem memberStoreCode_spellings (object : ℕ) (property : String) (operator : AssignmentOperator)
    (right : Lowered) (leftSpan span : Span) :
    codeSpellings (memberStoreCode object property operator right leftSpan span).1 = [] := by
  cases operator with
  | _ => rfl

section

variable (types : List (String × IrType))

mutual

theorem expressionCode_spellings : ∀ (expression : Expression) (n : ℕ),
    codeSpellings (expressionCode types expression n).code =
      (expressionUses expression).map Use.spelling
  | .identifier name span, n => rfl
  | .number value span, n => rfl
  | .string value span, n => rfl
  | .boolean value span, n => rfl
  | .null span, n => rfl
  | .undefined span, n => rfl
  | .error span, n => rfl
  | .object properties span, n => by
    rw [expressionUses, ← propertiesCode_spellings properties n, expressionCode]
    exact (ofValue_spellings _ _ _ _ _).trans (List.append_nil _)
  | .array elements span, n => by
    rw [expressionUses, ← expressionsCode_spellings elements n, expressionCode]
    exact (ofValue_spellings _ _ _ _ _).trans (List.append_nil _)
  | .member object property span, n => by
    rw [expressionUses, ← expressionCode_spellings object n, expressionCode]
    exact (ofValue_spellings _ _ _ _ _).trans (List.append_nil _)
  | .call callee arguments span, n => by
    rw [expressionUses, List.map_append, ← expressionsCode_spellings arguments n, expressionCode]
    exact ofValue_spellings _ _ _ _ _
  | .unary operator argument span, n => by
    rw [expressionCode, expressionUses]
    exact expressionCode_spellings argument n
  | .binary left operator right span, n => by
    have hleft := expressionCode_spellings left n
    have hright := expressionCode_spellings right (expressionCode types left n).next
    rw [expressionUses, List.map_append, ← hleft, ← hright, ← codeSpellings_append, expressionCode]
    exact (ofValue_spellings _ _ _ _ _).trans (List.append_nil _)
  | .assignment left operator right span, n => by
    cases left with
    | identifier name leftSpan =>
      have hright := expressionCode_spellings right n
      simp only [expressionCode, codeSpellings_append, hright, expressionUses, List.map_append]
      rfl
    | member object property leftSpan =>
      have hobject := expressionCode_spellings object n
      have hright := expressionCode_spellings right (expressionCode types object n).next
      simp only [expressionCode, codeSpellings_append, hobject, hright, expressionUses,
        List.map_append, memberStoreCode_spellings, List.append_nil]
    | _ =>
      simp only [expressionCode, expressionUses]
      exact expressionCode_spellings right n

theorem expressionsCode_spellings : ∀ (expressions : List Expression) (n : ℕ),
    codeSpellings (expressionsCode types expressions n).1 =
      (expressionsUses expressions).map Use.spelling
  | [], n => rfl
  | expression :: expressions, n => by
    have hfirst := expressionCode_spellings expression n
    have hrest := expressionsCode_spellings expressions (expressionCode types expression n).next
    rw [expressionsCode, expressionsUses, List.map_append, ← hfirst, ← hrest]
    exact codeSpellings_append _ _

theorem propertiesCode_spellings : ∀ (properties : List ObjectProperty) (n : ℕ),
    codeSpellings (propertiesCode types properties n).1 =
      (propertiesUses properties).map Use.spelling
  | [], n => rfl
  | .mk name value span :: properties, n => by
    have hfirst := expressionCode_spellings value n
    have hrest := propertiesCode_spellings properties (expressionCode types value n).next
    rw [propertiesCode, propertiesUses, List.map_append, ← hfirst, ← hrest]
    exact codeSpellings_append _ _

end

theorem variableCode_spellings (scopes : Scopes) (declaration : VariableDeclaration) (span : Span) (n : ℕ) :
    codeSpellings (variableCode types declaration span n).code =
      (optionalUses allUses scopes declaration.initializer ++
        [Use.declaration declaration.name]).map
        Use.spelling := by
  rw [variableCode, codeSpellings_append, List.map_append]
  cases declaration.initializer with
  | some expression =>
    rw [optionalUses, allUses, expressionCode_spellings types expression n]
    rfl
  | none => rfl

theorem returnCode_spellings (scopes : Scopes) (value : Option Expression) (span : Span) (n : ℕ) :
    codeSpellings (returnCode types value span n).code =
      (optionalUses allUses scopes value).map Use.spelling := by
  cases value with
  | some expression =>
    rw [returnCode, codeSpellings_append, expressionCode_spellings types expression n]
    exact List.append_nil _
  | none => rfl

end

def blockSpellings (blocks : List IrBlock) : List Spelling :=
  blocks.flatMap fun block => codeSpellings block.instructions

theorem blockSpellings_modify {blocks : List IrBlock} {current : ℕ} (h : current < blocks.length)
    (code : List IrInstruction) :
    (blockSpellings (blocks.modify current fun block =>
        { block with instructions := block.instructions ++ code })).Perm
      (blockSpellings blocks ++ codeSpellings code) := by
  induction blocks generalizing current with
  | nil => cases h
  | cons block blocks ih =>
    cases current with
    | zero =>
      simp only [List.modify_zero_cons, blockSpellings, List.flatMap_cons, codeSpellings_append,
        List.append_assoc]
      exact List.perm_append_comm.append_left _
    | succ current =>
      simp only [List.modify_succ_cons, blockSpellings, List.flatMap_cons, List.append_assoc]
      exact (ih (Nat.lt_of_succ_lt_succ h)).append_left _

structure Adds (s s' : FunctionLowerer) (names : List Spelling) : Prop where
  current : s'.currentBlock < s'.blocks.length
  grows : s.blocks.length ≤ s'.blocks.length
  names : (blockSpellings s'.blocks).Perm (blockSpellings s.blocks ++ names)

namespace Adds

variable {s s' s'' : FunctionLowerer} {names names' : List Spelling}

theorem refl (h : s.currentBlock < s.blocks.length) : Adds s s [] :=
  ⟨h, Nat.le_refl _, by rw [List.append_nil]⟩

theorem trans (h : Adds s s' names) (h' : Adds s' s'' names') : Adds s s'' (names ++ names') where
  current := h'.current
  grows := Nat.le_trans h.grows h'.grows
  names := by
    rw [← List.append_assoc]
    exact h'.names.trans (h.names.append_right names')

theorem code (h : s.currentBlock < s.blocks.length) (code : List IrInstruction) (next : ℕ)
    (locals : List (String × IrType)) :
    Adds s (appendStatement ⟨code, next, locals⟩ s) (codeSpellings code) where
  current := Nat.lt_of_lt_of_eq h (List.length_modify _ _ _).symm
  grows := Nat.le_of_eq (List.length_modify _ _ _).symm
  names := blockSpellings_modify h code

theorem openArms (h : s.currentBlock < s.blocks.length) (test : Expression) :
    Adds s (openArms test s) ((expressionUses test).map Use.spelling) where
  current := by
    rw [openArms_length]
    exact Nat.lt_add_of_pos_right (by omega)
  grows := by
    rw [openArms_length]
    omega
  names := by
    have htest : codeSpellings (testCode s.locals test s.blocks.length s.nextValue) =
        (expressionUses test).map Use.spelling := by
      rw [testCode, codeSpellings_append, expressionCode_spellings]
      exact List.append_nil _
    have hadded := blockSpellings_modify h (testCode s.locals test s.blocks.length s.nextValue)
    rw [openArms_blocks test h, ← htest, blockSpellings, List.flatMap_append]
    simpa [blockSpellings, codeSpellings] using hadded

theorem closeArm (h : s.currentBlock < s.blocks.length) (merge next : ℕ)
    (hnext : next < s.blocks.length) (span : Span) : Adds s (closeArm merge next span s) [] where
  current := Nat.lt_of_lt_of_eq hnext (closeArm_length merge next span s).symm
  grows := Nat.le_of_eq (closeArm_length merge next span s).symm
  names := blockSpellings_modify h [⟨.jump merge, none, .undefined, span⟩]

end Adds

theorem sitesIn_spellings (scopes : Scopes) (uses : List Use) :
    (sitesIn scopes uses).map (fun site => site.use.spelling) = uses.map Use.spelling :=
  List.map_map

mutual

theorem lowerStatement_adds : ∀ (statement : Statement) (scopes : Scopes) {s : FunctionLowerer},
    s.currentBlock < s.blocks.length → Adds s (lowerStatement statement s)
      ((statementSites allUses statement scopes).map fun site => site.use.spelling)
  | .variable declaration span, scopes, s, h => by
    rw [statementSites, sitesIn_spellings, ← variableCode_spellings s.locals scopes declaration span,
      lowerStatement, lowerVariable_eq]
    exact .code h _ _ _
  | .return value span, scopes, s, h => by
    rw [statementSites, sitesIn_spellings, ← returnCode_spellings s.locals scopes value span,
      lowerStatement, lowerReturn_eq]
    exact .code h _ _ _
  | .expression value span, scopes, s, h | .throw value span, scopes, s, h => by
    rw [statementSites, sitesIn_spellings, allUses, ← expressionCode_spellings s.locals value,
      lowerStatement, lowerExpression_appendStatement]
    exact .code h _ _ _
  | .if test consequent alternate span, scopes, s, h => by
    have hopen := Adds.openArms h test
    have hthen := lowerStatement_adds consequent scopes hopen.current
    have hlength := openArms_length test s
    have hgrows := hthen.grows
    have hclose := Adds.closeArm hthen.current (s.blocks.length + 2) (s.blocks.length + 1)
      (by omega) span
    have helse := lowerAlternate_adds alternate (statementScopes consequent scopes) hclose.current
    have hgrows' := hclose.grows.trans helse.grows
    have hend := Adds.closeArm helse.current (s.blocks.length + 2) (s.blocks.length + 2)
      (by omega) span
    have hall := (((hopen.trans hthen).trans hclose).trans helse).trans hend
    rw [statementSites, List.map_append, List.map_append, sitesIn_spellings, allUses, lowerStatement_if]
    simpa only [List.append_nil] using hall
  | .block body span, scopes, s, h => by
    rw [statementSites, lowerStatement]
    exact lowerStatements_adds body ([] :: scopes) h
  | .export inner span, scopes, s, h => by
    rw [statementSites, lowerStatement]
    exact lowerStatement_adds inner scopes h
  | .interface _ _, _, _, h | .typeAlias _ _, _, _, h | .class _ _, _, _, h
  | .function _ _, _, _, h | .import _ _, _, _, h | .empty _, _, _, h | .error _, _, _, h
  | .while _ _ _, _, _, h | .for _ _ _ _ _, _, _, h => .refl h

theorem lowerAlternate_adds : ∀ (alternate : Option Statement) (scopes : Scopes)
    {s : FunctionLowerer}, s.currentBlock < s.blocks.length → Adds s (lowerAlternate alternate s)
      ((alternateSites allUses alternate scopes).map fun site => site.use.spelling)
  | some alternate, scopes, _, h => lowerStatement_adds alternate scopes h
  | none, _, _, h => .refl h

theorem lowerStatements_adds : ∀ (statements : List Statement) (scopes : Scopes)
    {s : FunctionLowerer}, s.currentBlock < s.blocks.length → Adds s (lowerStatements statements s)
      ((statementsSites allUses statements scopes).map fun site => site.use.spelling)
  | [], _, _, h => .refl h
  | statement :: statements, scopes, s, h => by
    have hfirst := lowerStatement_adds statement scopes h
    have hrest := lowerStatements_adds statements (statementScopes statement scopes) hfirst.current
    rw [statementsSites, List.map_append, lowerStatements]
    exact hfirst.trans hrest

end

/-- The names in the instructions of a lowered function are those of its sites. -/
theorem lowerFunction_spellings (declaration : FunctionDeclaration) (span : Span) :
    (blockSpellings (lowerFunction declaration span).blocks).Perm
      ((functionSites allUses declaration).map fun site => site.use.spelling) :=
  (lowerStatements_adds declaration.body _ Nat.one_pos).names

/-- The names in the instructions of the entry are those of its sites. -/
theorem lowerProgram_entry_spellings (program : Program) :
    (blockSpellings (lowerProgram program).entry.blocks).Perm
      ((entrySites allUses program).map fun site => site.use.spelling) := by
  have hbody := lowerStatements_adds (program.body.filter isEntryStatement) [[]]
    (s := .new "__entry" [] .undefined (program.span.getD emptySpan)) Nat.one_pos
  have hreturn := blockSpellings_modify hbody.current
    [⟨.return none, none, .undefined, program.span.getD emptySpan⟩]
  rw [show codeSpellings [⟨.return none, none, .undefined, program.span.getD emptySpan⟩] = [] from
    rfl, List.append_nil] at hreturn
  exact hreturn.trans hbody.names

end Tsvm.Scoping
