import Tsvm.Scoping

set_option autoImplicit false

/-!
# The variables behind the names

A variable is a declaration of a function, known by its name and a number. Every
instruction with a name gets a mark: the scopes it stands in, with the variables in
them, and so the variable that the name means there. Slots know names only.
-/
namespace Tsvm.Variables
open Ast Ir Lowering LoweringCode LoweringBlocks TopLevelFunctions Scoping

abbrev Variable := String × ℕ

/-- The parameters and variables in scope, the innermost scope first. -/
abbrev Bindings := List (List Variable)

namespace Bindings

def names (scopes : Bindings) : Scopes := scopes.map (List.map Prod.fst)

def declare (new : Variable) : Bindings → Bindings
  | [] => []
  | scope :: scopes => (new :: scope) :: scopes

/-- The innermost variable of a name. -/
def resolve (name : String) (scopes : Bindings) : Option Variable :=
  scopes.flatten.find? fun binding => binding.1 = name

theorem names_declare (new : Variable) (scopes : Bindings) :
    (scopes.declare new).names = scopes.names.declare new.1 := by
  cases scopes <;> rfl

theorem resolve_mem {name : String} {scopes : Bindings} {binding : Variable}
    (h : scopes.resolve name = some binding) : binding ∈ scopes.flatten ∧ binding.1 = name := by
  have hname := List.find?_some h
  exact ⟨List.mem_of_find?_eq_some h, of_decide_eq_true hname⟩

end Bindings

/-- A name as the lowerer comes to it: the scopes there, and the next number. -/
structure Mark where
  use : Use
  scopes : Bindings
  number : ℕ

namespace Mark

/-- The variable of the mark. A declaration makes a new one. -/
def target (mark : Mark) : Option Variable :=
  match mark.use with
  | .access name => mark.scopes.resolve name
  | .declaration name => some (name, mark.number)
  | .call _ => none

def site (mark : Mark) : Site := ⟨mark.use, mark.scopes.names⟩

end Mark

/-- The marks of the blocks made so far, and the scopes and the next number behind them. -/
structure Marker where
  blocks : List (List Mark)
  current : ℕ
  scopes : Bindings
  next : ℕ

namespace Marker

def add (uses : List Use) (w : Marker) : Marker :=
  { w with blocks := w.blocks.modify w.current fun block =>
      block ++ uses.map fun use => ⟨use, w.scopes, w.next⟩ }

def declare (name : String) (w : Marker) : Marker :=
  { w with scopes := w.scopes.declare (name, w.next), next := w.next + 1 }

def openArms (w : Marker) : Marker :=
  { w with blocks := w.blocks ++ [[], [], []], current := w.blocks.length }

def enter (block : ℕ) (w : Marker) : Marker := { w with current := block }

def leave (w w' : Marker) : Marker := { w with scopes := w'.scopes, next := w'.next }

end Marker

mutual

/-- The marks of a statement, where the lowerer puts its instructions. The analyzer
    declares the variables of a loop's body, the lowerer makes nothing of the loop. -/
def markStatement : Statement → Marker → Marker
  | .variable declaration _, w =>
    (w.add (optionalUses allUses [] declaration.initializer ++
      [.declaration declaration.name])).declare declaration.name
  | .return value _, w => w.add (optionalUses allUses [] value)
  | .throw value _, w | .expression value _, w => w.add (expressionUses value)
  | .if test consequent alternate _, w =>
    let first := w.blocks.length
    let w := markStatement consequent (w.add (expressionUses test)).openArms
    (markAlternate alternate (w.enter (first + 1))).enter (first + 2)
  | .block body _, w =>
    { markStatements body { w with scopes := [] :: w.scopes } with scopes := w.scopes }
  | .while _ body _, w => w.leave (markStatement body w)
  | .export inner _, w => markStatement inner w
  | .interface _ _, w | .typeAlias _ _, w | .class _ _, w | .function _ _, w | .import _ _, w
  | .empty _, w | .error _, w | .for _ _ _ _ _, w => w

def markAlternate : Option Statement → Marker → Marker
  | some alternate, w => markStatement alternate w
  | none, w => w

def markStatements : List Statement → Marker → Marker
  | [], w => w
  | statement :: statements, w => markStatements statements (markStatement statement w)

end

/-- The parameters as variables; as in a hash map the last one of a name counts. -/
def parameterBindings (params : List Parameter) : List Variable :=
  (params.map Parameter.name).zipIdx.reverse

def functionMarks (declaration : FunctionDeclaration) : Marker :=
  markStatements declaration.body
    ⟨[[]], 0, [parameterBindings declaration.params, []], declaration.params.length⟩

def entryMarks (program : Program) : Marker :=
  markStatements (program.body.filter isEntryStatement) ⟨[[]], 0, [[]], 0⟩

def spellings (block : List Mark) : List Spelling := block.map fun mark => mark.use.spelling

/-- Every block has the marks of its instructions with a name, in their order. -/
structure Aligned (s : FunctionLowerer) (w : Marker) : Prop where
  current : w.current = s.currentBlock
  inside : s.currentBlock < s.blocks.length
  blocks : s.blocks.map (fun block => codeSpellings block.instructions) = w.blocks.map spellings

namespace Aligned

variable {s : FunctionLowerer} {w : Marker}

theorem length (h : Aligned s w) : w.blocks.length = s.blocks.length := by
  have hlength := congrArg List.length h.blocks
  rw [List.length_map, List.length_map] at hlength
  exact hlength.symm

theorem leave (h : Aligned s w) (w' : Marker) : Aligned s (w.leave w') :=
  ⟨h.current, h.inside, h.blocks⟩

theorem map_modify {α β : Type} (f : α → β) (g : α → α) (g' : β → β) (hg : ∀ x, f (g x) = g' (f x))
    (xs : List α) (k : ℕ) : (xs.modify k g).map f = (xs.map f).modify k g' := by
  induction xs generalizing k with
  | nil => cases k <;> rfl
  | cons x xs ih =>
    cases k with
    | zero =>
      rw [List.modify_zero_cons, List.map_cons, List.map_cons, List.modify_zero_cons, hg]
    | succ k =>
      rw [List.modify_succ_cons, List.map_cons, List.map_cons, List.modify_succ_cons, ih]

theorem blocks_modify (h : Aligned s w) (code : List IrInstruction) (uses : List Use)
    (hcode : codeSpellings code = uses.map Use.spelling) :
    (s.blocks.modify s.currentBlock fun block =>
        { block with instructions := block.instructions ++ code }).map
        (fun block => codeSpellings block.instructions) =
      (w.add uses).blocks.map spellings := by
  rw [Marker.add, h.current,
    map_modify _ _ (fun names => names ++ codeSpellings code)
      (fun block => codeSpellings_append block.instructions code),
    map_modify spellings _ (fun names => names ++ codeSpellings code), h.blocks]
  intro block
  rw [spellings, spellings, List.map_append, List.map_map, hcode]
  rfl

theorem code (h : Aligned s w) {lowered : StatementCode} {uses : List Use}
    (hcode : codeSpellings lowered.code = uses.map Use.spelling) :
    Aligned (appendStatement lowered s) (w.add uses) where
  current := h.current
  inside := Nat.lt_of_lt_of_eq h.inside (List.length_modify _ _ _).symm
  blocks := h.blocks_modify lowered.code uses hcode

theorem openArms (h : Aligned s w) (test : Expression) :
    Aligned (LoweringBlocks.openArms test s) (w.add (expressionUses test)).openArms where
  current := by
    change (w.add (expressionUses test)).blocks.length = _
    rw [Marker.add, List.length_modify, h.length]
    simp [LoweringBlocks.openArms, lowerExpression_eq, append, FunctionLowerer.enterBlock]
  inside := by
    rw [openArms_length]
    exact Nat.lt_add_of_pos_right (by omega)
  blocks := by
    have htest : codeSpellings (testCode s.locals test s.blocks.length s.nextValue) =
        (expressionUses test).map Use.spelling := by
      rw [testCode, codeSpellings_append, expressionCode_spellings]
      exact List.append_nil _
    rw [openArms_blocks test h.inside, List.map_append, h.blocks_modify _ _ htest, Marker.openArms,
      List.map_append]
    rfl

theorem closeArm (h : Aligned s w) (merge next : ℕ) (hnext : next < s.blocks.length)
    (span : Span) : Aligned (LoweringBlocks.closeArm merge next span s) (w.enter next) where
  current := rfl
  inside := Nat.lt_of_lt_of_eq hnext (closeArm_length merge next span s).symm
  blocks := by
    have hadd := h.blocks_modify [⟨.jump merge, none, .undefined, span⟩] [] rfl
    have hsame : (w.add []).blocks = w.blocks := by
      have hnil : (fun block : List Mark => block ++ []) = id := funext List.append_nil
      rw [Marker.add, List.map_nil, hnil, List.modify_id]
    rw [hsame] at hadd
    exact hadd

end Aligned

theorem optionalUses_scopes (scopes scopes' : Scopes) (expression : Option Expression) :
    optionalUses allUses scopes expression = optionalUses allUses scopes' expression := by
  cases expression <;> rfl

mutual

theorem markStatement_aligned : ∀ (statement : Statement) {s : FunctionLowerer} {w : Marker},
    Aligned s w → Aligned (lowerStatement statement s) (markStatement statement w)
  | .variable declaration span, s, w, h => by
    rw [lowerStatement, lowerVariable_eq, markStatement]
    have hcode := h.code (variableCode_spellings s.locals [] declaration span s.nextValue)
    exact ⟨hcode.current, hcode.inside, hcode.blocks⟩
  | .return value span, s, w, h => by
    rw [lowerStatement, lowerReturn_eq, markStatement]
    exact h.code (returnCode_spellings s.locals [] value span s.nextValue)
  | .throw value span, s, w, h | .expression value span, s, w, h => by
    rw [lowerStatement, lowerExpression_appendStatement, markStatement]
    exact h.code (expressionCode_spellings s.locals value s.nextValue)
  | .if test consequent alternate span, s, w, h => by
    have hopen := h.openArms test
    have hthen := markStatement_aligned consequent hopen
    have hgrows := (lowerStatement_adds consequent [] hopen.inside).grows
    have hlength := openArms_length test s
    have hclose := hthen.closeArm (s.blocks.length + 2) (s.blocks.length + 1) (by omega) span
    have helse := markAlternate_aligned alternate hclose
    have hgrows' := (lowerAlternate_adds alternate [] hclose.inside).grows
    have hlength' := closeArm_length (s.blocks.length + 2) (s.blocks.length + 1) span
      (lowerStatement consequent (openArms test s))
    have hend := helse.closeArm (s.blocks.length + 2) (s.blocks.length + 2) (by omega) span
    rw [lowerStatement_if, markStatement]
    dsimp only
    rw [h.length]
    exact hend
  | .block body span, s, w, h => by
    rw [lowerStatement, markStatement]
    have hbody := markStatements_aligned body (w := { w with scopes := [] :: w.scopes })
      ⟨h.current, h.inside, h.blocks⟩
    exact ⟨hbody.current, hbody.inside, hbody.blocks⟩
  | .while test body span, s, w, h => by
    rw [lowerStatement, markStatement]
    exact h.leave _
  | .export inner span, s, w, h => by
    rw [lowerStatement, markStatement]
    exact markStatement_aligned inner h
  | .interface _ _, _, _, h | .typeAlias _ _, _, _, h | .class _ _, _, _, h
  | .function _ _, _, _, h | .import _ _, _, _, h | .empty _, _, _, h | .error _, _, _, h
  | .for _ _ _ _ _, _, _, h => h

theorem markAlternate_aligned : ∀ (alternate : Option Statement) {s : FunctionLowerer} {w : Marker},
    Aligned s w → Aligned (lowerAlternate alternate s) (markAlternate alternate w)
  | some alternate, _, _, h => markStatement_aligned alternate h
  | none, _, _, h => h

theorem markStatements_aligned : ∀ (statements : List Statement) {s : FunctionLowerer} {w : Marker},
    Aligned s w → Aligned (lowerStatements statements s) (markStatements statements w)
  | [], _, _, h => h
  | statement :: statements, _, _, h =>
    markStatements_aligned statements (markStatement_aligned statement h)

end

theorem new_aligned (name : String) (params : List IrParam) (returnType : IrType) (span : Span)
    (scopes : Bindings) (next : ℕ) :
    Aligned (.new name params returnType span) ⟨[[]], 0, scopes, next⟩ :=
  ⟨rfl, Nat.one_pos, rfl⟩

theorem functionMarks_aligned (declaration : FunctionDeclaration) (span : Span) :
    (lowerFunction declaration span).blocks.map (fun block => codeSpellings block.instructions) =
      (functionMarks declaration).blocks.map spellings :=
  (markStatements_aligned declaration.body (new_aligned _ _ _ _ _ _)).blocks

theorem entryMarks_aligned (program : Program) :
    (lowerProgram program).entry.blocks.map (fun block => codeSpellings block.instructions) =
      (entryMarks program).blocks.map spellings := by
  have hbody := markStatements_aligned (program.body.filter isEntryStatement)
    (new_aligned "__entry" [] .undefined (program.span.getD emptySpan) [[]] 0)
  refine Eq.trans ?_ hbody.blocks
  rw [lowerProgram]
  refine (Aligned.map_modify _ _ id (fun block => ?_) _ _).trans (List.modify_id _ _)
  rw [codeSpellings_append]
  exact List.append_nil _

mutual

theorem markStatement_names : ∀ (statement : Statement) (w : Marker),
    (markStatement statement w).scopes.names = statementScopes statement w.scopes.names
  | .variable declaration span, w => by
    rw [markStatement, statementScopes]
    exact Bindings.names_declare _ _
  | .return _ _, _ | .throw _ _, _ | .expression _ _, _ | .block _ _, _ | .interface _ _, _
  | .typeAlias _ _, _ | .class _ _, _ | .function _ _, _ | .import _ _, _ | .empty _, _
  | .error _, _ | .for _ _ _ _ _, _ => rfl
  | .if test consequent alternate span, w => by
    rw [markStatement, statementScopes]
    have hthen := markStatement_names consequent (w.add (expressionUses test)).openArms
    have helse := markAlternate_names alternate
      ((markStatement consequent (w.add (expressionUses test)).openArms).enter (w.blocks.length + 1))
    rw [Marker.enter, hthen] at helse
    exact helse
  | .while test body span, w => by
    rw [markStatement, statementScopes]
    exact markStatement_names body w
  | .export inner span, w => by
    rw [markStatement, statementScopes]
    exact markStatement_names inner w

theorem markAlternate_names : ∀ (alternate : Option Statement) (w : Marker),
    (markAlternate alternate w).scopes.names = alternateScopes alternate w.scopes.names
  | some alternate, w => markStatement_names alternate w
  | none, _ => rfl

end

/-- The marks of these sites are made on the way from `w` to `w'`. -/
structure Marks (w w' : Marker) (sites : List Site) : Prop where
  current : w'.current < w'.blocks.length
  grows : w.blocks.length ≤ w'.blocks.length
  sites : (w'.blocks.flatten.map Mark.site).Perm (w.blocks.flatten.map Mark.site ++ sites)

namespace Marks

variable {w w' w'' : Marker} {sites sites' : List Site}

theorem refl (h : w.current < w.blocks.length) : Marks w w [] :=
  ⟨h, Nat.le_refl _, by rw [List.append_nil]⟩

theorem trans (h : Marks w w' sites) (h' : Marks w' w'' sites') : Marks w w'' (sites ++ sites') where
  current := h'.current
  grows := Nat.le_trans h.grows h'.grows
  sites := by
    rw [← List.append_assoc]
    exact h'.sites.trans (h.sites.append_right sites')

theorem flatten_modify {blocks : List (List Mark)} {current : ℕ} (h : current < blocks.length)
    (marks : List Mark) :
    ((blocks.modify current fun block => block ++ marks).flatten).Perm (blocks.flatten ++ marks) := by
  induction blocks generalizing current with
  | nil => cases h
  | cons block blocks ih =>
    cases current with
    | zero =>
      simp only [List.modify_zero_cons, List.flatten_cons, List.append_assoc]
      exact List.perm_append_comm.append_left _
    | succ current =>
      simp only [List.modify_succ_cons, List.flatten_cons, List.append_assoc]
      exact (ih (Nat.lt_of_succ_lt_succ h)).append_left _

theorem add (h : w.current < w.blocks.length) (uses : List Use) :
    Marks w (w.add uses) (sitesIn w.scopes.names uses) where
  current := Nat.lt_of_lt_of_eq h (List.length_modify _ _ _).symm
  grows := Nat.le_of_eq (List.length_modify _ _ _).symm
  sites := by
    have hadded := (flatten_modify h (uses.map fun use => ⟨use, w.scopes, w.next⟩)).map Mark.site
    rw [List.map_append, List.map_map] at hadded
    exact hadded

theorem openArms : Marks w w.openArms [] where
  current := by
    rw [Marker.openArms, List.length_append]
    exact Nat.lt_add_of_pos_right (by decide)
  grows := by
    rw [Marker.openArms, List.length_append]
    exact Nat.le_add_right _ _
  sites := by
    rw [Marker.openArms, List.flatten_append, List.append_nil]
    exact .of_eq (congrArg _ (List.append_nil _))

theorem enter (h : Marks w w' sites) {block : ℕ} (hblock : block < w'.blocks.length) :
    Marks w (w'.enter block) sites :=
  ⟨hblock, h.grows, h.sites⟩

end Marks

mutual

theorem markStatement_sites : ∀ (statement : Statement) {w : Marker},
    w.current < w.blocks.length → Marks w (markStatement statement w)
      (statementSites allUses statement w.scopes.names)
  | .variable declaration span, w, h => by
    have hadd := Marks.add h (optionalUses allUses [] declaration.initializer ++
      [.declaration declaration.name])
    rw [markStatement, statementSites, optionalUses_scopes _ []]
    exact ⟨hadd.current, hadd.grows, hadd.sites⟩
  | .return value span, w, h => by
    rw [markStatement, statementSites, optionalUses_scopes _ []]
    exact .add h _
  | .throw value span, w, h | .expression value span, w, h => by
    rw [markStatement, statementSites]
    exact .add h _
  | .if test consequent alternate span, w, h => by
    have htest := (Marks.add h (expressionUses test)).trans .openArms
    have hthen := htest.trans (markStatement_sites consequent htest.current)
    have hlength : (w.add (expressionUses test)).openArms.blocks.length = w.blocks.length + 3 := by
      rw [Marker.openArms, List.length_append, Marker.add, List.length_modify]
      rfl
    have hgrows := (markStatement_sites consequent htest.current).grows
    have hclose := @Marks.enter _ _ _ hthen (w.blocks.length + 1) (by omega)
    have helse := markAlternate_sites alternate hclose.current
    have hgrows' : (markStatement consequent (w.add (expressionUses test)).openArms).blocks.length ≤
      _ := helse.grows
    have hall := @Marks.enter _ _ _ (hclose.trans helse) (w.blocks.length + 2) (by omega)
    have hscopes : ((markStatement consequent (w.add (expressionUses test)).openArms).enter
        (w.blocks.length + 1)).scopes.names = statementScopes consequent w.scopes.names :=
      markStatement_names consequent _
    rw [hscopes, List.append_nil] at hall
    rw [markStatement, statementSites]
    exact hall
  | .block body span, w, h => by
    have hbody := markStatements_sites body (w := { w with scopes := [] :: w.scopes }) h
    rw [markStatement, statementSites]
    exact ⟨hbody.current, hbody.grows, hbody.sites⟩
  | .while test body span, w, h => by
    rw [markStatement, statementSites]
    exact ⟨h, Nat.le_refl _, .of_eq (List.append_nil _).symm⟩
  | .export inner span, w, h => by
    rw [markStatement, statementSites]
    exact markStatement_sites inner h
  | .interface _ _, _, h | .typeAlias _ _, _, h | .class _ _, _, h | .function _ _, _, h
  | .import _ _, _, h | .empty _, _, h | .error _, _, h | .for _ _ _ _ _, _, h => .refl h

theorem markAlternate_sites : ∀ (alternate : Option Statement) {w : Marker},
    w.current < w.blocks.length → Marks w (markAlternate alternate w)
      (alternateSites allUses alternate w.scopes.names)
  | some alternate, _, h => markStatement_sites alternate h
  | none, _, h => .refl h

theorem markStatements_sites : ∀ (statements : List Statement) {w : Marker},
    w.current < w.blocks.length → Marks w (markStatements statements w)
      (statementsSites allUses statements w.scopes.names)
  | [], _, h => .refl h
  | statement :: statements, w, h => by
    have hfirst := markStatement_sites statement h
    have hrest := markStatements_sites statements hfirst.current
    rw [markStatement_names] at hrest
    exact hfirst.trans hrest

end

theorem functionMarks_sites (declaration : FunctionDeclaration) :
    ((functionMarks declaration).blocks.flatten.map Mark.site).Perm
      (functionSites allUses declaration) := by
  have hnames : (parameterBindings declaration.params).map Prod.fst =
      (declaration.params.map Parameter.name).reverse := by
    rw [parameterBindings, List.map_reverse, List.zipIdx_map_fst]
  have hsites := (markStatements_sites declaration.body
    (w := ⟨[[]], 0, [parameterBindings declaration.params, []], declaration.params.length⟩)
    Nat.one_pos).sites
  rw [Bindings.names, List.map_cons, hnames] at hsites
  exact hsites

theorem entryMarks_sites (program : Program) :
    ((entryMarks program).blocks.flatten.map Mark.site).Perm (entrySites allUses program) :=
  (markStatements_sites (program.body.filter isEntryStatement) (w := ⟨[[]], 0, [[]], 0⟩)
    Nat.one_pos).sites

end Tsvm.Variables
