import Tsvm.ModuleLinks
import Tsvm.StatementSequences

set_option autoImplicit false

/-!
# The program of a bundle

The bundler copies the texts of the statements, one in a line, and the bundle is parsed as a
whole. It is the program of the modules exactly when no statement goes on in the next line.
-/
namespace Tsvm.BundledPrograms
open Ast Lexing Modules ModuleLinks ModuleOrder Parsing Grammar StatementSlices

theorem skipTrivia_space {ch : Char} (h : isWhitespace ch = true) (rest : List Char) (p : Position) :
    skipTrivia ⟨ch :: rest, p⟩ = skipTrivia ⟨rest, Lexer.step ch p⟩ := by
  rw [skipTrivia, skipTriviaWithin]
  change (if isWhitespace ch = true then _ else _) = _
  rw [if_pos h]
  rfl

theorem Lexes.after_space {ch : Char} (h : isWhitespace ch = true) {rest : List Char} {p : Position}
    {tokens : List Token} {t u : Lexer} (hlexes : Lexes ⟨rest, Lexer.step ch p⟩ tokens t)
    (htrivia : skipTrivia t = .ok u) :
    ∃ t', Lexes ⟨ch :: rest, p⟩ tokens t' ∧ skipTrivia t' = .ok u := by
  cases hlexes with
  | nil => exact ⟨_, .nil _, (skipTrivia_space h rest p).trans htrivia⟩
  | cons hskip hpeek htoken hrest =>
    exact ⟨t, .cons ((skipTrivia_space h rest p).trans hskip) hpeek htoken hrest, htrivia⟩

theorem erase_tokens (φ : Position → Position) (w : List Token) :
    (w.map (Token.relocate φ)).map (Token.relocate Grammar.erase) = w.map (Token.relocate Grammar.erase) := by
  rw [List.map_map]
  rfl

theorem same_relocate (φ : Position → Position) {w : List Token} {statement : Statement}
    (h : Statements .statement w none statement) : Same (statement.relocate φ) statement := by
  have herased := statements_relocate (φ := Grammar.erase) h
  have hmoved := statements_relocate (φ := Grammar.erase) (statements_relocate (φ := φ) h)
  rw [erase_tokens] at hmoved
  exact (statement_deterministic [] [] hmoved herased rfl).2

def Piece.erase (piece : Piece) : Piece :=
  (piece.1.map (Token.relocate Grammar.erase), piece.2.relocate Grammar.erase)

abbrev Line := List Char × Piece

def Line.Spelled (line : Line) : Prop := Spells line.1 line.2.1 ∧ line.2.Alone

def linesText (lines : List Line) : List Char := lines.flatMap fun line => line.1 ++ ['\n']

theorem lines_lex {lines : List Line} (h : ∀ line ∈ lines, line.Spelled) (p : Position) :
    ∃ pieces t u, Lexes ⟨linesText lines, p⟩ (textOf pieces) t ∧ skipTrivia t = .ok u ∧ u.rest = [] ∧
      (∀ piece ∈ pieces, piece.Alone) ∧
      pieces.map Piece.erase = lines.map fun line => Piece.erase line.2 := by
  induction lines generalizing p with
  | nil => exact ⟨[], _, _, .nil _, skipTrivia_nil rfl, rfl, fun _ hmem => absurd hmem List.not_mem_nil, rfl⟩
  | cons line lines ih =>
    obtain ⟨text, tokens, statement⟩ := line
    obtain ⟨hspells, halone⟩ := h _ List.mem_cons_self
    obtain ⟨t, hlexes, hrest⟩ := hspells.join (stops_newline (linesText lines)) p
    obtain ⟨pieces, t', u, hlexes', htrivia, hend, hpieces, herase⟩ :=
      ih (fun line hmem => h line (List.mem_cons_of_mem _ hmem)) (Lexer.step '\n' t.position)
    obtain ⟨t'', hlexes', htrivia⟩ := Lexes.after_space (by decide) hlexes' htrivia
    have hline : linesText ((text, tokens, statement) :: lines) = text ++ '\n' :: linesText lines := by
      rw [linesText, List.flatMap_cons, List.append_assoc]
      rfl
    have ht : t = ⟨'\n' :: linesText lines, t.position⟩ := by rw [← hrest]
    rw [← ht] at hlexes'
    refine ⟨(tokens.map (Token.relocate (place p)), statement.relocate (place p)) :: pieces, t'', u, ?_,
      htrivia, hend, ?_, ?_⟩
    · rw [hline, textOf_cons]
      exact hlexes.append hlexes'
    · exact List.forall_mem_cons.mpr ⟨statements_relocate (φ := place p) halone, hpieces⟩
    · rw [List.map_cons, List.map_cons, herase, Piece.erase, erase_tokens, same_relocate (place p) halone]
      rfl

def QuietRecord (sources : Sources) (record : ModuleRecord) : Prop :=
  ∀ source, sources[record.specifier]? = some source → (parseSource source).diagnostics = []

/-- While nothing is reported, the sources of the recorded modules are quiet. -/
def Quiet (sources : Sources) (s : GraphBuilder) : Prop :=
  s.diagnostics = [] → ∀ (module : String) (record : ModuleRecord), s.records[module]? = some record →
    QuietRecord sources record

section Quiet

variable {sources : Sources}

theorem Quiet.diagnostic {s : GraphBuilder} (code : ModuleDiagnosticCode) (message module : String) :
    Quiet sources (s.diagnostic code message module) :=
  fun hclean => absurd (List.append_eq_nil_iff.mp hclean).2 (List.cons_ne_nil _ _)

theorem diagnostics_parseDiagnostics {module : String} {diagnostics : List ParseDiagnostic}
    {s : GraphBuilder} (h : (s.parseDiagnostics module diagnostics).diagnostics = []) :
    diagnostics = [] := by
  cases diagnostics with
  | nil => rfl
  | cons diagnostic diagnostics =>
    have hgrows := parseDiagnostics_grows module diagnostics
      (s.diagnostic .parse diagnostic.message module)
    change _ <+: (s.parseDiagnostics module (diagnostic :: diagnostics)).diagnostics at hgrows
    rw [h, List.prefix_nil] at hgrows
    exact absurd (List.append_eq_nil_iff.mp hgrows).2 (List.cons_ne_nil _ _)

theorem visit_quiet {depth : ℕ} {module : String} {s s' : GraphBuilder}
    (h : visit sources depth module s = some s') (hs : Quiet sources s) : Quiet sources s' := by
  induction depth generalizing module s s' with
  | zero => cases h
  | succ depth ih =>
    rw [visit] at h
    cases hstate : s.states[module]? with
    | some state =>
      cases state with
      | visited =>
        simp only [hstate, Option.some.injEq] at h
        subst h
        exact hs
      | visiting =>
        simp only [hstate, Option.some.injEq] at h
        subst h
        exact fun hclean => absurd (List.append_eq_nil_iff.mp hclean).2 (List.cons_ne_nil _ _)
    | none =>
      cases hsource : sources[module]? with
      | none =>
        simp only [hstate, hsource, Option.some.injEq] at h
        subst h
        exact .diagnostic _ _ _
      | some source =>
        simp only [hstate, hsource, Option.bind_eq_bind] at h
        obtain ⟨⟨record, t⟩, hbody, hleave⟩ := Option.bind_eq_some_iff.mp h
        have hs' : t.leave record = s' := Option.some.inj hleave
        subst hs'
        intro hclean
        have hgrows : ∀ other s s', visit sources depth other s = some s' →
            s.diagnostics <+: s'.diagnostics := fun _ _ _ => visit_grows
        have hparsed := visitBody_grows hgrows hbody
        rw [show t.diagnostics = [] from hclean, List.prefix_nil] at hparsed
        have hquiet := diagnostics_parseDiagnostics hparsed
        rw [parseDiagnostics_clean hparsed] at hbody
        have hloop : Quiet sources t :=
          visitBody_keeps (fun _ _ _ _ _ => .diagnostic _ _ _) (fun _ _ _ => ih) hbody hs
        refine records_leave (hloop hclean) fun source' hsource' => ?_
        rw [(visitBody_record hbody).1, hsource, Option.some_inj] at hsource'
        rw [← hsource', hquiet]

end Quiet

theorem bundleModuleGraph_quiet {entry : String} {sources : Sources} {graph : ModuleGraph}
    (h : bundleModuleGraph entry sources = .ok graph) {record : ModuleRecord}
    (hmem : record ∈ graph.modules) {source : String} (hsource : sources[record.specifier]? = some source) :
    (parseSource source).diagnostics = [] := by
  unfold bundleModuleGraph at h
  simp only at h
  split at h
  · rename_i hclean
    have hsearch := visit_quiet (visit_search sources (normalizeEntry entry))
      (fun _ _ _ hrecord => by cases hrecord) (List.isEmpty_iff.mp hclean)
    rw [← Except.ok.inj h] at hmem
    obtain ⟨module, _, hrecord⟩ := List.mem_filterMap.mp hmem
    exact hsearch module record hrecord source hsource
  · cases h

abbrev Copy := String × Statement

def copiedStatement : Statement → Option Statement
  | .import _ _ => none
  | statement => some (unexported statement)

def moduleCopies (sources : Sources) (record : ModuleRecord) : List Copy :=
  match sources[record.specifier]? with
  | none => []
  | some source =>
    ((parseSource source).program.body.filterMap copiedStatement).map fun statement => (source, statement)

def copies (sources : Sources) (modules : List ModuleRecord) : List Copy :=
  modules.flatMap (moduleCopies sources)

/-- The bundle has no diagnostics and has the statements of the modules, wherever they stand. -/
def Preserves (sources : Sources) (graph : ModuleGraph) : Prop :=
  (parseSource graph.bundledSource).diagnostics = [] ∧
    (parseSource graph.bundledSource).program.body.map (Statement.relocate Grammar.erase) =
      (copies sources graph.modules).map fun copy => copy.2.relocate Grammar.erase

def Copy.piece (copy : Copy) : Piece := (sliceTokens copy.1 copy.2.span, copy.2)

/-- The slice ends with a semicolon, or the next one does not go on it. -/
def LinesApart (sources : Sources) (graph : ModuleGraph) : Prop :=
  ((copies sources graph.modules).map Copy.piece).IsChain Piece.Apart

def Copy.line (copy : Copy) : Line :=
  ((getBytes copy.1 copy.2.span.start.byte copy.2.span.end.byte).getD [],
    sliceTokens copy.1 copy.2.span, copy.2.relocate (unplace copy.2.span.start))

structure Copy.Known (copy : Copy) : Prop where
  spelled : copy.line.Spelled
  source : statementSource copy.1 copy.2 = String.ofList (copy.line.1 ++ ['\n'])
  erased : Piece.erase copy.line.2 = Piece.erase copy.piece

theorem copy_known {source : String} (hquiet : (parseSource source).diagnostics = [])
    {statement : Statement} (hmem : statement ∈ (parseSource source).program.body)
    (halone : ParsesAlone source (unexported statement)) : Copy.Known (source, unexported statement) := by
  obtain ⟨_, _, _, _, text, parts, _, hslice⟩ := statement_slice hquiet hmem
  have hmid := hslice.parsesAlone_iff.mp halone
  have hparts := statements_relocate (φ := unplace (unexported statement).span.start) hmid
  rw [← hslice.here] at hparts
  have htext : (Copy.line (source, unexported statement)).1 = text := by
    rw [Copy.line, hslice.slice]
    rfl
  have htokens : (Copy.line (source, unexported statement)).2.1 = parts := hslice.eq
  refine ⟨⟨?_, ?_⟩, ?_, ?_⟩
  · rw [htext, htokens]
    exact hslice.spells
  · change Statements .statement (sliceTokens source (unexported statement).span) none _
    rw [hslice.eq]
    exact hparts
  · rw [htext, statementSource, hslice.slice]
    simp only [hslice.trimmed]
  · rw [Piece.erase, Piece.erase, show (Copy.line (source, unexported statement)).2.2 =
      (unexported statement).relocate (unplace (unexported statement).span.start) from rfl,
      same_relocate _ hmid]
    rfl

theorem linesText_append (lines lines' : List Line) :
    linesText (lines ++ lines') = linesText lines ++ linesText lines' := List.flatMap_append

theorem bundledStatement_copied (source : String) (statement : Statement) :
    bundledStatement source statement =
      ((copiedStatement statement).map (statementSource source)).getD "" := by
  cases statement <;> rfl

theorem statements_text {source : String} {body : List Statement}
    (h : ∀ statement ∈ body.filterMap copiedStatement, Copy.Known (source, statement)) :
    (String.join (body.map (bundledStatement source))).toList =
      linesText (((body.filterMap copiedStatement).map fun statement => (source, statement)).map
        Copy.line) := by
  induction body with
  | nil => rfl
  | cons statement body ih =>
    rw [List.map_cons, String.join_cons, String.toList_append, bundledStatement_copied]
    cases hcopied : copiedStatement statement with
    | none =>
      rw [List.filterMap_cons_none hcopied] at h ⊢
      rw [ih h]
      rfl
    | some copied =>
      rw [List.filterMap_cons_some hcopied] at h ⊢
      have hknown := h copied List.mem_cons_self
      rw [ih fun statement hmem => h statement (List.mem_cons_of_mem _ hmem)]
      simp only [Option.map_some, Option.getD_some]
      rw [show statementSource source copied = _ from hknown.source, String.toList_ofList]
      rfl

theorem bundleModule_text {sources : Sources} {record : ModuleRecord}
    (h : ∀ copy ∈ moduleCopies sources record, copy.Known) :
    (bundleModule sources record).toList = linesText ((moduleCopies sources record).map Copy.line) := by
  rw [bundleModule]
  rw [moduleCopies] at h ⊢
  cases hsource : sources[record.specifier]? with
  | none => rfl
  | some source =>
    simp only [hsource] at h ⊢
    exact statements_text fun statement hmem => h _ (List.mem_map_of_mem hmem)

theorem bundle_text {sources : Sources} {modules : List ModuleRecord}
    (h : ∀ copy ∈ copies sources modules, copy.Known) :
    (bundle sources modules).toList = linesText ((copies sources modules).map Copy.line) := by
  induction modules with
  | nil => rfl
  | cons record modules ih =>
    rw [copies, List.flatMap_cons] at h ⊢
    have hrest := ih fun copy hmem => h copy (List.mem_append_right _ hmem)
    have hrecord := bundleModule_text fun copy hmem => h copy (List.mem_append_left _ hmem)
    rw [bundle, List.map_cons, String.join_cons, String.toList_append, List.map_append, linesText_append,
      hrecord, ← copies, ← hrest]
    rfl

theorem open_relocate (φ : Position → Position) (w : List Token) :
    Open (w.map (Token.relocate φ)) ↔ Open w := by
  constructor
  · intro h token hlast
    refine h (token.relocate φ) ?_
    rw [List.getLast?_map, hlast]
    rfl
  · intro h token hlast
    rw [List.getLast?_map] at hlast
    obtain ⟨last, hend, rfl⟩ := Option.map_eq_some_iff.mp hlast
    exact h last hend

section Endings

variable (φ : Position → Position)

theorem variableEnding_relocate (declaration : VariableDeclaration) :
    variableEnding (declaration.relocate φ) = variableEnding declaration := by
  obtain ⟨kind, name, ty, initializer⟩ := declaration
  cases initializer with
  | some value => rfl
  | none => cases ty <;> rfl

mutual

theorem ending_relocate : ∀ statement : Statement, ending (statement.relocate φ) = ending statement
  | .import _ _ | .interface _ _ | .typeAlias _ _ | .class _ _ | .function _ _ | .throw _ _
  | .block _ _ | .expression _ _ | .empty _ | .error _ | .return none _ | .return (some _) _ => rfl
  | .export inner _ => by rw [Statement.relocate, ending, ending_relocate inner, ending]
  | .variable declaration _ => by
    rw [Statement.relocate, ending, variableEnding_relocate φ declaration, ending]
  | .if _ consequent alternate _ => by
    rw [Statement.relocate, ending, ending_relocate consequent, endingOr_relocate alternate, ending]
  | .while _ body _ => by rw [Statement.relocate, ending, ending_relocate body, ending]
  | .for _ _ _ body _ => by rw [Statement.relocate, ending, ending_relocate body, ending]

theorem endingOr_relocate {fallback : Ending} : ∀ alternate : Option Statement,
    endingOr fallback (relocateOption φ alternate) = endingOr fallback alternate
  | none => rfl
  | some alternate => by rw [relocateOption, endingOr, ending_relocate alternate, endingOr]

end

end Endings

theorem apart_erase (piece piece' : Piece) :
    (Piece.erase piece).Apart (Piece.erase piece') ↔ piece.Apart piece' := by
  rw [Piece.Apart, Piece.erase, Piece.erase, open_relocate, kindOf_relocate, ending_relocate, Piece.Apart]

theorem isChain_erase (pieces : List Piece) :
    (pieces.map Piece.erase).IsChain Piece.Apart ↔ pieces.IsChain Piece.Apart := by
  rw [List.isChain_map]
  simp only [apart_erase]

theorem map_eq_iff_same {body body' : List Statement} :
    body'.map (Statement.relocate Grammar.erase) = body.map (Statement.relocate Grammar.erase) ↔
      List.Forall₂ Same body body' := by
  rw [eq_comm, ← List.forall₂_eq_eq_eq, List.forall₂_map_left_iff, List.forall₂_map_right_iff]
  rfl

theorem parseSource_iff_pieces {source : String} {lines : List Line}
    (htext : source.toList = linesText lines) (hlines : ∀ line ∈ lines, line.Spelled) :
    ((parseSource source).diagnostics = [] ∧
      (parseSource source).program.body.map (Statement.relocate Grammar.erase) =
        lines.map fun line => line.2.2.relocate Grammar.erase) ↔
      (lines.map Prod.snd).IsChain Piece.Apart := by
  obtain ⟨pieces, t, u, hlexes, htrivia, hend, halone, herase⟩ := lines_lex hlines origin
  have hlex : lex source = .ok (textOf pieces) := by
    refine (lex_iff _ _).mpr ⟨t, u, ?_, htrivia, hend⟩
    rw [Lexer.new, htext]
    exact hlexes
  have hstatements : (lines.map fun line => line.2.2.relocate Grammar.erase) =
      (pieces.map Prod.snd).map (Statement.relocate Grammar.erase) := by
    have hsecond := congrArg (List.map Prod.snd) herase
    rw [List.map_map, List.map_map] at hsecond
    rw [List.map_map]
    exact hsecond.symm
  have hchain : (lines.map Prod.snd).IsChain Piece.Apart ↔ pieces.IsChain Piece.Apart := by
    rw [← isChain_erase, ← isChain_erase pieces, herase, List.map_map]
    rfl
  rw [hchain, ← textOf_iff_apart halone, hstatements, map_eq_iff_same, parseSource_of_lex hlex]
  constructor
  · rintro ⟨hclean, hsame⟩
    exact ⟨_, (parseProgram_iff _ _).mp ⟨hclean, rfl⟩, hsame⟩
  · rintro ⟨body, hbody, hsame⟩
    obtain ⟨hclean, rfl⟩ := (parseProgram_iff _ _).mpr hbody
    exact ⟨hclean, hsame⟩

/-- The slice of each statement of the modules is the statement. -/
def SlicesParse (sources : Sources) (graph : ModuleGraph) : Prop :=
  ∀ record ∈ graph.modules, ∀ source, sources[record.specifier]? = some source →
    ∀ statement ∈ (parseSource source).program.body, ParsesAlone source (unexported statement)

theorem copies_known {entry : String} {sources : Sources} {graph : ModuleGraph}
    (h : bundleModuleGraph entry sources = .ok graph)
    (halone : SlicesParse sources graph) :
    ∀ copy ∈ copies sources graph.modules, copy.Known := by
  intro copy hmem
  obtain ⟨record, hrecord, hcopy⟩ := List.mem_flatMap.mp hmem
  rw [moduleCopies] at hcopy
  cases hsource : sources[record.specifier]? with
  | none =>
    rw [hsource] at hcopy
    exact absurd hcopy List.not_mem_nil
  | some source =>
    simp only [hsource] at hcopy
    obtain ⟨copied, hcopied, rfl⟩ := List.mem_map.mp hcopy
    obtain ⟨statement, hstatement, hcopied⟩ := List.mem_filterMap.mp hcopied
    have hsame : copied = unexported statement := by
      cases statement with
      | «import» => cases hcopied
      | _ => exact (Option.some_inj.mp hcopied).symm
    rw [hsame]
    exact copy_known (bundleModuleGraph_quiet h hrecord hsource) hstatement
      (halone record hrecord source hsource statement hstatement)

theorem bundledSource_eq {entry : String} {sources : Sources} {graph : ModuleGraph}
    (h : bundleModuleGraph entry sources = .ok graph) :
    graph.bundledSource = bundle sources graph.modules := by
  unfold bundleModuleGraph at h
  simp only at h
  split at h
  · rw [← Except.ok.inj h]
  · cases h

/-- The bundle of statements whose slices are these statements is the program exactly when no
slice goes on in the next line. -/
theorem bundleModuleGraph_preserves_iff {entry : String} {sources : Sources} {graph : ModuleGraph}
    (h : bundleModuleGraph entry sources = .ok graph)
    (halone : SlicesParse sources graph) :
    Preserves sources graph ↔ LinesApart sources graph := by
  have hknown := copies_known h halone
  have htext : graph.bundledSource.toList = linesText ((copies sources graph.modules).map Copy.line) := by
    rw [bundledSource_eq h, bundle_text hknown]
  have hspelled : ∀ line ∈ (copies sources graph.modules).map Copy.line, line.Spelled := by
    intro line hline
    obtain ⟨copy, hcopy, rfl⟩ := List.mem_map.mp hline
    exact (hknown copy hcopy).spelled
  have herased : ((copies sources graph.modules).map fun copy => Piece.erase copy.line.2) =
      (copies sources graph.modules).map fun copy => Piece.erase copy.piece :=
    List.map_congr_left fun copy hcopy => (hknown copy hcopy).erased
  have hpieces := parseSource_iff_pieces htext hspelled
  have hstatements : (((copies sources graph.modules).map Copy.line).map fun line =>
      line.2.2.relocate Grammar.erase) =
        (copies sources graph.modules).map fun copy => copy.2.relocate Grammar.erase := by
    have hsecond := congrArg (List.map Prod.snd) herased
    rw [List.map_map, List.map_map] at hsecond
    rw [List.map_map]
    exact hsecond
  rw [hstatements] at hpieces
  rw [Preserves, hpieces, LinesApart, ← isChain_erase, ← isChain_erase ((copies _ _).map Copy.piece)]
  simp only [List.map_map]
  exact iff_of_eq (congrArg (List.IsChain Piece.Apart) herased)

/-- No span of a copied statement cuts a pair of parentheses. -/
def SpansKept (sources : Sources) (graph : ModuleGraph) : Prop :=
  ∀ record ∈ graph.modules, ∀ source ∈ sources[record.specifier]?,
    ∀ statement ∈ (parseSource source).program.body, KeepsPairs source (unexported statement)

instance (sources : Sources) (graph : ModuleGraph) : Decidable (SpansKept sources graph) :=
  inferInstanceAs (Decidable (∀ record ∈ graph.modules, ∀ source ∈ sources[record.specifier]?,
    ∀ statement ∈ (parseSource source).program.body, KeepsPairs source (unexported statement)))

theorem SpansKept.slicesParse {entry : String} {sources : Sources} {graph : ModuleGraph}
    (hkept : SpansKept sources graph) (h : bundleModuleGraph entry sources = .ok graph) :
    SlicesParse sources graph := by
  intro record hrecord source hsource statement hmem
  exact parsesAlone_of_keepsPairs (bundleModuleGraph_quiet h hrecord hsource) hmem
    (hkept record hrecord source hsource statement hmem)

theorem diamond_preserves_iff : ∃ graph, bundleModuleGraph "main.ts" diamond = .ok graph ∧
    (Preserves diamond graph ↔ LinesApart diamond graph) := by
  have hgraph : ((bundleModuleGraph "main.ts" diamond).toOption.map fun graph =>
      decide (SpansKept diamond graph)) = some true := by decide +kernel
  cases hbundle : bundleModuleGraph "main.ts" diamond with
  | error diagnostics =>
    rw [hbundle] at hgraph
    cases hgraph
  | ok graph =>
    rw [hbundle] at hgraph
    have hkept : SpansKept diamond graph := of_decide_eq_true (Option.some_inj.mp hgraph)
    exact ⟨graph, rfl, bundleModuleGraph_preserves_iff hbundle (hkept.slicesParse hbundle)⟩

/-- A statement that is read as the right side of the one in the line above. -/
def joined : Sources := .ofList [("/main.ts", "a; -b;")]

theorem joined_lost : ¬∀ entry sources graph, bundleModuleGraph entry sources = .ok graph →
    SlicesParse sources graph → Preserves sources graph := by
  intro hpreserves
  have hgraph : ((bundleModuleGraph "main.ts" joined).toOption.map fun graph =>
      (decide (SpansKept joined graph), (parseSource graph.bundledSource).program.body.length,
        (copies joined graph.modules).length)) = some (true, 1, 2) := by decide +kernel
  cases hbundle : bundleModuleGraph "main.ts" joined with
  | error diagnostics =>
    rw [hbundle] at hgraph
    cases hgraph
  | ok graph =>
    rw [hbundle] at hgraph
    obtain ⟨hkept, hlengths⟩ := Prod.mk.inj (Option.some_inj.mp hgraph)
    obtain ⟨hbody, hcopies⟩ := Prod.mk.inj hlengths
    have hkept : SpansKept joined graph := of_decide_eq_true hkept
    obtain ⟨_, hsame⟩ := hpreserves "main.ts" joined graph hbundle (hkept.slicesParse hbundle)
    have hlength := congrArg List.length hsame
    rw [List.length_map, List.length_map, hbody, hcopies] at hlength
    omega

end Tsvm.BundledPrograms
