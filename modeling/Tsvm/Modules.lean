import Std.Data.TreeMap.Lemmas
import Tsvm.Parsing

set_option autoImplicit false

/-!
# The module graph

A depth-first search over the imports of a finite map of sources. A recursive
call has a source key less to visit, so the number of keys bounds the recursion.
-/
namespace Tsvm.Modules
open Ast Lexing Parsing

structure ResolvedImport where
  names : List String
  «from» : String
  resolved : String
  deriving Repr, DecidableEq

structure ModuleRecord where
  specifier : String
  imports : List ResolvedImport
  exports : List String
  deriving Repr, DecidableEq

structure ModuleGraph where
  entry : String
  modules : List ModuleRecord
  bundledSource : String
  deriving Repr, DecidableEq

inductive VisitState where
  | visiting
  | visited
  deriving Repr, DecidableEq

abbrev Sources := Std.TreeMap String String

/-- The `stack` has the innermost module last. -/
structure GraphBuilder where
  states : Std.TreeMap String VisitState
  records : Std.TreeMap String ModuleRecord
  order : List String
  stack : List String
  diagnostics : List ModuleDiagnostic

def splitSlash (text : String) : List String := (text.toList.splitOn '/').map String.ofList

def pushPart (parts : List String) (part : String) : List String :=
  if part = "." ∨ part = "" then parts
  else if part = ".." then parts.dropLast
  else parts ++ [part]

def joinPath (base path : String) : String :=
  let parts := ((splitSlash base).filter fun part => part ≠ "").dropLast
  "/" ++ "/".intercalate ((splitSlash path).foldl pushPart parts)

def hasPrefix (start text : String) : Bool := start.toList.isPrefixOf text.toList

def hasSuffix (stop text : String) : Bool := stop.toList.isSuffixOf text.toList

def resolveImport (fromModule : String) (declaration : ImportDeclaration) : Except String String :=
  if !(hasPrefix "./" declaration.from || hasPrefix "../" declaration.from) then
    .error s!"unsupported module specifier `{declaration.from}`; only local relative TypeScript modules are allowed"
  else if !hasSuffix ".ts" declaration.from then
    .error s!"unsupported module specifier `{declaration.from}`; local module specifiers must end in `.ts`"
  else .ok (joinPath fromModule declaration.from)

def normalizeEntry (entry : String) : String := if hasPrefix "/" entry then entry else "/" ++ entry

def exportName : Statement → Option String
  | .interface item _ => some item.name
  | .typeAlias item _ => some item.name
  | .class item _ => some item.name
  | .function item _ => some item.name
  | .variable item _ => some item.name
  | _ => none

namespace GraphBuilder

def new : GraphBuilder := ⟨∅, ∅, [], [], []⟩

def diagnostic (code : ModuleDiagnosticCode) (message module : String) (s : GraphBuilder) :
    GraphBuilder :=
  { s with diagnostics := s.diagnostics ++ [⟨code, message, module, [module]⟩] }

def reportCycle (module : String) (s : GraphBuilder) : GraphBuilder :=
  let start := (s.stack.idxOf? module).getD 0
  let cycle := s.stack.drop start ++ [module]
  { s with diagnostics := s.diagnostics ++
      [⟨.cycle, "module cycle detected: " ++ " -> ".intercalate cycle, module, cycle⟩] }

def enter (module : String) (s : GraphBuilder) : GraphBuilder :=
  { s with states := s.states.insert module .visiting, stack := s.stack ++ [module] }

def parseDiagnostics (module : String) (diagnostics : List ParseDiagnostic) (s : GraphBuilder) :
    GraphBuilder :=
  diagnostics.foldl (fun s diagnostic => s.diagnostic .parse diagnostic.message module) s

def leave (record : ModuleRecord) (s : GraphBuilder) : GraphBuilder :=
  { s with
    stack := s.stack.dropLast
    states := s.states.insert record.specifier .visited
    records := s.records.insert record.specifier record
    order := s.order ++ [record.specifier] }

end GraphBuilder

/-- The loop over the statements of a module, which collects its record. -/
def visitBody (visit : String → GraphBuilder → Option GraphBuilder) :
    List Statement → ModuleRecord → GraphBuilder → Option (ModuleRecord × GraphBuilder)
  | [], record, s => some (record, s)
  | statement :: body, record, s =>
    match statement with
    | .import declaration _ =>
      match resolveImport record.specifier declaration with
      | .ok resolved => do
        let s ← visit resolved s
        visitBody visit body { record with
          imports := record.imports ++ [⟨declaration.names, declaration.from, resolved⟩] } s
      | .error message =>
        visitBody visit body record (s.diagnostic .unsupportedSpecifier message record.specifier)
    | .export inner _ =>
      visitBody visit body
        { record with exports := record.exports ++ (exportName inner).toList } s
    | _ => visitBody visit body record s

section Search

variable (sources : Sources)

/-- `none` is a recursion deeper than the budget. -/
def visit : ℕ → String → GraphBuilder → Option GraphBuilder
  | 0, _, _ => none
  | depth + 1, module, s =>
    match s.states[module]? with
    | some .visited => some s
    | some .visiting => some (s.reportCycle module)
    | none =>
      match sources[module]? with
      | none => some (s.diagnostic .missingModule s!"module `{module}` was not provided" module)
      | some source => do
        let parsed := parseSource source
        let s := (s.enter module).parseDiagnostics module parsed.diagnostics
        let (record, s) ← visitBody (visit depth) parsed.program.body ⟨module, [], []⟩ s
        pure (s.leave record)

end Search

section Termination

variable {sources : Sources}

def unvisited (sources : Sources) (s : GraphBuilder) : ℕ :=
  sources.keys.countP fun key => decide (key ∉ s.states)

def Knows (s s' : GraphBuilder) : Prop := ∀ module, module ∈ s.states → module ∈ s'.states

theorem unvisited_le {s s' : GraphBuilder} (h : Knows s s') :
    unvisited sources s' ≤ unvisited sources s := by
  refine List.countP_mono_left fun key _ hkey => ?_
  exact decide_eq_true fun hmem => of_decide_eq_true hkey (h key hmem)

theorem countP_lt {p q : String → Bool} {keys : List String} {key : String} (hmem : key ∈ keys)
    (himp : ∀ key ∈ keys, p key = true → q key = true) (hp : p key = false) (hq : q key = true) :
    keys.countP p < keys.countP q := by
  obtain ⟨before, after, rfl⟩ := List.append_of_mem hmem
  have hbefore : before.countP p ≤ before.countP q :=
    List.countP_mono_left fun x hx => himp x (List.mem_append_left _ hx)
  have hafter : after.countP p ≤ after.countP q :=
    List.countP_mono_left fun x hx => himp x (List.mem_append_right _ (List.mem_cons_of_mem _ hx))
  rw [List.countP_append, List.countP_append, List.countP_cons_of_pos hq,
    List.countP_cons_of_neg (by rw [hp]; exact Bool.false_ne_true)]
  omega

theorem knows_enter (module : String) (s : GraphBuilder) : Knows s (s.enter module) :=
  fun _ hmem => Std.TreeMap.mem_insert.mpr (.inr hmem)

theorem unvisited_enter {s : GraphBuilder} {module : String} (hsource : module ∈ sources)
    (hnew : module ∉ s.states) : unvisited sources (s.enter module) < unvisited sources s := by
  refine countP_lt (Std.TreeMap.mem_keys.mpr hsource) (fun key _ hkey => ?_)
    (decide_eq_false fun h => h Std.TreeMap.mem_insert_self) (decide_eq_true hnew)
  exact decide_eq_true fun hmem => of_decide_eq_true hkey (knows_enter module s key hmem)

theorem states_parseDiagnostics (module : String) (diagnostics : List ParseDiagnostic)
    (s : GraphBuilder) :
    (s.parseDiagnostics module diagnostics).states = s.states := by
  induction diagnostics generalizing s with
  | nil => rfl
  | cons diagnostic diagnostics ih => exact ih _

theorem visitBody_isSome {visit : String → GraphBuilder → Option GraphBuilder} {bound : ℕ}
    (hvisit : ∀ module s, unvisited sources s < bound →
      ∃ s', visit module s = some s' ∧ Knows s s')
    (body : List Statement) (record : ModuleRecord) (s : GraphBuilder)
    (hbound : unvisited sources s < bound) :
    ∃ record' s', visitBody visit body record s = some (record', s') ∧ Knows s s' := by
  induction body generalizing record s with
  | nil => exact ⟨record, s, rfl, fun _ hmem => hmem⟩
  | cons statement body ih =>
    cases statement with
    | «import» declaration span =>
      cases hresolve : resolveImport record.specifier declaration with
      | error message =>
        obtain ⟨record', s', hbody, hknows⟩ :=
          ih record (s.diagnostic .unsupportedSpecifier message record.specifier) hbound
        refine ⟨record', s', ?_, hknows⟩
        rw [visitBody]
        simp only [hresolve]
        exact hbody
      | ok resolved =>
        obtain ⟨t, hcall, hknown⟩ := hvisit resolved s hbound
        have hless := @unvisited_le sources _ _ hknown
        obtain ⟨record', s', hbody, hknows⟩ := ih { record with
          imports := record.imports ++ [⟨declaration.names, declaration.from, resolved⟩] } t (by omega)
        refine ⟨record', s', ?_, fun module hmem => hknows module (hknown module hmem)⟩
        rw [visitBody]
        simp only [hresolve, hcall, Option.bind_eq_bind, Option.bind_some]
        exact hbody
    | «export» inner span => exact ih _ s hbound
    | _ => exact ih record s hbound

/-- A budget of one more than the unvisited keys is enough. -/
theorem visit_isSome {depth : ℕ} (module : String) (s : GraphBuilder)
    (hdepth : unvisited sources s < depth) :
    ∃ s', visit sources depth module s = some s' ∧ Knows s s' := by
  induction depth generalizing module s with
  | zero => exact absurd hdepth (Nat.not_lt_zero _)
  | succ depth ih =>
    rw [visit]
    cases hstate : s.states[module]? with
    | some state =>
      cases state with
      | visited => exact ⟨s, rfl, fun _ hmem => hmem⟩
      | visiting => exact ⟨s.reportCycle module, rfl, fun _ hmem => hmem⟩
    | none =>
      cases hsource : sources[module]? with
      | none => exact ⟨_, rfl, fun _ hmem => hmem⟩
      | some source =>
        have hmem : module ∈ sources := Std.TreeMap.mem_iff_isSome_getElem?.mpr (by rw [hsource]; rfl)
        have hnew : module ∉ s.states := fun hmem => by
          have := Std.TreeMap.mem_iff_isSome_getElem?.mp hmem
          rw [hstate] at this
          exact Bool.false_ne_true this
        have hless := unvisited_enter hmem hnew
        have hparsed := states_parseDiagnostics module (parseSource source).diagnostics
          (s.enter module)
        have hbound : unvisited sources ((s.enter module).parseDiagnostics module
            (parseSource source).diagnostics) < depth := by
          rw [unvisited, hparsed]
          change unvisited sources (s.enter module) < depth
          omega
        obtain ⟨record, t, hbody, hknows⟩ :=
          visitBody_isSome ih (parseSource source).program.body ⟨module, [], []⟩ _ hbound
        refine ⟨t.leave record, ?_, fun other hother => ?_⟩
        · simp only [hbody, Option.bind_eq_bind, Option.bind_some, Option.pure_def]
        · refine Std.TreeMap.mem_insert.mpr (.inr (hknows other ?_))
          rw [hparsed]
          exact knows_enter module s other hother

theorem unvisited_le_size (s : GraphBuilder) : unvisited sources s ≤ sources.size := by
  rw [← Std.TreeMap.length_keys]
  exact List.countP_le_length

end Termination

/-- The characters after the first `n` bytes, if these end at a character. -/
def dropBytes : ℕ → List Char → Option (List Char)
  | 0, text => some text
  | _ + 1, [] => none
  | n + 1, ch :: text => if ch.utf8Size ≤ n + 1 then dropBytes (n + 1 - ch.utf8Size) text else none

def takeBytes : ℕ → List Char → Option (List Char)
  | 0, _ => some []
  | _ + 1, [] => none
  | n + 1, ch :: text =>
    if ch.utf8Size ≤ n + 1 then (takeBytes (n + 1 - ch.utf8Size) text).map (ch :: ·) else none

/-- `source.get(start..end)`. -/
def getBytes (source : String) (start stop : ℕ) : Option (List Char) :=
  if start ≤ stop then (dropBytes start source.toList).bind (takeBytes (stop - start)) else none

def trim (text : List Char) : List Char :=
  ((text.dropWhile isWhitespace).reverse.dropWhile isWhitespace).reverse

def statementSource (source : String) (statement : Statement) : String :=
  match getBytes source statement.span.start.byte statement.span.end.byte with
  | some slice => String.ofList (trim slice ++ ['\n'])
  | none => ""

def bundledStatement (source : String) : Statement → String
  | .import _ _ => ""
  | .export inner _ => statementSource source inner
  | statement => statementSource source statement

def bundleModule (sources : Sources) (record : ModuleRecord) : String :=
  match sources[record.specifier]? with
  | none => ""
  | some source => String.join ((parseSource source).program.body.map (bundledStatement source))

def bundle (sources : Sources) (modules : List ModuleRecord) : String :=
  String.join (modules.map (bundleModule sources))

/-- The search from the entry, with a depth for each source. -/
def search (sources : Sources) (entry : String) : GraphBuilder :=
  (visit sources (sources.size + 1) entry .new).get <| by
    obtain ⟨s, hvisit, _⟩ := @visit_isSome sources (sources.size + 1) entry .new
      (Nat.lt_succ_of_le (unvisited_le_size .new))
    rw [hvisit]
    rfl

theorem visit_search (sources : Sources) (entry : String) :
    visit sources (sources.size + 1) entry .new = some (search sources entry) :=
  (Option.some_get _).symm

def bundleModuleGraph (entry : String) (sources : Sources) :
    Except (List ModuleDiagnostic) ModuleGraph :=
  let entry := normalizeEntry entry
  let builder := search sources entry
  if builder.diagnostics.isEmpty then
    let modules := builder.order.filterMap fun specifier => builder.records[specifier]?
    .ok ⟨entry, modules, bundle sources modules⟩
  else .error builder.diagnostics

end Tsvm.Modules
