import Tsvm.TextSearch

set_option autoImplicit false

/-!
# Documents of script elements

The scanner goes from `<script` to the next `>`, wherever it stands, and looks for an
attribute by the first text in the tag that ends like its name. Both are right for the
elements in which no value and no other name gets in the way.
-/
namespace Tsvm.ScriptDocuments
open Lexing ScriptLoader TextSearch

def isNameChar (c : Char) : Bool :=
  !(isWhitespace c || ['"', '\'', '=', '<', '>', '/'].contains c)

structure Attribute where
  name : List Char
  value : List Char
  name_chars : ∀ c ∈ name, isNameChar c = true
  value_chars : '"' ∉ value

def Attribute.text (attr : Attribute) : List Char :=
  ' ' :: attr.name ++ '=' :: '"' :: attr.value ++ ['"']

def attributesText (attributes : List Attribute) : List Char := attributes.flatMap Attribute.text

def scriptStart : List Char := ['<', 's', 'c', 'r', 'i', 'p', 't']

def scriptEnd : List Char := ['<', '/', 's', 'c', 'r', 'i', 'p', 't', '>']

structure ScriptElement where
  attributes : List Attribute
  body : List Char
  distinct : (attributes.map Attribute.name).Nodup
  body_open : ¬ scriptEnd <:+: body

namespace ScriptElement

def tagText (element : ScriptElement) : List Char :=
  scriptStart ++ attributesText element.attributes

def openTag (element : ScriptElement) : List Char := element.tagText ++ ['>']

def text (element : ScriptElement) : List Char := element.openTag ++ element.body ++ scriptEnd

def slice (element : ScriptElement) : ScriptSlice := ⟨element.openTag, String.ofList element.body⟩

end ScriptElement

/-- Elements with the text before the first and the text behind each. -/
structure ScriptDocument where
  before : List Char
  parts : List (ScriptElement × List Char)
  texts : ∀ text ∈ before :: parts.map Prod.snd, ¬ scriptStart <:+: text

def ScriptDocument.elements (document : ScriptDocument) : List ScriptElement :=
  document.parts.map Prod.fst

def partsText (parts : List (ScriptElement × List Char)) : List Char :=
  parts.flatMap fun part => part.1.text ++ part.2

def ScriptDocument.text (document : ScriptDocument) : List Char :=
  document.before ++ partsText document.parts

theorem notMem_of_isNameChar {name : List Char} (h : ∀ c ∈ name, isNameChar c = true) {c : Char}
    (hc : isNameChar c = false) : c ∉ name := by
  intro hmem
  rw [h c hmem] at hc
  cases hc

theorem findText_greater {text rest : List Char} (h : '>' ∉ text) :
    findText ['>'] (text ++ '>' :: rest) = some (text, '>' :: rest) :=
  findText_behind (List.cons_ne_nil _ _) (passes_of_notMem h) (List.prefix_append ['>'] rest)

section Scan

variable {element : ScriptElement} {before rest : List Char} {turns : ℕ}

theorem findText_element (h : ¬ scriptStart <:+: before) (element : ScriptElement)
    (rest : List Char) : findText "<script".toList (before ++ (element.text ++ rest)) =
      some (before, element.text ++ rest) := by
  have htext : element.text ++ rest = scriptStart ++ (attributesText element.attributes ++ ['>'] ++
      element.body ++ scriptEnd ++ rest) := by
    rw [ScriptElement.text, ScriptElement.openTag, ScriptElement.tagText]
    simp only [List.append_assoc]
  rw [htext]
  exact findText_behind (List.cons_ne_nil _ _) (passes_before (by decide) h)
    (List.prefix_append _ _)

theorem findScripts_plain (hbefore : ¬ scriptStart <:+: before) (hplain : '>' ∉ element.tagText) :
    findScriptsWithin (turns + 1) (before ++ (element.text ++ rest)) =
      element.slice :: findScriptsWithin turns rest := by
  have hopen : findText ['>'] (element.text ++ rest) =
      some (element.tagText, '>' :: (element.body ++ (scriptEnd ++ rest))) := by
    have htext : element.text ++ rest =
        element.tagText ++ '>' :: (element.body ++ (scriptEnd ++ rest)) := by
      rw [ScriptElement.text, ScriptElement.openTag]
      simp only [List.append_assoc, List.cons_append, List.nil_append]
    rw [htext]
    exact findText_greater hplain
  have hclose : findText "</script>".toList (element.body ++ (scriptEnd ++ rest)) =
      some (element.body, scriptEnd ++ rest) :=
    findText_behind (List.cons_ne_nil _ _) (passes_before (by decide) element.body_open)
      (List.prefix_append _ _)
  rw [findScriptsWithin, findText_element hbefore]
  dsimp only
  rw [hopen]
  dsimp only [List.tail_cons]
  rw [hclose]
  rfl

theorem findScripts_cut (hbefore : ¬ scriptStart <:+: before) (hcut : '>' ∈ element.tagText)
    {slices : List ScriptSlice} :
    findScriptsWithin (turns + 1) (before ++ (element.text ++ rest)) ≠ element.slice :: slices := by
  rw [findScriptsWithin, findText_element hbefore]
  dsimp only
  cases hopen : findText ['>'] (element.text ++ rest) with
  | none => exact fun h => by cases h
  | some found =>
    obtain ⟨openTag, behind⟩ := found
    dsimp only
    cases findText "</script>".toList behind.tail with
    | none => exact fun h => by cases h
    | some close =>
      intro h
      have htag : openTag ++ ['>'] = element.tagText ++ ['>'] :=
        congrArg ScriptSlice.openTag (List.cons.inj h).1
      obtain rfl := List.append_cancel_right htag
      obtain ⟨_, hpasses⟩ := findText_some (List.cons_ne_nil _ _) hopen
      obtain ⟨front, back, hsplit⟩ := List.append_of_mem hcut
      exact hpasses ('>' :: back) ⟨front, hsplit.symm⟩ (List.cons_ne_nil _ _)
        ⟨back ++ behind, rfl⟩

end Scan

/-- The scan is exact when no tag has a `>` inside. -/
theorem findScriptsWithin_iff {parts : List (ScriptElement × List Char)} {before : List Char}
    {turns : ℕ} (htexts : ∀ text ∈ before :: parts.map Prod.snd, ¬ scriptStart <:+: text)
    (hturns : parts.length ≤ turns) :
    findScriptsWithin turns (before ++ partsText parts) =
        parts.map (fun part => part.1.slice) ↔ ∀ part ∈ parts, '>' ∉ part.1.tagText := by
  induction parts generalizing before turns with
  | nil =>
    have hnone : findText "<script".toList before = none :=
      (findText_eq_none_iff (List.cons_ne_nil _ _)).mpr (htexts before List.mem_cons_self)
    have hscan : findScriptsWithin turns (before ++ partsText []) = [] := by
      cases turns with
      | zero => rfl
      | succ turns =>
        rw [partsText, List.flatMap_nil, List.append_nil, findScriptsWithin, hnone]
    rw [hscan]
    exact iff_of_true rfl fun _ hmem => absurd hmem List.not_mem_nil
  | cons part parts ih =>
    obtain ⟨hbefore, hrest⟩ := List.forall_mem_cons.mp htexts
    obtain ⟨turns, rfl⟩ : ∃ n, turns = n + 1 := ⟨turns - 1, by simp at hturns; omega⟩
    have htext : before ++ partsText (part :: parts) =
        before ++ (part.1.text ++ (part.2 ++ partsText parts)) := by
      rw [partsText, List.flatMap_cons, List.append_assoc]
      rfl
    rw [htext, List.map_cons, List.forall_mem_cons]
    by_cases hplain : '>' ∉ part.1.tagText
    · rw [findScripts_plain hbefore hplain, List.cons_inj_right,
        ih hrest (by simpa using hturns)]
      exact ⟨fun h => ⟨hplain, h⟩, fun h => h.2⟩
    · exact iff_of_false (findScripts_cut hbefore (not_not.mp hplain)) fun h => hplain h.1

/-- A name to look for, as the scanner uses it. -/
structure Key where
  chars : List Char
  ne_nil : chars ≠ []
  name_chars : ∀ c ∈ chars, isNameChar c = true

def Key.pattern (key : Key) : List Char := key.chars ++ ['=']

theorem Key.pattern_ne_nil (key : Key) : key.pattern ≠ [] :=
  fun h => key.ne_nil (List.append_eq_nil_iff.mp h).1

theorem Key.notMem_chars (key : Key) {c : Char} (hc : isNameChar c = false) : c ∉ key.chars :=
  notMem_of_isNameChar key.name_chars hc

theorem Key.notMem_pattern (key : Key) {c : Char} (hc : isNameChar c = false) (hne : c ≠ '=') :
    c ∉ key.pattern := by
  rw [pattern, List.mem_append, List.mem_singleton, not_or]
  exact ⟨key.notMem_chars hc, hne⟩

theorem prefix_of_notMem {pattern tail rest : List Char} {c : Char} (hc : c ∉ pattern)
    (h : pattern <+: tail ++ c :: rest) : pattern <+: tail := by
  by_cases hlength : pattern.length ≤ tail.length
  · exact List.prefix_of_prefix_length_le h (List.prefix_append _ _) hlength
  · have hinside : tail ++ [c] <+: pattern := by
      refine List.prefix_of_prefix_length_le ⟨rest, ?_⟩ h ?_
      · rw [List.append_assoc]
        rfl
      · rw [List.length_append, List.length_singleton]
        omega
    exact absurd (hinside.subset (List.mem_append_right _ List.mem_cons_self)) hc

theorem eq_of_prefix {chars name rest : List Char} (hchars : '=' ∉ chars) (hname : '=' ∉ name)
    (h : chars ++ ['='] <+: name ++ '=' :: rest) : chars = name := by
  obtain ⟨more, hmore⟩ := h
  have hall (text : List Char) (htext : '=' ∉ text) (behind : List Char) :
      (text ++ '=' :: behind).takeWhile (fun c => c != '=') = text := by
    have hpos : ∀ c ∈ text, (c != '=') = true := fun c hc =>
      bne_iff_ne.mpr fun heq => htext (heq ▸ hc)
    have hstop : ('=' :: behind).takeWhile (fun c => c != '=') = [] :=
      List.takeWhile_cons_of_neg (by decide)
    rw [List.takeWhile_append_of_pos hpos, hstop, List.append_nil]
  rw [List.append_assoc] at hmore
  rw [← hall chars hchars more, ← hall name hname rest]
  exact congrArg _ hmore

section Lookup

variable (key : Key)

/-- The text behind the first `key=` in the attributes and the end of the tag. -/
def landing : List Attribute → Option (List Char)
  | [] => none
  | attr :: rest =>
    if key.chars <:+ attr.name then
      some ('"' :: attr.value ++ '"' :: attributesText rest ++ ['>'])
    else
      match findText key.pattern attr.value with
      | some (_, found) =>
        some (found.drop key.pattern.length ++ '"' :: attributesText rest ++ ['>'])
      | none => landing rest

/-- The first attribute whose name ends in the key, or whose value contains `key=`, is the
    attribute with this name, if there is any. -/
def Direct : List Attribute → Prop
  | [] => True
  | attr :: rest => attr.name = key.chars ∨
      (¬ key.chars <:+ attr.name ∧ ¬ key.pattern <:+: attr.value ∧ Direct rest)

variable {key}

theorem not_starts {c : Char} (hc : isNameChar c = false) (text : List Char) :
    ¬ key.pattern <+: c :: text := by
  obtain ⟨first, chars, hchars⟩ := List.exists_cons_of_ne_nil key.ne_nil
  rintro ⟨more, hmore⟩
  rw [Key.pattern, hchars] at hmore
  obtain rfl : first = c := (List.cons.inj hmore).1
  exact key.notMem_chars hc (by rw [hchars]; exact List.mem_cons_self)

theorem passes_name {name rest : List Char} (hname : ∀ c ∈ name, isNameChar c = true)
    (h : ¬ key.chars <:+ name) : Passes key.pattern (' ' :: name) ('=' :: rest) := by
  intro tail hsuffix _ hoccurs
  rcases List.suffix_cons_iff.mp hsuffix with rfl | hsuffix
  · exact not_starts (by decide) _ hoccurs
  · have htail : '=' ∉ tail := fun hmem =>
      notMem_of_isNameChar hname (by decide) (hsuffix.subset hmem)
    have heq := eq_of_prefix (key.notMem_chars (by decide)) htail hoccurs
    exact h (heq ▸ hsuffix)

theorem passes_front {front rest : List Char}
    (hname : ∀ c ∈ front ++ key.chars, isNameChar c = true) :
    Passes key.pattern (' ' :: front) (key.chars ++ '=' :: rest) := by
  intro tail hsuffix htail hoccurs
  rcases List.suffix_cons_iff.mp hsuffix with rfl | hsuffix
  · exact not_starts (by decide) _ hoccurs
  · have hmem : '=' ∉ tail ++ key.chars := fun hmem => by
      refine notMem_of_isNameChar hname (show isNameChar '=' = false by decide) ?_
      rcases List.mem_append.mp hmem with hmem | hmem
      · exact List.mem_append_left _ (hsuffix.subset hmem)
      · exact List.mem_append_right _ hmem
    rw [← List.append_assoc] at hoccurs
    have heq := eq_of_prefix (key.notMem_chars (by decide)) hmem hoccurs
    have hlength := congrArg List.length heq
    rw [List.length_append] at hlength
    exact htail (List.eq_nil_of_length_eq_zero (by omega))

theorem passes_single {c : Char} (hc : isNameChar c = false) (text : List Char) :
    Passes key.pattern [c] text := by
  intro tail hsuffix htail hoccurs
  rcases List.suffix_cons_iff.mp hsuffix with rfl | hsuffix
  · exact not_starts hc _ hoccurs
  · exact htail (List.suffix_nil.mp hsuffix)

theorem passes_quoted {part text rest : List Char} (h : Passes key.pattern part text) :
    Passes key.pattern part (text ++ '"' :: rest) := by
  intro tail hsuffix htail hoccurs
  rw [← List.append_assoc] at hoccurs
  exact h tail hsuffix htail
    (prefix_of_notMem (key.notMem_pattern (by decide) (by decide)) hoccurs)

theorem passes_opening {attr : Attribute} (h : ¬ key.chars <:+ attr.name) (rest : List Char) :
    Passes key.pattern (' ' :: attr.name ++ ['=', '"']) rest :=
  (passes_name attr.name_chars h).append
    (Passes.append (passes_single (by decide) _) (passes_single (by decide) _))

theorem findText_attributes (attributes : List Attribute) :
    (findText key.pattern (attributesText attributes ++ ['>'])).map
      (fun found => found.2.drop key.pattern.length) = landing key attributes := by
  induction attributes with
  | nil =>
    have hempty : findText key.pattern [] = none := by
      rw [findText, if_neg (by simpa using key.pattern_ne_nil)]
    have hnone : findText key.pattern ['>'] = none := by
      rw [findText_cons, if_neg (not_starts (by decide) _), hempty]
      rfl
    rw [attributesText, List.flatMap_nil, List.nil_append, hnone]
    rfl
  | cons attr rest ih =>
    rw [landing]
    by_cases hends : key.chars <:+ attr.name
    · obtain ⟨front, hfront⟩ := hends
      have htext : attributesText (attr :: rest) ++ ['>'] = (' ' :: front) ++
          (key.chars ++ '=' :: ('"' :: attr.value ++ '"' :: attributesText rest ++ ['>'])) := by
        rw [attributesText, List.flatMap_cons, Attribute.text, ← hfront]
        simp [attributesText]
      have hname := attr.name_chars
      rw [← hfront] at hname
      have hat : key.pattern <+: key.chars ++ '=' :: ('"' :: attr.value ++
          '"' :: attributesText rest ++ ['>']) := ⟨_, List.append_assoc _ _ _⟩
      rw [htext, findText_behind key.pattern_ne_nil (passes_front hname) hat, if_pos ⟨front, hfront⟩,
        Option.map_some, List.append_cons, show key.chars ++ ['='] = key.pattern from rfl,
        List.drop_left]
    · rw [if_neg hends]
      cases hvalue : findText key.pattern attr.value with
      | some found =>
        obtain ⟨before, found⟩ := found
        obtain ⟨hat, hpasses⟩ := findText_some key.pattern_ne_nil hvalue
        have htext : attributesText (attr :: rest) ++ ['>'] =
            (' ' :: attr.name ++ ['=', '"'] ++ before) ++
              (found ++ '"' :: (attributesText rest ++ ['>'])) := by
          rw [attributesText, List.flatMap_cons, Attribute.text, findText_append hvalue]
          simp [attributesText]
        have hall : Passes key.pattern (' ' :: attr.name ++ ['=', '"'] ++ before)
            (found ++ '"' :: (attributesText rest ++ ['>'])) :=
          (passes_opening hends _).append (passes_quoted hpasses)
        have hlength := hat.length_le
        rw [htext, findText_behind key.pattern_ne_nil hall (hat.trans (List.prefix_append _ _)),
          Option.map_some, List.drop_append_of_le_length hlength]
        simp
      | none =>
        have hpasses : Passes key.pattern attr.value [] := by
          intro tail hsuffix _ hoccurs
          rw [List.append_nil] at hoccurs
          exact (findText_eq_none_iff key.pattern_ne_nil).mp hvalue
            (hoccurs.isInfix.trans hsuffix.isInfix)
        have htext : attributesText (attr :: rest) ++ ['>'] =
            (' ' :: attr.name ++ ['=', '"'] ++ (attr.value ++ ['"'])) ++
              (attributesText rest ++ ['>']) := by
          rw [attributesText, List.flatMap_cons, Attribute.text]
          simp [attributesText]
        have hquoted : Passes key.pattern attr.value
            (['"'] ++ (attributesText rest ++ ['>'])) := passes_quoted hpasses
        have hall : Passes key.pattern (' ' :: attr.name ++ ['=', '"'] ++ (attr.value ++ ['"']))
            (attributesText rest ++ ['>']) :=
          (passes_opening hends _).append
            (hquoted.append (passes_single (by decide) _))
        rw [htext, findText_passes hall, Option.map_map, ← ih]
        rfl

def quoted (text : List Char) : Option (List Char) :=
  match text.dropWhile isWhitespace with
  | [] => none
  | quote :: rest =>
    if quote ≠ '"' ∧ quote ≠ '\'' then none else (findText [quote] rest).map Prod.fst

theorem quoted_value {value : List Char} (h : '"' ∉ value) (rest : List Char) :
    quoted ('"' :: value ++ '"' :: rest) = some value := by
  have hfind : findText ['"'] (value ++ '"' :: rest) = some (value, '"' :: rest) :=
    findText_behind (List.cons_ne_nil _ _) (passes_of_notMem h) (List.prefix_append ['"'] rest)
  have hdrop : ('"' :: value ++ '"' :: rest).dropWhile isWhitespace =
      '"' :: (value ++ '"' :: rest) := List.dropWhile_cons_of_neg (by decide)
  rw [quoted, hdrop]
  dsimp only
  rw [hfind]
  rfl

def reads (key : Key) (attributes : List Attribute) : Option (List Char) :=
  (landing key attributes).bind quoted

def find (key : Key) (attributes : List Attribute) : Option (List Char) :=
  (attributes.find? fun attr => attr.name == key.chars).map Attribute.value

theorem reads_direct {attributes : List Attribute} (h : Direct key attributes) :
    reads key attributes = find key attributes := by
  induction attributes with
  | nil => rfl
  | cons attr rest ih =>
    rw [reads, landing, find]
    rcases h with hname | ⟨hends, hvalue, hrest⟩
    · rw [if_pos (by rw [hname]), List.find?_cons_of_pos (by rw [hname]; exact beq_self_eq_true _),
        Option.bind_some, List.append_assoc]
      exact quoted_value attr.value_chars _
    · have hnone := (findText_eq_none_iff key.pattern_ne_nil).mpr hvalue
      have hne : ¬ (attr.name == key.chars) = true := fun heq => by
        rw [beq_iff_eq] at heq
        exact hends (by rw [heq])
      have hfind : (attr :: rest).find? (fun attr => attr.name == key.chars) =
          rest.find? fun attr => attr.name == key.chars := List.find?_cons_of_neg hne
      rw [if_neg hends, hnone, hfind]
      exact ih hrest

theorem passes_scriptStart (attributes : List Attribute) :
    Passes key.pattern scriptStart (attributesText attributes ++ ['>']) := by
  intro tail hsuffix _ hoccurs
  have hinside : key.pattern <+: tail := by
    cases attributes with
    | nil =>
      rw [attributesText, List.flatMap_nil] at hoccurs
      exact prefix_of_notMem (key.notMem_pattern (by decide) (by decide)) hoccurs
    | cons attr rest =>
      rw [attributesText, List.flatMap_cons, Attribute.text, List.append_assoc] at hoccurs
      exact prefix_of_notMem (key.notMem_pattern (by decide) (by decide)) hoccurs
  have hmem : '=' ∈ key.pattern := List.mem_append_right _ List.mem_cons_self
  have hstart := hsuffix.subset (hinside.subset hmem)
  exact absurd hstart (by decide)

theorem attributeValue_openTag {name : String} (hname : (name ++ "=").toList = key.pattern)
    (element : ScriptElement) :
    attributeValue element.openTag name = reads key element.attributes := by
  have hlength : (name ++ "=").length = key.pattern.length := by
    rw [← hname, String.length_toList]
  have hbind : attributeValue element.openTag name =
      (findText key.pattern element.openTag).bind fun found =>
        quoted (found.2.drop key.pattern.length) := by
    rw [attributeValue, hname, hlength]
    rfl
  have htag : element.openTag = scriptStart ++ (attributesText element.attributes ++ ['>']) := by
    rw [ScriptElement.openTag, ScriptElement.tagText, List.append_assoc]
  rw [hbind, htag, findText_passes (passes_scriptStart element.attributes), reads,
    ← findText_attributes]
  cases findText key.pattern (attributesText element.attributes ++ ['>']) <;> rfl

end Lookup

def typeKey : Key := ⟨['t', 'y', 'p', 'e'], List.cons_ne_nil _ _, by simp [isNameChar]; decide⟩

def srcKey : Key := ⟨['s', 'r', 'c'], List.cons_ne_nil _ _, by simp [isNameChar]; decide⟩

def lowercase (value : List Char) : String := String.ofList (value.map toAsciiLowercase)

/-- The scanner reads what the document says. -/
structure Extracts (document : ScriptDocument) : Prop where
  scripts : findScripts (String.ofList document.text) = document.elements.map ScriptElement.slice
  types : ∀ element ∈ document.elements,
    scriptType element.openTag = (find typeKey element.attributes).map lowercase
  sources : ∀ element ∈ document.elements,
    scriptSrc element.openTag = (find srcKey element.attributes).map String.ofList
  executed : ∀ element ∈ document.elements, element.slice.isTypescript = true →
    ∃ value, find typeKey element.attributes = some value ∧ lowercase value = "text/typescript"

/-- No value ends the tag, and each of the two names is found where it stands, or what is
    found instead reads the same. -/
structure Clear (element : ScriptElement) : Prop where
  closed : ∀ attr ∈ element.attributes, '>' ∉ attr.value
  types : Direct typeKey element.attributes ∨ (reads typeKey element.attributes).map lowercase =
    (find typeKey element.attributes).map lowercase
  sources : Direct srcKey element.attributes ∨
    reads srcKey element.attributes = find srcKey element.attributes

theorem greater_tagText (element : ScriptElement) :
    '>' ∉ element.tagText ↔ ∀ attr ∈ element.attributes, '>' ∉ attr.value := by
  have hattr (attr : Attribute) : '>' ∈ attr.text ↔ '>' ∈ attr.value := by
    have hname : '>' ∉ attr.name :=
      notMem_of_isNameChar attr.name_chars (show isNameChar '>' = false by decide)
    simp [Attribute.text, hname]
  have hstart : '>' ∉ scriptStart := by decide
  rw [ScriptElement.tagText, List.mem_append, not_or, attributesText, List.mem_flatMap]
  constructor
  · intro h attr hmem hvalue
    exact h.2 ⟨attr, hmem, (hattr attr).mpr hvalue⟩
  · intro h
    refine ⟨hstart, ?_⟩
    rintro ⟨attr, hmem, htext⟩
    exact h attr hmem ((hattr attr).mp htext)

theorem scriptType_openTag (element : ScriptElement) :
    scriptType element.openTag = (reads typeKey element.attributes).map lowercase := by
  have hname : ("type" ++ "=").toList = typeKey.pattern := by decide
  rw [scriptType, attributeValue_openTag hname]
  rfl

theorem scriptSrc_openTag (element : ScriptElement) :
    scriptSrc element.openTag = (reads srcKey element.attributes).map String.ofList := by
  have hname : ("src" ++ "=").toList = srcKey.pattern := by decide
  rw [scriptSrc, attributeValue_openTag hname]

theorem map_ofList_inj {first second : Option (List Char)} :
    first.map String.ofList = second.map String.ofList ↔ first = second := by
  refine ⟨fun h => ?_, fun h => by rw [h]⟩
  exact Option.map_injective (fun _ _ heq => String.ofList_injective heq) h

theorem length_le_partsText (parts : List (ScriptElement × List Char)) :
    parts.length ≤ (partsText parts).length := by
  induction parts with
  | nil => exact Nat.le_refl 0
  | cons part parts ih =>
    have htext : partsText (part :: parts) = part.1.text ++ part.2 ++ partsText parts :=
      List.flatMap_cons
    have hpositive : 0 < part.1.text.length := by
      rw [ScriptElement.text, List.length_append]
      exact Nat.add_pos_right _ (by decide)
    rw [htext, List.length_cons, List.length_append, List.length_append]
    omega

theorem findScripts_document (document : ScriptDocument) :
    findScripts (String.ofList document.text) = document.elements.map ScriptElement.slice ↔
      ∀ element ∈ document.elements, '>' ∉ element.tagText := by
  have hturns : document.parts.length ≤ document.text.length + 1 := by
    have hle := length_le_partsText document.parts
    rw [ScriptDocument.text, List.length_append]
    omega
  have hscan := findScriptsWithin_iff document.texts hturns
  rw [findScripts, String.toList_ofList, ScriptDocument.elements, List.map_map, List.forall_mem_map]
  exact hscan

/-- The scanner is exact on the documents whose elements are all clear. -/
theorem extracts_iff (document : ScriptDocument) :
    Extracts document ↔ ∀ element ∈ document.elements, Clear element := by
  constructor
  · intro h element hmem
    have htypes := h.types element hmem
    have hsources := h.sources element hmem
    rw [scriptType_openTag] at htypes
    rw [scriptSrc_openTag, map_ofList_inj] at hsources
    exact ⟨(greater_tagText element).mp ((findScripts_document document).mp h.scripts element hmem),
      .inr htypes, .inr hsources⟩
  · intro h
    have htypes (element : ScriptElement) (hmem : element ∈ document.elements) :
        scriptType element.openTag = (find typeKey element.attributes).map lowercase := by
      rw [scriptType_openTag]
      rcases (h element hmem).types with hdirect | hsame
      · rw [reads_direct hdirect]
      · exact hsame
    refine ⟨?_, htypes, ?_, ?_⟩
    · exact (findScripts_document document).mpr fun element hmem =>
        (greater_tagText element).mpr (h element hmem).closed
    · intro element hmem
      rw [scriptSrc_openTag, map_ofList_inj]
      rcases (h element hmem).sources with hdirect | hsame
      · exact reads_direct hdirect
      · exact hsame
    · intro element hmem htypescript
      have htype : scriptType element.openTag = some "text/typescript" :=
        of_decide_eq_true htypescript
      rw [htypes element hmem] at htype
      exact Option.map_eq_some_iff.mp htype

def dataType : Attribute where
  name := ['d', 'a', 't', 'a', '-', 't', 'y', 'p', 'e']
  value := ['t', 'e', 'x', 't', '/', 't', 'y', 'p', 'e', 's', 'c', 'r', 'i', 'p', 't']
  name_chars := by simp [isNameChar]; decide
  value_chars := by decide

/-- `<script data-type="text/typescript">x</script>`. -/
def dataDocument : ScriptDocument where
  before := []
  parts := [(⟨[dataType], ['x'], by decide, by decide⟩, [])]
  texts := by decide

/-- A script without a type is taken for TypeScript. -/
theorem not_extracts : ¬ ∀ document : ScriptDocument, Extracts document := by
  intro hall
  have htypes := (hall dataDocument).types _ List.mem_cons_self
  exact absurd htypes (by decide +kernel)

end Tsvm.ScriptDocuments
