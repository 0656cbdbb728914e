import Mathlib

set_option autoImplicit false

/-!
# JSON texts

The grammar of JSON as a relation between a text and what it denotes. A text denotes one
value at most: a reader that goes along the text finds whatever the grammar allows.
-/
namespace JsonTexts

inductive Json where
  | null
  | boolean (value : Bool)
  | number (lexeme : List Char)
  | string (chars : List Char)
  | array (items : List Json)
  | object (members : List (List Char × Json))

def isSpace (c : Char) : Bool := c == ' ' || c == '\t' || c == '\n' || c == '\r'

def Space (text : List Char) : Prop := ∀ c ∈ text, isSpace c = true

def Digits (text : List Char) : Prop := text ≠ [] ∧ ∀ c ∈ text, c.isDigit = true

/-- No leading zero. -/
def IsInteger (text : List Char) : Prop := text = ['0'] ∨ Digits text ∧ text.head? ≠ some '0'

def IsFraction (text : List Char) : Prop := text = [] ∨ ∃ digits, Digits digits ∧ text = '.' :: digits

def IsExponent (text : List Char) : Prop :=
  text = [] ∨ ∃ e sign digits, (e = 'e' ∨ e = 'E') ∧ (sign = [] ∨ sign = ['+'] ∨ sign = ['-']) ∧
    Digits digits ∧ text = e :: sign ++ digits

structure IsNumber (lexeme : List Char) : Prop where
  parts : ∃ sign integer fraction exponent, (sign = [] ∨ sign = ['-']) ∧ IsInteger integer ∧
    IsFraction fraction ∧ IsExponent exponent ∧ lexeme = sign ++ integer ++ fraction ++ exponent

def isNumberChar (c : Char) : Bool :=
  c.isDigit || c == '-' || c == '+' || c == '.' || c == 'e' || c == 'E'

theorem isNumberChar_of_isDigit {c : Char} (h : c.isDigit = true) : isNumberChar c = true := by
  rw [isNumberChar, h]
  rfl

theorem Digits.chars {text : List Char} (h : Digits text) : ∀ c ∈ text, isNumberChar c = true :=
  fun c hc => isNumberChar_of_isDigit (h.2 c hc)

theorem IsInteger.chars {text : List Char} (h : IsInteger text) :
    ∀ c ∈ text, isNumberChar c = true := by
  rcases h with rfl | ⟨hdigits, _⟩
  · simp [isNumberChar]
  · exact hdigits.chars

theorem IsInteger.ne_nil {text : List Char} (h : IsInteger text) : text ≠ [] := by
  rcases h with rfl | ⟨hdigits, _⟩
  · exact List.cons_ne_nil _ _
  · exact hdigits.1

theorem IsNumber.chars {lexeme : List Char} (h : IsNumber lexeme) :
    lexeme ≠ [] ∧ ∀ c ∈ lexeme, isNumberChar c = true := by
  obtain ⟨sign, integer, fraction, exponent, hsign, hinteger, hfraction, hexponent, rfl⟩ := h.parts
  refine ⟨fun hnil => ?_, fun c hc => ?_⟩
  · have hinner := (List.append_eq_nil_iff.mp (List.append_eq_nil_iff.mp hnil).1).1
    exact hinteger.ne_nil (List.append_eq_nil_iff.mp hinner).2
  · simp only [List.mem_append] at hc
    rcases hc with ((hc | hc) | hc) | hc
    · rcases hsign with rfl | rfl
      · exact absurd hc List.not_mem_nil
      · rw [List.mem_singleton.mp hc]
        rfl
    · exact hinteger.chars c hc
    · rcases hfraction with rfl | ⟨digits, hdigits, rfl⟩
      · exact absurd hc List.not_mem_nil
      · rcases List.mem_cons.mp hc with rfl | hc
        · rfl
        · exact hdigits.chars c hc
    · rcases hexponent with rfl | ⟨e, sign, digits, he, hsign, hdigits, rfl⟩
      · exact absurd hc List.not_mem_nil
      · rcases List.mem_cons.mp hc with rfl | hc
        · rcases he with rfl | rfl <;> rfl
        · rcases List.mem_append.mp hc with hc | hc
          · rcases hsign with rfl | rfl | rfl
            · exact absurd hc List.not_mem_nil
            · rw [List.mem_singleton.mp hc]
              rfl
            · rw [List.mem_singleton.mp hc]
              rfl
          · exact hdigits.chars c hc

def simpleEscape : Char → Option Char
  | '"' => some '"'
  | '\\' => some '\\'
  | '/' => some '/'
  | 'b' => some '\x08'
  | 'f' => some '\x0C'
  | 'n' => some '\n'
  | 'r' => some '\r'
  | 't' => some '\t'
  | _ => none

def hexValue (c : Char) : Option ℕ :=
  if c.isDigit then some (c.toNat - '0'.toNat)
  else if 'a' ≤ c ∧ c ≤ 'f' then some (c.toNat - 'a'.toNat + 10)
  else if 'A' ≤ c ∧ c ≤ 'F' then some (c.toNat - 'A'.toNat + 10)
  else none

/-- The code unit of four hexadecimal digits. -/
def codeUnit (a b c d : Char) : Option ℕ := do
  let a ← hexValue a
  let b ← hexValue b
  let c ← hexValue c
  let d ← hexValue d
  pure (((a * 16 + b) * 16 + c) * 16 + d)

/-- The characters of a string literal without its quotes. Code units beyond the basic plane
    come in pairs; one alone stands for no character. -/
def unescape : List Char → Option (List Char)
  | [] => some []
  | '\\' :: 'u' :: a :: b :: c :: d :: text =>
    match codeUnit a b c d with
    | none => none
    | some high =>
      if 0xD800 ≤ high ∧ high < 0xDC00 then
        match text with
        | '\\' :: 'u' :: a :: b :: c :: d :: text =>
          match codeUnit a b c d with
          | none => none
          | some low =>
            if 0xDC00 ≤ low ∧ low < 0xE000 then
              (unescape text).map (Char.ofNat (0x10000 + (high - 0xD800) * 0x400 + (low - 0xDC00)) :: ·)
            else none
        | _ => none
      else if 0xDC00 ≤ high ∧ high < 0xE000 then none
      else (unescape text).map (Char.ofNat high :: ·)
  | '\\' :: e :: text =>
    match simpleEscape e with
    | none => none
    | some c => (unescape text).map (c :: ·)
  | c :: text => if c = '"' ∨ c = '\\' ∨ c.toNat < 0x20 then none else (unescape text).map (c :: ·)

theorem unescape_plain {c : Char} (h : ¬(c = '"' ∨ c = '\\' ∨ c.toNat < 0x20))
    (text : List Char) : unescape (c :: text) = (unescape text).map (c :: ·) := by
  have hslash : c ≠ '\\' := fun hc => h (Or.inr (Or.inl hc))
  rw [unescape, if_neg h]
  · exact fun _ _ _ _ _ hc => absurd hc hslash
  · exact fun _ _ hc => absurd hc hslash

/-- No code unit below the surrogates needs a second one. -/
theorem unescape_codeUnit {a b c d : Char} {n : ℕ} (hunit : codeUnit a b c d = some n)
    (hn : n < 0xD800) (text : List Char) :
    unescape ('\\' :: 'u' :: a :: b :: c :: d :: text) =
      (unescape text).map (Char.ofNat n :: ·) := by
  rw [unescape, hunit]
  simp only
  rw [if_neg (by omega), if_neg (by omega)]

theorem unescape_simple {e c : Char} (hsimple : simpleEscape e = some c) (text : List Char) :
    unescape ('\\' :: e :: text) = (unescape text).map (c :: ·) := by
  have he : e ≠ 'u' := by
    rintro rfl
    cases hsimple
  rw [unescape, hsimple]
  exact fun _ _ _ _ _ h => absurd h he

/-- The text up to the quote that ends a string literal, and what is behind it. -/
def splitBody : List Char → Option (List Char × List Char)
  | [] => none
  | '"' :: rest => some ([], rest)
  | '\\' :: e :: rest => (splitBody rest).map fun found => ('\\' :: e :: found.1, found.2)
  | c :: rest => (splitBody rest).map fun found => (c :: found.1, found.2)

theorem splitBody_plain {c : Char} (hquote : c ≠ '"') (hslash : c ≠ '\\') (rest : List Char) :
    splitBody (c :: rest) = (splitBody rest).map fun found => (c :: found.1, found.2) := by
  rw [splitBody]
  · exact hquote
  · exact fun _ _ h => absurd h hslash

theorem hexValue_ne {c : Char} {n : ℕ} (h : hexValue c = some n) : c ≠ '"' ∧ c ≠ '\\' := by
  constructor
  · rintro rfl
    cases h
  · rintro rfl
    cases h

theorem codeUnit_hex {a b c d : Char} {n : ℕ} (h : codeUnit a b c d = some n) :
    ∀ digit ∈ [a, b, c, d], digit ≠ '"' ∧ digit ≠ '\\' := by
  simp only [codeUnit, Option.bind_eq_bind, Option.bind_eq_some_iff] at h
  obtain ⟨_, ha, _, hb, _, hc, _, hd, _⟩ := h
  intro digit hdigit
  simp only [List.mem_cons, List.not_mem_nil, or_false] at hdigit
  rcases hdigit with rfl | rfl | rfl | rfl
  · exact hexValue_ne ha
  · exact hexValue_ne hb
  · exact hexValue_ne hc
  · exact hexValue_ne hd

theorem splitBody_codeUnit {a b c d : Char} {n : ℕ} (h : codeUnit a b c d = some n)
    {text rest body behind : List Char} (hsplit : splitBody (text ++ rest) = some (body, behind)) :
    splitBody ('\\' :: 'u' :: a :: b :: c :: d :: text ++ rest) =
      some ('\\' :: 'u' :: a :: b :: c :: d :: body, behind) := by
  have hne := codeUnit_hex h
  simp only [List.forall_mem_cons] at hne
  obtain ⟨⟨ha, ha'⟩, ⟨hb, hb'⟩, ⟨hc, hc'⟩, ⟨hd, hd'⟩, _⟩ := hne
  simp only [List.cons_append]
  rw [splitBody, splitBody_plain ha ha', splitBody_plain hb hb', splitBody_plain hc hc',
    splitBody_plain hd hd', hsplit]
  rfl

/-- A literal ends with the first quote that is not escaped. -/
theorem splitBody_unescape {text chars : List Char} (h : unescape text = some chars)
    (rest : List Char) : splitBody (text ++ '"' :: rest) = some (text, rest) := by
  fun_induction unescape text generalizing chars with
  | case1 => rfl
  | case2 => cases h
  | case3 => cases h
  | case4 a b c d high hhigh hrange a' b' c' d' text low hlow hrange' ih =>
    obtain ⟨inner, hinner, _⟩ := Option.map_eq_some_iff.mp h
    exact splitBody_codeUnit hhigh (splitBody_codeUnit hlow (ih hinner))
  | case5 => cases h
  | case6 => cases h
  | case7 => cases h
  | case8 a b c d text unit hunit hhigh hlow ih =>
    obtain ⟨inner, hinner, _⟩ := Option.map_eq_some_iff.mp h
    exact splitBody_codeUnit hunit (ih hinner)
  | case9 => cases h
  | case10 e text hunicode c hsimple ih =>
    obtain ⟨inner, hinner, _⟩ := Option.map_eq_some_iff.mp h
    simp only [List.cons_append]
    rw [splitBody, ih hinner]
    rfl
  | case11 => cases h
  | case12 c text hunicode hescape hplain ih =>
    obtain ⟨inner, hinner, _⟩ := Option.map_eq_some_iff.mp h
    have hquote : c ≠ '"' := fun hc => hplain (Or.inl hc)
    have hslash : c ≠ '\\' := fun hc => hplain (Or.inr (Or.inl hc))
    rw [List.cons_append, splitBody_plain hquote hslash, ih hinner]
    rfl

inductive Part where
  | value (json : Json)
  | element (json : Json)
  | items (values : List Json)
  | member (field : List Char × Json)
  | members (fields : List (List Char × Json))

inductive Denotes : List Char → Part → Prop where
  | null : Denotes ['n', 'u', 'l', 'l'] (.value .null)
  | yes : Denotes ['t', 'r', 'u', 'e'] (.value (.boolean true))
  | no : Denotes ['f', 'a', 'l', 's', 'e'] (.value (.boolean false))
  | number {lexeme : List Char} (h : IsNumber lexeme) : Denotes lexeme (.value (.number lexeme))
  | string {text chars : List Char} (h : unescape text = some chars) :
      Denotes ('"' :: text ++ ['"']) (.value (.string chars))
  | emptyArray {blank : List Char} (h : Space blank) :
      Denotes ('[' :: blank ++ [']']) (.value (.array []))
  | array {text : List Char} {values : List Json} (h : Denotes text (.items values)) :
      Denotes ('[' :: text ++ [']']) (.value (.array values))
  | emptyObject {blank : List Char} (h : Space blank) :
      Denotes ('\x7b' :: blank ++ ['\x7d']) (.value (.object []))
  | object {text : List Char} {fields : List (List Char × Json)} (h : Denotes text (.members fields)) :
      Denotes ('\x7b' :: text ++ ['\x7d']) (.value (.object fields))
  | element {before text after : List Char} {json : Json} (hbefore : Space before)
      (h : Denotes text (.value json)) (hafter : Space after) :
      Denotes (before ++ text ++ after) (.element json)
  | lastItem {text : List Char} {json : Json} (h : Denotes text (.element json)) :
      Denotes text (.items [json])
  | item {text rest : List Char} {json : Json} {values : List Json}
      (h : Denotes text (.element json)) (hrest : Denotes rest (.items values)) :
      Denotes (text ++ ',' :: rest) (.items (json :: values))
  | member {before key name between text : List Char} {json : Json} (hbefore : Space before)
      (hkey : unescape key = some name) (hbetween : Space between)
      (h : Denotes text (.element json)) :
      Denotes (before ++ '"' :: key ++ '"' :: between ++ ':' :: text) (.member (name, json))
  | lastMember {text : List Char} {field : List Char × Json} (h : Denotes text (.member field)) :
      Denotes text (.members [field])
  | anotherMember {text rest : List Char} {field : List Char × Json}
      {fields : List (List Char × Json)} (h : Denotes text (.member field))
      (hrest : Denotes rest (.members fields)) :
      Denotes (text ++ ',' :: rest) (.members (field :: fields))

/-- A JSON text is one value with blanks around it. -/
def DenotesText (text : List Char) (json : Json) : Prop := Denotes text (.element json)

theorem DenotesText.of_value {text : List Char} {json : Json} (h : Denotes text (.value json)) :
    DenotesText text json := by
  have hblank : Space [] := fun _ hc => absurd hc List.not_mem_nil
  have helement := Denotes.element hblank h hblank
  rwa [List.nil_append, List.append_nil] at helement

def skipSpace (text : List Char) : List Char := text.dropWhile isSpace

def readString (text : List Char) : Option (List Char × List Char) := do
  let (body, rest) ← splitBody text
  let chars ← unescape body
  pure (chars, rest)

def closing (bracket : Char) (text : List Char) : Option (List Char) :=
  match skipSpace text with
  | c :: rest => if c = bracket then some rest else none
  | [] => none

/-- A reader for each kind of part. -/
structure Reader where
  value : List Char → Option (Json × List Char)
  items : List Char → Option (List Json × List Char)
  member : List Char → Option ((List Char × Json) × List Char)
  members : List Char → Option (List (List Char × Json) × List Char)

namespace Reader

variable (r : Reader)

def valueStep (text : List Char) : Option (Json × List Char) :=
  if (skipSpace text).takeWhile isNumberChar ≠ [] then
    some (.number ((skipSpace text).takeWhile isNumberChar),
      (skipSpace text).dropWhile isNumberChar)
  else
    match skipSpace text with
    | 'n' :: 'u' :: 'l' :: 'l' :: rest => some (.null, rest)
    | 't' :: 'r' :: 'u' :: 'e' :: rest => some (.boolean true, rest)
    | 'f' :: 'a' :: 'l' :: 's' :: 'e' :: rest => some (.boolean false, rest)
    | '"' :: text => (readString text).map fun found => (.string found.1, found.2)
    | '[' :: text =>
      match r.items text with
      | some found => some (.array found.1, found.2)
      | none => (closing ']' text).map fun rest => (.array [], rest)
    | '\x7b' :: text =>
      match r.members text with
      | some found => some (.object found.1, found.2)
      | none => (closing '\x7d' text).map fun rest => (.object [], rest)
    | _ => none

def itemsAfter (json : Json) : List Char → Option (List Json × List Char)
  | ']' :: rest => some ([json], rest)
  | ',' :: rest => (r.items rest).map fun found => (json :: found.1, found.2)
  | _ => none

def itemsStep (text : List Char) : Option (List Json × List Char) :=
  (r.value text).bind fun found => r.itemsAfter found.1 (skipSpace found.2)

def memberAfter (text : List Char) : Option ((List Char × Json) × List Char) := do
  let (name, rest) ← readString text
  let rest ← closing ':' rest
  let (json, rest) ← r.value rest
  pure ((name, json), rest)

def memberStep (text : List Char) : Option ((List Char × Json) × List Char) :=
  match skipSpace text with
  | '"' :: text => r.memberAfter text
  | _ => none

def membersAfter (field : List Char × Json) :
    List Char → Option (List (List Char × Json) × List Char)
  | '\x7d' :: rest => some ([field], rest)
  | ',' :: rest => (r.members rest).map fun found => (field :: found.1, found.2)
  | _ => none

def membersStep (text : List Char) : Option (List (List Char × Json) × List Char) :=
  (r.member text).bind fun found => r.membersAfter found.1 (skipSpace found.2)

theorem valueStep_string (text : List Char) : r.valueStep ('"' :: text) =
    (readString text).map fun found => (.string found.1, found.2) := rfl

theorem valueStep_array (text : List Char) : r.valueStep ('[' :: text) =
    match r.items text with
    | some found => some (.array found.1, found.2)
    | none => (closing ']' text).map fun rest => (.array [], rest) := rfl

theorem valueStep_object (text : List Char) : r.valueStep ('\x7b' :: text) =
    match r.members text with
    | some found => some (.object found.1, found.2)
    | none => (closing '\x7d' text).map fun rest => (.object [], rest) := rfl

theorem memberStep_string (text : List Char) : r.memberStep ('"' :: text) = r.memberAfter text := rfl

end Reader

def reader : ℕ → Reader
  | 0 => ⟨fun _ => none, fun _ => none, fun _ => none, fun _ => none⟩
  | fuel + 1 => ⟨(reader fuel).valueStep, (reader fuel).itemsStep, (reader fuel).memberStep,
      (reader fuel).membersStep⟩

section Steps

variable (fuel : ℕ) (text : List Char)

theorem value_succ : (reader (fuel + 1)).value text = (reader fuel).valueStep text := rfl

theorem items_succ : (reader (fuel + 1)).items text = (reader fuel).itemsStep text := rfl

theorem member_succ : (reader (fuel + 1)).member text = (reader fuel).memberStep text := rfl

theorem members_succ : (reader (fuel + 1)).members text = (reader fuel).membersStep text := rfl

end Steps

theorem Space.nil : Space [] := fun _ hc => absurd hc List.not_mem_nil

theorem skipSpace_append {blank : List Char} (h : Space blank) (text : List Char) :
    skipSpace (blank ++ text) = skipSpace text := by
  induction blank with
  | nil => rfl
  | cons c blank ih =>
    have hc : isSpace c = true := h c List.mem_cons_self
    rw [List.cons_append, skipSpace, List.dropWhile_cons, if_pos hc]
    exact ih fun c hc => h c (List.mem_cons_of_mem _ hc)

theorem skipSpace_cons {c : Char} (h : isSpace c = false) (text : List Char) :
    skipSpace (c :: text) = c :: text := by
  rw [skipSpace, List.dropWhile_cons, if_neg (by rw [h]; exact Bool.false_ne_true)]

theorem value_skip {blank : List Char} (h : Space blank) (fuel : ℕ) (text : List Char) :
    (reader fuel).value (blank ++ text) = (reader fuel).value text := by
  cases fuel with
  | zero => rfl
  | succ fuel => rw [value_succ, value_succ, Reader.valueStep, Reader.valueStep, skipSpace_append h]

theorem member_skip {blank : List Char} (h : Space blank) (fuel : ℕ) (text : List Char) :
    (reader fuel).member (blank ++ text) = (reader fuel).member text := by
  cases fuel with
  | zero => rfl
  | succ fuel => rw [member_succ, member_succ, Reader.memberStep, Reader.memberStep, skipSpace_append h]

/-- No character that a number could go on with. -/
def Stops (rest : List Char) : Prop := ∀ c ∈ rest.head?, isNumberChar c = false

theorem Stops.cons {c : Char} (h : isNumberChar c = false) (rest : List Char) :
    Stops (c :: rest) := by
  intro d hd
  rw [← Option.mem_some_iff.mp hd]
  exact h

theorem isNumberChar_of_isSpace {c : Char} (h : isSpace c = true) : isNumberChar c = false := by
  simp only [isSpace, Bool.or_eq_true, beq_iff_eq] at h
  rcases h with ((rfl | rfl) | rfl) | rfl <;> rfl

theorem Stops.append {blank rest : List Char} (h : Stops rest) (hblank : Space blank) :
    Stops (blank ++ rest) := by
  cases blank with
  | nil => exact h
  | cons c blank => exact Stops.cons (isNumberChar_of_isSpace (hblank c List.mem_cons_self)) _

theorem takeWhile_number {lexeme rest : List Char} (h : ∀ c ∈ lexeme, isNumberChar c = true)
    (hrest : Stops rest) : (lexeme ++ rest).takeWhile isNumberChar = lexeme ∧
      (lexeme ++ rest).dropWhile isNumberChar = rest := by
  have hstop : rest.takeWhile isNumberChar = [] ∧ rest.dropWhile isNumberChar = rest := by
    cases rest with
    | nil => exact ⟨rfl, rfl⟩
    | cons c rest =>
      have hc : isNumberChar c = false := hrest c rfl
      rw [List.takeWhile_cons, List.dropWhile_cons, hc]
      exact ⟨rfl, rfl⟩
  constructor
  · rw [List.takeWhile_append_of_pos h, hstop.1, List.append_nil]
  · rw [List.dropWhile_append_of_pos h, hstop.2]

theorem readString_unescape {text chars : List Char} (h : unescape text = some chars)
    (rest : List Char) : readString (text ++ '"' :: rest) = some (chars, rest) := by
  rw [readString, splitBody_unescape h]
  simp only [Option.bind_eq_bind, Option.bind_some, h]
  rfl

theorem closing_append {bracket : Char} (hbracket : isSpace bracket = false) {blank : List Char}
    (h : Space blank) (rest : List Char) :
    closing bracket (blank ++ bracket :: rest) = some rest := by
  rw [closing, skipSpace_append h, skipSpace_cons hbracket]
  exact if_pos rfl

def Part.ReadAs : Part → List Char → Prop
  | .value json, text => ∃ enough, ∀ fuel ≥ enough, ∀ rest, Stops rest →
      (reader fuel).value (text ++ rest) = some (json, rest)
  | .element json, text => ∃ enough, ∀ fuel ≥ enough, ∀ rest, Stops rest → ∃ after, Space after ∧
      (reader fuel).value (text ++ rest) = some (json, after ++ rest)
  | .items values, text => ∃ enough, ∀ fuel ≥ enough, ∀ rest,
      (reader fuel).items (text ++ ']' :: rest) = some (values, rest)
  | .member field, text => ∃ enough, ∀ fuel ≥ enough, ∀ rest, Stops rest → ∃ after, Space after ∧
      (reader fuel).member (text ++ rest) = some (field, after ++ rest)
  | .members fields, text => ∃ enough, ∀ fuel ≥ enough, ∀ rest,
      (reader fuel).members (text ++ '\x7d' :: rest) = some (fields, rest)

/-- A step of the reader needs one more than the steps under it. -/
theorem exists_fuel {P : ℕ → Prop} {enough : ℕ} (h : ∀ fuel ≥ enough, P (fuel + 1)) :
    ∃ enough, ∀ fuel ≥ enough, P fuel := by
  refine ⟨enough + 1, fun fuel hfuel => ?_⟩
  obtain ⟨fuel, rfl⟩ := Nat.exists_eq_succ_of_ne_zero (Nat.ne_of_gt (Nat.lt_of_lt_of_le enough.succ_pos hfuel))
  exact h fuel (Nat.le_of_succ_le_succ hfuel)

theorem readAs_number {lexeme : List Char} (h : IsNumber lexeme) :
    (Part.value (.number lexeme)).ReadAs lexeme := by
  obtain ⟨hne, hchars⟩ := h.chars
  have hskip : ∀ rest, skipSpace (lexeme ++ rest) = lexeme ++ rest := by
    intro rest
    cases lexeme with
    | nil => exact absurd rfl hne
    | cons c tail =>
      refine skipSpace_cons (Bool.eq_false_iff.mpr fun hspace => ?_) _
      have hnot := isNumberChar_of_isSpace hspace
      rw [hchars c List.mem_cons_self] at hnot
      cases hnot
  refine @exists_fuel _ 0 fun fuel _ rest hrest => ?_
  obtain ⟨htake, hdrop⟩ := takeWhile_number hchars hrest
  rw [value_succ, Reader.valueStep, hskip, htake, hdrop, if_pos hne]

theorem readAs_string {text chars : List Char} (h : unescape text = some chars) :
    (Part.value (.string chars)).ReadAs ('"' :: text ++ ['"']) := by
  refine @exists_fuel _ 0 fun fuel _ rest _ => ?_
  have hread : readString (text ++ '"' :: rest) = some (chars, rest) := readString_unescape h rest
  simp only [List.append_assoc, List.cons_append, List.nil_append]
  rw [value_succ, Reader.valueStep_string, hread]
  rfl

/-- A value does not begin with a character that is neither of a number nor of a form. -/
theorem value_bracket {c : Char} (hnumber : isNumberChar c = false) (hspace : isSpace c = false)
    (hother : c ∉ ['n', 't', 'f', '"', '[', '\x7b']) (fuel : ℕ) (rest : List Char) :
    (reader fuel).value (c :: rest) = none := by
  simp only [List.mem_cons, List.not_mem_nil, or_false, not_or] at hother
  obtain ⟨hn, ht, hf, hquote, hbracket, hbrace⟩ := hother
  cases fuel with
  | zero => rfl
  | succ fuel =>
    rw [value_succ, Reader.valueStep, skipSpace_cons hspace, List.takeWhile_cons, hnumber,
      if_neg (by exact fun hne => hne rfl)]
    split <;> simp_all

theorem items_closing {blank : List Char} (h : Space blank) (fuel : ℕ) (rest : List Char) :
    (reader fuel).items (blank ++ ']' :: rest) = none := by
  cases fuel with
  | zero => rfl
  | succ fuel =>
    have hvalue : (reader fuel).value (']' :: rest) = none :=
      value_bracket rfl rfl (by simp) fuel rest
    rw [items_succ, Reader.itemsStep, value_skip h, hvalue, Option.bind_none]

theorem members_closing {blank : List Char} (h : Space blank) (fuel : ℕ) (rest : List Char) :
    (reader fuel).members (blank ++ '\x7d' :: rest) = none := by
  cases fuel with
  | zero => rfl
  | succ fuel =>
    have hmember : (reader fuel).member ('\x7d' :: rest) = none := by
      cases fuel with
      | zero => rfl
      | succ fuel => rfl
    rw [members_succ, Reader.membersStep, member_skip h, hmember, Option.bind_none]

theorem readAs_emptyArray {blank : List Char} (h : Space blank) :
    (Part.value (.array [])).ReadAs ('[' :: blank ++ [']']) := by
  refine @exists_fuel _ 0 fun fuel _ rest _ => ?_
  have hitems := items_closing h fuel rest
  have hclosing : closing ']' (blank ++ ']' :: rest) = some rest := closing_append rfl h rest
  simp only [List.append_assoc, List.cons_append, List.nil_append]
  rw [value_succ, Reader.valueStep_array, hitems, hclosing]
  rfl

theorem readAs_array {text : List Char} {values : List Json} (h : (Part.items values).ReadAs text) :
    (Part.value (.array values)).ReadAs ('[' :: text ++ [']']) := by
  obtain ⟨enough, h⟩ := h
  refine @exists_fuel _ enough fun fuel hfuel rest _ => ?_
  have hitems := h fuel hfuel rest
  simp only [List.append_assoc, List.cons_append, List.nil_append]
  rw [value_succ, Reader.valueStep_array, hitems]

theorem readAs_emptyObject {blank : List Char} (h : Space blank) :
    (Part.value (.object [])).ReadAs ('\x7b' :: blank ++ ['\x7d']) := by
  refine @exists_fuel _ 0 fun fuel _ rest _ => ?_
  have hmembers := members_closing h fuel rest
  have hclosing : closing '\x7d' (blank ++ '\x7d' :: rest) = some rest := closing_append rfl h rest
  simp only [List.append_assoc, List.cons_append, List.nil_append]
  rw [value_succ, Reader.valueStep_object, hmembers, hclosing]
  rfl

theorem readAs_object {text : List Char} {fields : List (List Char × Json)}
    (h : (Part.members fields).ReadAs text) :
    (Part.value (.object fields)).ReadAs ('\x7b' :: text ++ ['\x7d']) := by
  obtain ⟨enough, h⟩ := h
  refine @exists_fuel _ enough fun fuel hfuel rest _ => ?_
  have hmembers := h fuel hfuel rest
  simp only [List.append_assoc, List.cons_append, List.nil_append]
  rw [value_succ, Reader.valueStep_object, hmembers]

theorem readAs_element {before text after : List Char} {json : Json} (hbefore : Space before)
    (h : (Part.value json).ReadAs text) (hafter : Space after) :
    (Part.element json).ReadAs (before ++ text ++ after) := by
  obtain ⟨enough, h⟩ := h
  refine ⟨enough, fun fuel hfuel rest hrest => ⟨after, hafter, ?_⟩⟩
  have hvalue := h fuel hfuel (after ++ rest) (hrest.append hafter)
  simp only [List.append_assoc]
  rw [value_skip hbefore, hvalue]

theorem readAs_lastItem {text : List Char} {json : Json} (h : (Part.element json).ReadAs text) :
    (Part.items [json]).ReadAs text := by
  obtain ⟨enough, h⟩ := h
  refine @exists_fuel _ enough fun fuel hfuel rest => ?_
  obtain ⟨after, hafter, hvalue⟩ := h fuel hfuel (']' :: rest) (Stops.cons rfl rest)
  have hclose : skipSpace (after ++ ']' :: rest) = ']' :: rest := by
    rw [skipSpace_append hafter, skipSpace_cons rfl]
  rw [items_succ, Reader.itemsStep, hvalue, Option.bind_some, hclose]
  rfl

theorem readAs_item {text rest : List Char} {json : Json} {values : List Json}
    (h : (Part.element json).ReadAs text) (hrest : (Part.items values).ReadAs rest) :
    (Part.items (json :: values)).ReadAs (text ++ ',' :: rest) := by
  obtain ⟨enough, h⟩ := h
  obtain ⟨enoughRest, hrest⟩ := hrest
  refine @exists_fuel _ (max enough enoughRest) fun fuel hfuel behind => ?_
  have hread := hrest fuel (le_of_max_le_right hfuel) behind
  obtain ⟨after, hafter, hvalue⟩ := h fuel (le_of_max_le_left hfuel)
    (',' :: (rest ++ ']' :: behind)) (Stops.cons rfl _)
  simp only [List.append_assoc, List.cons_append]
  rw [items_succ, Reader.itemsStep, hvalue, Option.bind_some, skipSpace_append hafter,
    skipSpace_cons rfl]
  change ((reader fuel).items (rest ++ ']' :: behind)).map _ = _
  rw [hread]
  rfl

theorem readAs_member {before key name between text : List Char} {json : Json}
    (hbefore : Space before) (hkey : unescape key = some name) (hbetween : Space between)
    (h : (Part.element json).ReadAs text) :
    (Part.member (name, json)).ReadAs (before ++ '"' :: key ++ '"' :: between ++ ':' :: text) := by
  obtain ⟨enough, h⟩ := h
  refine @exists_fuel _ enough fun fuel hfuel rest hrest => ?_
  obtain ⟨after, hafter, hvalue⟩ := h fuel hfuel rest hrest
  refine ⟨after, hafter, ?_⟩
  have hname := readString_unescape hkey (between ++ ':' :: (text ++ rest))
  have hcolon : closing ':' (between ++ ':' :: (text ++ rest)) = some (text ++ rest) :=
    closing_append rfl hbetween _
  simp only [List.append_assoc, List.cons_append]
  rw [member_skip hbefore, member_succ, Reader.memberStep_string, Reader.memberAfter, hname]
  simp only [Option.bind_eq_bind, Option.bind_some, hcolon, hvalue]
  rfl

theorem readAs_lastMember {text : List Char} {field : List Char × Json}
    (h : (Part.member field).ReadAs text) : (Part.members [field]).ReadAs text := by
  obtain ⟨enough, h⟩ := h
  refine @exists_fuel _ enough fun fuel hfuel rest => ?_
  obtain ⟨after, hafter, hmember⟩ := h fuel hfuel ('\x7d' :: rest) (Stops.cons rfl rest)
  have hclose : skipSpace (after ++ '\x7d' :: rest) = '\x7d' :: rest := by
    rw [skipSpace_append hafter, skipSpace_cons rfl]
  rw [members_succ, Reader.membersStep, hmember, Option.bind_some, hclose]
  rfl

theorem readAs_anotherMember {text rest : List Char} {field : List Char × Json}
    {fields : List (List Char × Json)} (h : (Part.member field).ReadAs text)
    (hrest : (Part.members fields).ReadAs rest) :
    (Part.members (field :: fields)).ReadAs (text ++ ',' :: rest) := by
  obtain ⟨enough, h⟩ := h
  obtain ⟨enoughRest, hrest⟩ := hrest
  refine @exists_fuel _ (max enough enoughRest) fun fuel hfuel behind => ?_
  have hread := hrest fuel (le_of_max_le_right hfuel) behind
  obtain ⟨after, hafter, hmember⟩ := h fuel (le_of_max_le_left hfuel)
    (',' :: (rest ++ '\x7d' :: behind)) (Stops.cons rfl _)
  simp only [List.append_assoc, List.cons_append]
  rw [members_succ, Reader.membersStep, hmember, Option.bind_some, skipSpace_append hafter,
    skipSpace_cons rfl]
  change ((reader fuel).members (rest ++ '\x7d' :: behind)).map _ = _
  rw [hread]
  rfl

theorem readAs_literal {c : Char} {name : List Char} {json : Json}
    (h : ∀ fuel rest, (reader (fuel + 1)).value (c :: name ++ rest) = some (json, rest)) :
    (Part.value json).ReadAs (c :: name) :=
  @exists_fuel _ 0 fun fuel _ rest _ => h fuel rest

/-- The reader finds whatever the grammar allows. -/
theorem Denotes.readAs {text : List Char} {part : Part} (h : Denotes text part) :
    part.ReadAs text := by
  induction h with
  | null => exact readAs_literal fun _ _ => rfl
  | yes => exact readAs_literal fun _ _ => rfl
  | no => exact readAs_literal fun _ _ => rfl
  | number h => exact readAs_number h
  | string h => exact readAs_string h
  | emptyArray h => exact readAs_emptyArray h
  | array _ ih => exact readAs_array ih
  | emptyObject h => exact readAs_emptyObject h
  | object _ ih => exact readAs_object ih
  | element hbefore _ hafter ih => exact readAs_element hbefore ih hafter
  | lastItem _ ih => exact readAs_lastItem ih
  | item _ _ ih ihRest => exact readAs_item ih ihRest
  | member hbefore hkey hbetween _ ih => exact readAs_member hbefore hkey hbetween ih
  | lastMember _ ih => exact readAs_lastMember ih
  | anotherMember _ _ ih ihRest => exact readAs_anotherMember ih ihRest

theorem DenotesText.unique {text : List Char} {json json' : Json} (h : DenotesText text json)
    (h' : DenotesText text json') : json = json' := by
  obtain ⟨enough, hread⟩ := Denotes.readAs h
  obtain ⟨enough', hread'⟩ := Denotes.readAs h'
  have hstops : Stops [] := fun _ hc => absurd hc (Option.not_mem_none _)
  obtain ⟨_, _, hvalue⟩ := hread (max enough enough') (le_max_left _ _) [] hstops
  obtain ⟨_, _, hvalue'⟩ := hread' (max enough enough') (le_max_right _ _) [] hstops
  rw [hvalue] at hvalue'
  exact (Prod.mk.inj (Option.some.inj hvalue')).1

end JsonTexts
