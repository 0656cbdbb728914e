import Tsvm.CApi
import Tsvm.JsonTexts

set_option autoImplicit false

/-!
# The result envelope as JSON

What a foreign parser finds in the texts of the C interface: the envelope of an output, the
characters of a string, and the value that was rendered. `Displays` is what the standard
library's printing of `f64` is relied on for.
-/
namespace Tsvm.CApi
open Interop Interpreter JsonTexts RuntimeValues

def hexDigits (n : ℕ) : List Char :=
  List.replicate (4 - (Nat.toDigits 16 n).length) '0' ++ Nat.toDigits 16 n

/-- Control characters have four hexadecimal digits, of which their code is the code unit. -/
theorem hexDigits_codeUnit : ∀ n < 160, ∃ a b c d, hexDigits n = [a, b, c, d] ∧
    codeUnit a b c d = some n ∧ ∀ digit ∈ hexDigits n, isControl digit = false := by
  have hall : ∀ n < 160, (hexDigits n).length = 4 ∧
      codeUnit ((hexDigits n).getD 0 '0') ((hexDigits n).getD 1 '0') ((hexDigits n).getD 2 '0')
        ((hexDigits n).getD 3 '0') = some n ∧ (hexDigits n).all (fun c => !isControl c) = true := by
    decide +kernel
  intro n hn
  obtain ⟨hlength, hunit, hcontrol⟩ := hall n hn
  obtain ⟨a, b, c, d, hdigits⟩ := List.length_eq_four.mp hlength
  refine ⟨a, b, c, d, hdigits, ?_, fun digit hdigit => ?_⟩
  · rw [hdigits] at hunit
    exact hunit
  · exact Bool.not_eq_true' _ ▸ List.all_eq_true.mp hcontrol digit hdigit

theorem isControl_lt {ch : Char} (h : isControl ch = true) : ch.toNat < 160 := by
  simp only [isControl, Bool.or_eq_true, Bool.and_eq_true, decide_eq_true_eq] at h
  omega

theorem unescape_printable {c : Char} (hquote : c ≠ '"') (hslash : c ≠ '\\')
    (hcontrol : isControl c = false) (text : List Char) :
    unescape (c :: text) = (unescape text).map (c :: ·) := by
  refine unescape_plain (fun hspecial => ?_) text
  simp only [isControl, Bool.or_eq_false_iff, decide_eq_false_iff_not] at hcontrol
  rcases hspecial with hc | hc | hc
  · exact hquote hc
  · exact hslash hc
  · exact hcontrol.1 hc

/-- What stands for one character is read back as that character. -/
theorem unescape_escapeCharacter (ch : Char) (text : List Char) :
    unescape (escapeCharacter ch ++ text) = (unescape text).map (ch :: ·) := by
  fun_cases escapeCharacter ch with
  | case1 => exact unescape_simple rfl text
  | case2 => exact unescape_simple rfl text
  | case3 => exact unescape_simple rfl text
  | case4 => exact unescape_simple rfl text
  | case5 => exact unescape_simple rfl text
  | case6 => exact unescape_simple rfl text
  | case7 => exact unescape_simple rfl text
  | case8 _ _ _ _ _ _ _ _ hcontrol digits =>
    obtain ⟨a, b, c, d, hdigits, hunit, _⟩ := hexDigits_codeUnit ch.toNat (isControl_lt hcontrol)
    have hlt := isControl_lt hcontrol
    change unescape ('\\' :: 'u' :: (hexDigits ch.toNat ++ text)) = _
    rw [hdigits]
    exact (unescape_codeUnit hunit (by omega) text).trans (by rw [Char.ofNat_toNat])
  | case9 => exact unescape_printable ‹_› ‹_› (Bool.eq_false_iff.mpr ‹_›) text

theorem unescape_flatMap (chars : List Char) :
    unescape (chars.flatMap escapeCharacter) = some chars := by
  induction chars with
  | nil => rfl
  | cons c chars ih =>
    rw [List.flatMap_cons, unescape_escapeCharacter, ih]
    rfl

theorem isControl_escapeCharacter (ch : Char) : ∀ c ∈ escapeCharacter ch, isControl c = false := by
  fun_cases escapeCharacter ch with
  | case8 _ _ _ _ _ _ _ _ hcontrol digits =>
    obtain ⟨_, _, _, _, _, _, hdigits⟩ := hexDigits_codeUnit ch.toNat (isControl_lt hcontrol)
    intro c hc
    rcases List.mem_cons.mp hc with rfl | hc
    · rfl
    · rcases List.mem_cons.mp hc with rfl | hc
      · rfl
      · exact hdigits c hc
  | case9 _ _ _ _ _ _ _ _ hcontrol =>
    intro c hc
    rw [List.mem_singleton.mp hc]
    exact Bool.eq_false_iff.mpr hcontrol
  | _ => simp [isControl]

theorem toList_jsonString (value : String) :
    (jsonString value).toList = '"' :: value.toList.flatMap escapeCharacter ++ ['"'] :=
  String.toList_ofList

/-- No raw control character. -/
theorem jsonString_printable (value : String) :
    ∀ c ∈ (jsonString value).toList, isControl c = false := by
  intro c hc
  rw [toList_jsonString] at hc
  simp only [List.cons_append, List.mem_cons, List.mem_append, List.mem_flatMap, List.not_mem_nil,
    or_false] at hc
  rcases hc with rfl | ⟨ch, _, hc⟩ | rfl
  · rfl
  · exact isControl_escapeCharacter ch c hc
  · rfl

theorem jsonString_denotes (value : String) :
    Denotes (jsonString value).toList (.value (.string value.toList)) := by
  rw [toList_jsonString]
  exact Denotes.string (unescape_flatMap value.toList)

theorem head_toDigits (n : ℕ) (h : 0 < n) : (Nat.toDigits 10 n).head? ≠ some '0' := by
  induction n using Nat.strong_induction_on with
  | _ n ih =>
    by_cases hsmall : n < 10
    · rw [Nat.toDigits_of_lt_base hsmall, List.head?_cons, ne_eq, Option.some.injEq,
        Nat.digitChar_eq_zero]
      omega
    · rw [Nat.toDigits_of_base_le (by omega) (by omega),
        List.head?_append_of_ne_nil _ Nat.toDigits_ne_nil]
      exact ih (n / 10) (by omega) (by omega)

theorem isInteger_repr (n : ℕ) : IsInteger n.repr.toList := by
  rw [Nat.toList_repr]
  by_cases hzero : n = 0
  · left
    rw [hzero]
    rfl
  · right
    have hdigits : ∀ c ∈ Nat.toDigits 10 n, c.isDigit = true := fun c hc =>
      Nat.isDigit_of_mem_toDigits (by omega) (le_refl 10) hc
    exact ⟨⟨Nat.toDigits_ne_nil, hdigits⟩, head_toDigits n (by omega)⟩

theorem isNumber_of_isInteger {sign integer : List Char} (hsign : sign = [] ∨ sign = ['-'])
    (hinteger : IsInteger integer) : IsNumber (sign ++ integer) := by
  refine ⟨sign, integer, [], [], hsign, hinteger, Or.inl rfl, Or.inl rfl, ?_⟩
  rw [List.append_nil, List.append_nil]

theorem isNumber_toString (n : ℕ) : IsNumber (toString n).toList :=
  isNumber_of_isInteger (Or.inl rfl) (isInteger_repr n)

theorem isNumber_int (n : ℤ) : IsNumber (toString n).toList := by
  rw [Int.toString_eq_repr, Int.repr_eq_if]
  by_cases hn : 0 ≤ n
  · rw [if_pos hn]
    exact isNumber_of_isInteger (Or.inl rfl) (isInteger_repr n.toNat)
  · rw [if_neg hn, String.toList_append]
    exact isNumber_of_isInteger (Or.inr rfl) (isInteger_repr (-n).toNat)

theorem toList_jsonObject (fields : List String) :
    (jsonObject fields).toList = '\x7b' :: [','].intercalate (fields.map String.toList) ++ ['\x7d'] := by
  rw [jsonObject, String.toList_append, String.toList_append, String.toList_intercalate]
  rfl

theorem toList_jsonArray (values : List String) :
    (jsonArray values).toList = '[' :: [','].intercalate (values.map String.toList) ++ [']'] := by
  rw [jsonArray, String.toList_append, String.toList_append, String.toList_intercalate]
  rfl

/-- The texts of a list one by one. -/
def AllDenote {α : Type} (part : α → Part) (texts : List String) (found : List α) : Prop :=
  List.Forall₂ (fun text one => Denotes text.toList (part one)) texts found

theorem AllDenote.joined {α : Type} {part : α → Part} {whole : List α → Part}
    (hlast : ∀ {text a}, Denotes text (part a) → Denotes text (whole [a]))
    (hanother : ∀ {text rest a found}, Denotes text (part a) → Denotes rest (whole found) →
      Denotes (text ++ ',' :: rest) (whole (a :: found)))
    {texts : List String} {found : List α} (h : AllDenote part texts found) (hne : found ≠ []) :
    Denotes ([','].intercalate (texts.map String.toList)) (whole found) := by
  induction h with
  | nil => exact absurd rfl hne
  | @cons text one texts found hone hall ih =>
    cases hall with
    | nil =>
      rw [List.map_cons, List.map_nil, List.intercalate_singleton]
      exact hlast hone
    | cons hone' hall =>
      have hrest := ih (List.cons_ne_nil _ _)
      rw [List.map_cons, List.intercalate_cons_of_ne_nil (by simp), List.append_assoc]
      exact hanother hone hrest

theorem jsonObject_denotes {texts : List String} {fields : List (List Char × Json)}
    (h : AllDenote .member texts fields) :
    Denotes (jsonObject texts).toList (.value (.object fields)) := by
  rw [toList_jsonObject]
  by_cases hne : fields = []
  · subst hne
    cases h
    exact Denotes.emptyObject Space.nil
  · exact Denotes.object (h.joined .lastMember .anotherMember hne)

theorem jsonArray_denotes {texts : List String} {values : List Json}
    (h : AllDenote .element texts values) :
    Denotes (jsonArray texts).toList (.value (.array values)) := by
  rw [toList_jsonArray]
  by_cases hne : values = []
  · subst hne
    cases h
    exact Denotes.emptyArray Space.nil
  · exact Denotes.array (h.joined .lastItem .item hne)

theorem member_denotes {name : List Char} {head text : String} {json : Json}
    (hhead : head.toList = '"' :: name ++ ['"', ':']) (hname : unescape name = some name)
    (h : Denotes text.toList (.value json)) :
    Denotes (head ++ text).toList (.member (name, json)) := by
  have hmember := Denotes.member Space.nil hname Space.nil (DenotesText.of_value h)
  rw [String.toList_append, hhead]
  simpa using hmember

/-- A member whose name is the string of a field. -/
theorem fieldText_denotes (name : String) {text : String} {json : Json}
    (h : Denotes text.toList (.value json)) :
    Denotes (jsonString name ++ ":" ++ text).toList (.member (name.toList, json)) := by
  have hmember := Denotes.member Space.nil (unescape_flatMap name.toList) Space.nil
    (DenotesText.of_value h)
  rw [String.toList_append, String.toList_append, toList_jsonString]
  simpa using hmember

def tag (kind : String) (fields : List (List Char × Json)) : Json :=
  .object (("kind".toList, .string kind.toList) :: fields)

section Values

variable {ν : Type} [F64 ν] (isFinite : ν → Bool)

mutual

/-- The JSON of a value, as a parser sees it. -/
def tagged : Value ν → Json
  | .number value =>
    if isFinite value then tag "number" [("value".toList, .number (F64.display value).toList)]
    else tag "number" [("value".toList, .null),
      ("non_finite".toList, .string (F64.display value).toList)]
  | .string value => tag "string" [("value".toList, .string value.toList)]
  | .boolean value => tag "boolean" [("value".toList, .boolean value)]
  | .null => tag "null" []
  | .undefined => tag "undefined" []
  | .object fields => tag "object" [("value".toList, .object (taggedFields fields))]
  | .array values => tag "array" [("value".toList, .array (taggedValues values))]

def taggedFields : List (String × Value ν) → List (List Char × Json)
  | [] => []
  | (name, value) :: fields => (name.toList, tagged value) :: taggedFields fields

def taggedValues : List (Value ν) → List Json
  | [] => []
  | value :: values => tagged value :: taggedValues values

end

/-- The standard library's printing of `f64`: a JSON number for each finite value, and one text
    for each value. -/
structure Displays : Prop where
  finite_number : ∀ value : ν, isFinite value = true → IsNumber (F64.display value).toList
  finite_injective : ∀ a b : ν, isFinite a = true → isFinite b = true →
    F64.display a = F64.display b → a = b
  nonFinite_text : ∀ value : ν, isFinite value = false →
    F64.display value ∈ ["NaN", "inf", "-inf"]
  nonFinite_injective : ∀ a b : ν, isFinite a = false → isFinite b = false →
    F64.display a = F64.display b → a = b

variable {isFinite}

theorem tag_denotes {kind head : String} {texts : List String} {fields : List (List Char × Json)}
    (hhead : head = "\"kind\":" ++ jsonString kind) (h : AllDenote .member texts fields) :
    Denotes (jsonObject (head :: texts)).toList (.value (tag kind fields)) := by
  have hkind : Denotes head.toList (.member ("kind".toList, .string kind.toList)) := by
    rw [hhead]
    exact member_denotes rfl rfl (jsonString_denotes kind)
  exact jsonObject_denotes (List.Forall₂.cons hkind h)

theorem value_denotes {text : String} {json : Json} (h : Denotes text.toList (.value json)) :
    AllDenote .member ["\"value\":" ++ text] [("value".toList, json)] :=
  List.Forall₂.cons (member_denotes rfl rfl h) List.Forall₂.nil

theorem renderValue_number (hdisplays : Displays isFinite) (value : ν) :
    Denotes (renderValue isFinite (.number value)).toList
      (.value (tagged isFinite (.number value))) := by
  rw [renderValue, tagged]
  by_cases hfinite : isFinite value = true
  · rw [if_pos hfinite, if_pos hfinite]
    have hnumber := Denotes.number (hdisplays.finite_number value hfinite)
    exact tag_denotes rfl (value_denotes hnumber)
  · rw [if_neg hfinite, if_neg hfinite]
    have hnull : Denotes "\"value\":null".toList (.member ("value".toList, .null)) := by
      have hsplit : "\"value\":null" = "\"value\":" ++ "null" := rfl
      rw [hsplit]
      exact member_denotes rfl rfl Denotes.null
    have htext : Denotes ("\"non_finite\":" ++ jsonString (F64.display value)).toList
        (.member ("non_finite".toList, .string (F64.display value).toList)) :=
      member_denotes rfl rfl (jsonString_denotes _)
    exact tag_denotes rfl (.cons hnull (.cons htext .nil))

theorem renderValue_boolean (value : Bool) :
    Denotes (renderValue isFinite (.boolean value)).toList
      (.value (tagged isFinite (.boolean value))) := by
  rw [renderValue, tagged]
  refine tag_denotes rfl (value_denotes ?_)
  cases value with
  | false => exact Denotes.no
  | true => exact Denotes.yes

theorem renders (hdisplays : Displays isFinite) :
    (∀ value, Denotes (renderValue isFinite value).toList (.value (tagged isFinite value))) ∧
    (∀ values, AllDenote .element (renderValues isFinite values) (taggedValues isFinite values)) ∧
    ∀ fields, AllDenote .member (renderFields isFinite fields) (taggedFields isFinite fields) := by
  apply renderValue.mutual_induct isFinite
  case case1 => exact fun value _ => renderValue_number hdisplays value
  case case2 => exact fun value _ => renderValue_number hdisplays value
  case case3 =>
    intro value
    rw [renderValue, tagged]
    exact tag_denotes rfl (value_denotes (jsonString_denotes value))
  case case4 => exact renderValue_boolean
  case case5 =>
    rw [renderValue, tagged]
    exact tag_denotes rfl List.Forall₂.nil
  case case6 =>
    rw [renderValue, tagged]
    exact tag_denotes rfl List.Forall₂.nil
  case case7 =>
    intro fields hfields
    rw [renderValue, tagged]
    exact tag_denotes rfl (value_denotes (jsonObject_denotes hfields))
  case case8 =>
    intro values hvalues
    rw [renderValue, tagged]
    exact tag_denotes rfl (value_denotes (jsonArray_denotes hvalues))
  case case9 => exact List.Forall₂.nil
  case case10 =>
    intro name value fields hvalue hfields
    exact List.Forall₂.cons (fieldText_denotes name hvalue) hfields
  case case11 => exact List.Forall₂.nil
  case case12 =>
    intro value values hvalue hvalues
    exact List.Forall₂.cons (DenotesText.of_value hvalue) hvalues

def kindText : Value ν → String
  | .number _ => "number"
  | .string _ => "string"
  | .boolean _ => "boolean"
  | .null => "null"
  | .undefined => "undefined"
  | .object _ => "object"
  | .array _ => "array"

theorem tag_inj {kind kind' : String} {fields fields' : List (List Char × Json)}
    (h : tag kind fields = tag kind' fields') : kind = kind' ∧ fields = fields' := by
  obtain ⟨hkind, hfields⟩ := List.cons.inj (Json.object.inj h)
  exact ⟨String.toList_injective (Json.string.inj (Prod.mk.inj hkind).2), hfields⟩

theorem value_inj {json json' : Json}
    (h : [("value".toList, json)] = [("value".toList, json')]) : json = json' :=
  (Prod.mk.inj (List.cons.inj h).1).2

theorem tagged_kindText (value : Value ν) :
    ∃ fields, tagged isFinite value = tag (kindText value) fields := by
  cases value with
  | number value =>
    rw [tagged]
    split <;> exact ⟨_, rfl⟩
  | string value => exact ⟨_, rfl⟩
  | boolean value => exact ⟨_, rfl⟩
  | null => exact ⟨_, rfl⟩
  | undefined => exact ⟨_, rfl⟩
  | object fields => exact ⟨_, rfl⟩
  | array values => exact ⟨_, rfl⟩

theorem kindText_eq {v w : Value ν} (h : tagged isFinite v = tagged isFinite w) :
    kindText v = kindText w := by
  obtain ⟨fields, hv⟩ := @tagged_kindText ν _ isFinite v
  obtain ⟨fields', hw⟩ := @tagged_kindText ν _ isFinite w
  rw [hv, hw] at h
  exact (tag_inj h).1

theorem tagged_number_inj (hdisplays : Displays isFinite) {a b : ν}
    (h : tagged isFinite (.number a) = tagged isFinite (.number b)) : a = b := by
  rw [tagged, tagged] at h
  by_cases ha : isFinite a = true
  · rw [if_pos ha] at h
    by_cases hb : isFinite b = true
    · rw [if_pos hb] at h
      have htext := Json.number.inj (value_inj (tag_inj h).2)
      exact hdisplays.finite_injective a b ha hb (String.toList_injective htext)
    · rw [if_neg hb] at h
      have hlength := congrArg List.length (tag_inj h).2
      cases hlength
  · rw [if_neg ha] at h
    by_cases hb : isFinite b = true
    · rw [if_pos hb] at h
      have hlength := congrArg List.length (tag_inj h).2
      cases hlength
    · rw [if_neg hb] at h
      have htexts := (List.cons.inj (List.cons.inj (tag_inj h).2).2).1
      have htext := Json.string.inj (Prod.mk.inj htexts).2
      exact hdisplays.nonFinite_injective a b (Bool.eq_false_iff.mpr ha) (Bool.eq_false_iff.mpr hb)
        (String.toList_injective htext)

theorem tagged_inj (hdisplays : Displays isFinite) :
    (∀ v w, tagged isFinite v = tagged isFinite w → v = w) ∧
    (∀ vs ws, taggedValues isFinite vs = taggedValues isFinite ws → vs = ws) ∧
    ∀ fs gs, taggedFields isFinite fs = taggedFields isFinite gs → fs = gs := by
  have hnumber : ∀ a w, tagged isFinite (.number a) = tagged isFinite w → .number a = w := by
    intro a w h
    have hkind := kindText_eq h
    cases w <;> first | exact congrArg _ (tagged_number_inj hdisplays h) | (simp [kindText] at hkind)
  apply renderValue.mutual_induct isFinite
  case case1 => exact fun a _ => hnumber a
  case case2 => exact fun a _ => hnumber a
  case case3 =>
    intro a w h
    have hkind := kindText_eq h
    cases w with
    | string b =>
      have htext := Json.string.inj (value_inj (tag_inj h).2)
      rw [String.toList_injective htext]
    | _ => simp [kindText] at hkind
  case case4 =>
    intro a w h
    have hkind := kindText_eq h
    cases w with
    | boolean b => rw [Json.boolean.inj (value_inj (tag_inj h).2)]
    | _ => simp [kindText] at hkind
  case case5 =>
    intro w h
    have hkind := kindText_eq h
    cases w with
    | null => rfl
    | _ => simp [kindText] at hkind
  case case6 =>
    intro w h
    have hkind := kindText_eq h
    cases w with
    | undefined => rfl
    | _ => simp [kindText] at hkind
  case case7 =>
    intro fields ih w h
    have hkind := kindText_eq h
    cases w with
    | object fields' => rw [ih fields' (Json.object.inj (value_inj (tag_inj h).2))]
    | _ => simp [kindText] at hkind
  case case8 =>
    intro values ih w h
    have hkind := kindText_eq h
    cases w with
    | array values' => rw [ih values' (Json.array.inj (value_inj (tag_inj h).2))]
    | _ => simp [kindText] at hkind
  case case9 =>
    intro gs h
    cases gs with
    | nil => rfl
    | cons g gs => cases h
  case case10 =>
    intro name value fields ihValue ihFields gs h
    cases gs with
    | nil => cases h
    | cons g gs =>
      obtain ⟨hmember, hfields⟩ := List.cons.inj h
      obtain ⟨hname, hvalue⟩ := Prod.mk.inj hmember
      rw [ihFields gs hfields, ihValue g.2 hvalue, String.toList_injective hname]
  case case11 =>
    intro ws h
    cases ws with
    | nil => rfl
    | cons w ws => cases h
  case case12 =>
    intro value values ihValue ihValues ws h
    cases ws with
    | nil => cases h
    | cons w ws =>
      obtain ⟨hvalue, hvalues⟩ := List.cons.inj h
      rw [ihValue w hvalue, ihValues ws hvalues]

def count (n : ℕ) : Json := .number (toString n).toList

def envelope (isFinite : ν → Bool) (output : ExecutionOutput ν) : Json :=
  .object [("generated_javascript".toList, .boolean false), ("status".toList, .string "ok".toList),
    ("console".toList, .array (taggedValues isFinite output.console)),
    ("return_value".toList, tagged isFinite output.returnValue),
    ("heap".toList, .object [("live_objects".toList, count output.heap.liveObjects),
      ("allocated_slots".toList, count output.heap.allocatedSlots)])]

theorem renderSuccess_denotes (hdisplays : Displays isFinite) (output : ExecutionOutput ν) :
    Denotes (renderSuccess isFinite output).toList (.value (envelope isFinite output)) := by
  obtain ⟨hvalue, hvalues, _⟩ := renders hdisplays
  have hgenerated : Denotes "\"generated_javascript\":false".toList
      (.member ("generated_javascript".toList, .boolean false)) := by
    have hsplit : "\"generated_javascript\":false" = "\"generated_javascript\":" ++ "false" := rfl
    rw [hsplit]
    exact member_denotes rfl rfl Denotes.no
  have hstatus : Denotes "\"status\":\"ok\"".toList (.member ("status".toList, .string "ok".toList)) := by
    have hsplit : "\"status\":\"ok\"" = "\"status\":" ++ jsonString "ok" := rfl
    rw [hsplit]
    exact member_denotes rfl rfl (jsonString_denotes "ok")
  have hheap : Denotes (jsonObject ["\"live_objects\":" ++ toString output.heap.liveObjects,
      "\"allocated_slots\":" ++ toString output.heap.allocatedSlots]).toList
      (.value (.object [("live_objects".toList, count output.heap.liveObjects),
        ("allocated_slots".toList, count output.heap.allocatedSlots)])) := by
    refine jsonObject_denotes (List.Forall₂.cons ?_ (List.Forall₂.cons ?_ List.Forall₂.nil))
    · exact member_denotes rfl rfl
        (Denotes.number (isNumber_toString output.heap.liveObjects))
    · exact member_denotes rfl rfl
        (Denotes.number (isNumber_toString output.heap.allocatedSlots))
  refine jsonObject_denotes (List.Forall₂.cons hgenerated (List.Forall₂.cons hstatus
    (List.Forall₂.cons ?_ (List.Forall₂.cons ?_ (List.Forall₂.cons ?_ List.Forall₂.nil)))))
  · exact member_denotes rfl rfl
      (jsonArray_denotes (hvalues output.console))
  · exact member_denotes rfl rfl (hvalue output.returnValue)
  · exact member_denotes rfl rfl hheap

theorem denotesText_iff {text : List Char} {json : Json} (h : Denotes text (.value json))
    (found : Json) : DenotesText text found ↔ found = json :=
  ⟨fun hfound => hfound.unique (DenotesText.of_value h), fun heq => heq ▸ DenotesText.of_value h⟩

/-- The envelope is one JSON text whatever the output, a string denotes its characters and
    nothing else, and a decoder of what a rendered value denotes gets the value back. -/
theorem resultEnvelope_unambiguous (hdisplays : Displays isFinite) :
    (∀ output found, DenotesText (renderSuccess isFinite output).toList found ↔
      found = envelope isFinite output) ∧
    (∀ value found, DenotesText (jsonString value).toList found ↔ found = .string value.toList) ∧
    (∀ value, ∀ c ∈ (jsonString value).toList, isControl c = false) ∧
    Function.Injective (renderValue isFinite) ∧
    ∃ decode : Json → Option (Value ν), ∀ value, ∃ json, decode json = some value ∧
      ∀ found, DenotesText (renderValue isFinite value).toList found ↔ found = json := by
  have hrenders := (renders hdisplays).1
  have hinj := (tagged_inj hdisplays).1
  refine ⟨fun output => denotesText_iff (renderSuccess_denotes hdisplays output),
    fun value => denotesText_iff (jsonString_denotes value), jsonString_printable, ?_, ?_⟩
  · intro v w h
    have hv := hrenders v
    rw [h] at hv
    exact hinj v w ((DenotesText.of_value hv).unique (DenotesText.of_value (hrenders w)))
  · have hinjective : Function.Injective (tagged isFinite) := hinj
    exact ⟨Function.partialInv (tagged isFinite), fun value => ⟨tagged isFinite value,
      Function.partialInv_left hinjective value, denotesText_iff (hrenders value)⟩⟩

end Values

/-- Integers and `NaN`, which stays `NaN` under every operation. -/
instance : F64 (Option ℤ) where
  parse text := if text = "NaN" then .ok none else some <$> F64.parse text
  display
    | none => "NaN"
    | some value => toString value
  add := Option.map₂ (· + ·)
  sub := Option.map₂ (· - ·)
  mul := Option.map₂ (· * ·)
  div left right := if right = some 0 then none else Option.map₂ Int.tdiv left right
  rem left right := if right = some 0 then none else Option.map₂ Int.tmod left right
  eq left right := (Option.map₂ F64.eq left right).getD false
  lt left right := (Option.map₂ F64.lt left right).getD false
  le left right := (Option.map₂ F64.le left right).getD false
  gt left right := (Option.map₂ F64.gt left right).getD false
  ge left right := (Option.map₂ F64.ge left right).getD false
  zero := some 0

theorem optionInt_displays : Displays (Option.isSome : Option ℤ → Bool) where
  finite_number value h := by
    obtain ⟨n, rfl⟩ := Option.isSome_iff_exists.mp h
    exact isNumber_int n
  finite_injective a b ha hb h := by
    obtain ⟨m, rfl⟩ := Option.isSome_iff_exists.mp ha
    obtain ⟨n, rfl⟩ := Option.isSome_iff_exists.mp hb
    exact congrArg some (Int.repr_injective h)
  nonFinite_text value h := by
    rw [Option.isSome_eq_false_iff, Option.isNone_iff_eq_none] at h
    rw [h]
    decide
  nonFinite_injective a b ha hb _ := by
    rw [Option.isSome_eq_false_iff, Option.isNone_iff_eq_none] at ha hb
    rw [ha, hb]

/-- A string with a quote as a name, a number, and one that JSON has no notation for. -/
def nestedValue : Value (Option ℤ) :=
  .object [("\"", .array [.undefined, .number (some (-1)), .number none])]

def nestedText : String :=
  "\x7b\"kind\":\"object\",\"value\":\x7b\"\\\"\":\x7b\"kind\":\"array\",\"value\":[" ++
  "\x7b\"kind\":\"undefined\"\x7d,\x7b\"kind\":\"number\",\"value\":-1\x7d," ++
  "\x7b\"kind\":\"number\",\"value\":null,\"non_finite\":\"NaN\"\x7d]\x7d\x7d\x7d"

theorem resultEnvelope_nested : ∃ decode : Json → Option (Value (Option ℤ)), ∃ json,
    decode json = some nestedValue ∧
      ∀ found, DenotesText nestedText.toList found ↔ found = json := by
  obtain ⟨_, _, _, _, decode, hdecode⟩ := resultEnvelope_unambiguous optionInt_displays
  have hrendered : renderValue Option.isSome nestedValue = nestedText := by
    decide +kernel
  obtain ⟨json, hjson, hfound⟩ := hdecode nestedValue
  rw [hrendered] at hfound
  exact ⟨decode, json, hjson, hfound⟩

end Tsvm.CApi
