import Mathlib.Data.List.Forall2
import Tsvm.LoweringBlocks

set_option autoImplicit false

/-!
# The types of lowered code

Code is typed when the tag of each value follows from the instruction that produces it
and from the tags of the values in front of it. The two exceptions are variables, whose
tag is what the lowerer has last recorded for the name, and members that a compound
assignment reads, which are tagged with the type of its right side.
-/
namespace Tsvm.CodeTypes
open Ast Ir Lowering LoweringCode LoweringBlocks

/-- The types of which nothing is expected of a value. -/
def weak : IrType → Bool
  | .null | .undefined | .array _ | .named _ | .unknown => true
  | .number | .string | .boolean | .object _ => false

def buildsObject : IrInstructionKind → Bool
  | .loadConst (.object _) => true
  | _ => false

/-- The types of the values code produces. -/
def resultTypes (code : List IrInstruction) : List IrType :=
  (code.filter fun i => produces i.kind).map IrInstruction.ty

@[simp] theorem resultTypes_nil : resultTypes [] = [] := rfl

@[simp] theorem resultTypes_append (first second : List IrInstruction) :
    resultTypes (first ++ second) = resultTypes first ++ resultTypes second := by
  rw [resultTypes, List.filter_append, List.map_append]
  rfl

theorem resultTypes_cons (i : IrInstruction) (code : List IrInstruction) :
    resultTypes (i :: code) = resultTypes [i] ++ resultTypes code := resultTypes_append [i] code

@[simp] theorem resultTypes_length (code : List IrInstruction) :
    (resultTypes code).length = results code := by
  rw [resultTypes, List.length_map, results, List.countP_eq_length_filter]

theorem resultTypes_of_produces {i : IrInstruction} (h : produces i.kind = true) :
    resultTypes [i] = [i.ty] := by
  simp [resultTypes, h]

theorem resultTypes_of_not_produces {i : IrInstruction} (h : produces i.kind = false) :
    resultTypes [i] = [] := by
  simp [resultTypes, h]

/-- The right side of a compound assignment, if the code behind the value `loaded` starts
    with its operator. -/
def compoundRight (loaded : ℕ) (rest : List IrInstruction) : Option ValueId :=
  match rest.head?.map IrInstruction.kind with
  | some (.binary _ left right) => if left = loaded then some right else none
  | _ => none

theorem compoundRight_append {loaded right : ℕ} {first : List IrInstruction}
    (h : compoundRight loaded first = some right) (second : List IrInstruction) :
    compoundRight loaded (first ++ second) = some right := by
  cases first with
  | nil => cases h
  | cons instruction first => exact h

/-- The tag of an instruction behind values of the types, with `rest` behind it. -/
inductive Tagged (types : List IrType) (rest : List IrInstruction) :
    IrInstructionKind → IrType → Prop where
  | silent {kind : IrInstructionKind} {ty : IrType} (h : produces kind = false) :
      Tagged types rest kind ty
  | weak {kind : IrInstructionKind} {ty : IrType} (h : weak ty = true)
      (hkind : buildsObject kind = false) : Tagged types rest kind ty
  | number {text : String} : Tagged types rest (.loadConst (.number text)) .number
  | string {text : String} : Tagged types rest (.loadConst (.string text)) .string
  | boolean {value : Bool} : Tagged types rest (.loadConst (.boolean value)) .boolean
  | object {properties : List (String × ValueId)} {fields : List (String × IrType)}
      (h : List.Forall₂ (fun property field => property.1 = field.1 ∧
        types[property.2]? = some field.2) properties fields) :
      Tagged types rest (.loadConst (.object properties)) (.object fields)
  | loadLocal {name : String} {ty : IrType} : Tagged types rest (.loadLocal name) ty
  | loadMember {object : ValueId} {property : String} {objectType : IrType}
      (h : types[object]? = some objectType) :
      Tagged types rest (.loadMember object property) (memberType objectType property)
  | compoundLoad {object right : ValueId} {property : String} {ty : IrType}
      (hcompound : compoundRight types.length rest = some right) (h : types[right]? = some ty) :
      Tagged types rest (.loadMember object property) ty
  | binary {operator : BinaryOperator} {left right : ValueId} :
      Tagged types rest (.binary (binaryOp operator) left right) (binaryType operator)
  | compound {operator : AssignmentOperator} {left right : ValueId} {ty : IrType}
      (hleft : types[left]? = some ty) (hright : types[right]? = some ty) :
      Tagged types rest (.binary (assignmentBinaryOp operator) left right) ty

theorem Tagged.append {types : List IrType} {rest : List IrInstruction} {kind : IrInstructionKind}
    {ty : IrType} (h : Tagged types rest kind ty) (behind : List IrInstruction) :
    Tagged types (rest ++ behind) kind ty := by
  cases h with
  | silent h => exact .silent h
  | weak h hkind => exact .weak h hkind
  | number => exact .number
  | string => exact .string
  | boolean => exact .boolean
  | object h => exact .object h
  | loadLocal => exact .loadLocal
  | loadMember h => exact .loadMember h
  | compoundLoad hcompound h => exact .compoundLoad (compoundRight_append hcompound behind) h
  | binary => exact .binary
  | compound hleft hright => exact .compound hleft hright

def TypedCode : List IrType → List IrInstruction → Prop
  | _, [] => True
  | types, i :: rest => Tagged types rest i.kind i.ty ∧ TypedCode (types ++ resultTypes [i]) rest

theorem TypedCode.append {types : List IrType} {first second : List IrInstruction}
    (hfirst : TypedCode types first) (hsecond : TypedCode (types ++ resultTypes first) second) :
    TypedCode types (first ++ second) := by
  induction first generalizing types with
  | nil => simpa using hsecond
  | cons i first ih =>
    refine ⟨hfirst.1.append second, ih hfirst.2 ?_⟩
    rw [List.append_assoc, ← resultTypes_cons]
    exact hsecond

theorem typedCode_singleton {types : List IrType} {i : IrInstruction}
    (h : Tagged types [] i.kind i.ty) : TypedCode types [i] := ⟨h, trivial⟩

/-- What `TypedCode` says of one instruction. -/
theorem TypedCode.at {types : List IrType} {code : List IrInstruction} (h : TypedCode types code)
    {k : ℕ} {i : IrInstruction} (hi : code[k]? = some i) :
    Tagged (types ++ resultTypes (code.take k)) (code.drop (k + 1)) i.kind i.ty := by
  induction code generalizing types k with
  | nil => cases hi
  | cons first code ih =>
    cases k with
    | zero =>
      cases hi
      simpa using h.1
    | succ k =>
      have hrest := ih h.2 hi
      rw [List.append_assoc, ← resultTypes_cons] at hrest
      exact hrest

structure TypedExpression (types : List IrType) (lowered : Lowered) : Prop where
  typed : TypedCode types lowered.code
  value : (types ++ resultTypes lowered.code)[lowered.value]? = some lowered.ty

structure TypedExpressions (types : List IrType) (code : List IrInstruction)
    (lowered : List (ValueId × IrType)) : Prop where
  typed : TypedCode types code
  values : ∀ entry ∈ lowered, (types ++ resultTypes code)[entry.1]? = some entry.2

theorem getElem?_append_types {types : List IrType} {v : ℕ} {ty : IrType}
    (h : types[v]? = some ty) (more : List IrType) : (types ++ more)[v]? = some ty := by
  rw [List.getElem?_append_left (List.getElem?_eq_some_iff.mp h).1]
  exact h

theorem TypedExpression.ofValue {types : List IrType} {code : List IrInstruction} {next : ℕ}
    {kind : IrInstructionKind} {ty : IrType} (hcode : TypedCode types code)
    (hnext : next = types.length + results code) (hproduces : produces kind = true)
    (h : Tagged (types ++ resultTypes code) [] kind ty) (span : Span) :
    TypedExpression types (.ofValue code next kind ty span) where
  typed := hcode.append (typedCode_singleton h)
  value := by
    change (types ++ resultTypes (code ++ [⟨kind, some next, ty, span⟩]))[next]? = some ty
    rw [resultTypes_append, resultTypes_of_produces hproduces, ← List.append_assoc,
      List.getElem?_append_right (by simp [hnext]), List.length_append, resultTypes_length, hnext,
      Nat.sub_self]
    rfl

theorem TypedExpression.leaf {types : List IrType} {n : ℕ} (hn : types.length = n)
    {kind : IrInstructionKind} {ty : IrType} (hproduces : produces kind = true)
    (h : Tagged types [] kind ty) (span : Span) :
    TypedExpression types (.ofValue [] n kind ty span) := by
  refine .ofValue (show TypedCode types [] from trivial) hn.symm hproduces ?_ span
  rw [resultTypes_nil, List.append_nil]
  exact h

theorem TypedExpressions.cons {types : List IrType} {first : Lowered} {code : List IrInstruction}
    {rest : List (ValueId × IrType)} (hfirst : TypedExpression types first)
    (hrest : TypedExpressions (types ++ resultTypes first.code) code rest) :
    TypedExpressions types (first.code ++ code) ((first.value, first.ty) :: rest) where
  typed := hfirst.typed.append hrest.typed
  values := by
    intro entry hmem
    rw [resultTypes_append, ← List.append_assoc]
    rcases List.mem_cons.mp hmem with rfl | hmem
    · exact getElem?_append_types hfirst.value _
    · exact hrest.values entry hmem

theorem memberStoreCode_typed {types : List IrType} {object : ℕ} (property : String)
    (operator : AssignmentOperator) {right : Lowered} (leftSpan span : Span)
    (hnext : types.length = right.next) (hright : types[right.value]? = some right.ty) :
    let stored := memberStoreCode object property operator right leftSpan span
    TypedCode types stored.1 ∧ (types ++ resultTypes stored.1)[stored.2.2]? = some right.ty := by
  by_cases hassign : operator = .assign
  · rw [hassign]
    refine ⟨typedCode_singleton (.silent rfl), ?_⟩
    change (types ++ [])[right.value]? = _
    rw [List.append_nil]
    exact hright
  · have hloaded : (types ++ [right.ty])[right.next]? = some right.ty := by
      rw [← hnext, List.getElem?_append_right (Nat.le_refl _), Nat.sub_self]
      rfl
    have hcompound (op : IrBinaryOp) (code : List IrInstruction) :
        compoundRight types.length (⟨.binary op right.next right.value, some (right.next + 1),
          right.ty, span⟩ :: code) = some right.value := if_pos hnext.symm
    have hresult : (types ++ [right.ty, right.ty])[right.next + 1]? = some right.ty := by
      rw [← hnext, List.getElem?_append_right (Nat.le_add_right _ 1), Nat.add_sub_cancel_left]
      rfl
    cases operator with
    | assign => exact absurd rfl hassign
    | _ =>
      refine ⟨⟨.compoundLoad (hcompound _ _) hright, ?_, .silent rfl, trivial⟩, hresult⟩
      exact .compound hloaded (getElem?_append_types hright _)

theorem length_behind {types : List IrType} {n next : ℕ} {code : List IrInstruction}
    (hn : types.length = n) (hnext : next = n + results code) :
    (types ++ resultTypes code).length = next := by
  rw [List.length_append, resultTypes_length, hn, hnext]

section

variable (locals : List (String × IrType))

mutual

theorem expressionCode_typed : ∀ (expression : Expression) {types : List IrType} {n : ℕ},
    types.length = n → TypedExpression types (expressionCode locals expression n)
  | .identifier _ span, _, _, hn => .leaf hn rfl .loadLocal span
  | .number _ span, _, _, hn => .leaf hn rfl .number span
  | .string _ span, _, _, hn => .leaf hn rfl .string span
  | .boolean _ span, _, _, hn => .leaf hn rfl .boolean span
  | .null span, _, _, hn | .undefined span, _, _, hn | .error span, _, _, hn =>
    .leaf hn rfl (.weak rfl rfl) span
  | .object properties span, types, n, hn => by
    have hproperties := propertiesCode_typed properties hn
    have hnext := (propertiesCode_wellNumbered locals properties n).next
    refine .ofValue hproperties.typed (hnext.trans (by rw [hn])) rfl (.object ?_) span
    rw [List.forall₂_map_left_iff, List.forall₂_map_right_iff, List.forall₂_same]
    intro field hmem
    exact ⟨rfl, hproperties.values field.2 (List.mem_map_of_mem hmem)⟩
  | .array elements span, types, n, hn => by
    have helements := expressionsCode_typed elements hn
    have hnext := (expressionsCode_wellNumbered locals elements n).next
    exact .ofValue helements.typed (hnext.trans (by rw [hn])) rfl (.weak rfl rfl) span
  | .member object property span, types, n, hn => by
    have hobject := expressionCode_typed object hn
    have hnext := (expressionCode_wellNumbered locals object n).next
    exact .ofValue hobject.typed (hnext.trans (by rw [hn])) rfl (.loadMember hobject.value) span
  | .call callee arguments span, types, n, hn => by
    have harguments := expressionsCode_typed arguments hn
    have hnext := (expressionsCode_wellNumbered locals arguments n).next
    exact .ofValue harguments.typed (hnext.trans (by rw [hn])) rfl (.weak rfl rfl) span
  | .binary left operator right span, types, n, hn => by
    have hleft := expressionCode_typed left hn
    have hleftNext := (expressionCode_wellNumbered locals left n).next
    have hright := expressionCode_typed right (length_behind hn hleftNext)
    have hrightNext :=
      (expressionCode_wellNumbered locals right (expressionCode locals left n).next).next
    refine .ofValue (hleft.typed.append hright.typed) ?_ rfl .binary span
    rw [results_append, hn, ← Nat.add_assoc, ← hleftNext]
    exact hrightNext
  | .assignment left operator right span, types, n, hn => by
    cases left with
    | identifier name leftSpan =>
      have hright := expressionCode_typed right hn
      refine ⟨hright.typed.append (typedCode_singleton (.silent rfl)), ?_⟩
      change (types ++ resultTypes (_ ++ [_]))[_]? = _
      rw [resultTypes_append, ← List.append_assoc]
      exact getElem?_append_types hright.value _
    | member object property leftSpan =>
      have hobject := expressionCode_typed object hn
      have hobjectNext := (expressionCode_wellNumbered locals object n).next
      have hbehind := length_behind hn hobjectNext
      have hright := expressionCode_typed right hbehind
      have hrightNext :=
        (expressionCode_wellNumbered locals right (expressionCode locals object n).next).next
      obtain ⟨hstore, hvalue⟩ := @memberStoreCode_typed _ (expressionCode locals object n).value
        property operator _ leftSpan span (length_behind hbehind hrightNext) hright.value
      refine ⟨(hobject.typed.append hright.typed).append ?_, ?_⟩
      · rw [resultTypes_append, ← List.append_assoc]
        exact hstore
      · change (types ++ resultTypes (_ ++ _ ++ _))[_]? = _
        rw [resultTypes_append, resultTypes_append, ← List.append_assoc, ← List.append_assoc]
        exact hvalue
    | _ => exact expressionCode_typed right hn
  | .unary _ argument _, _, _, hn => expressionCode_typed argument hn

theorem expressionsCode_typed : ∀ (expressions : List Expression) {types : List IrType} {n : ℕ},
    types.length = n →
      let lowered := expressionsCode locals expressions n
      TypedExpressions types lowered.1 lowered.2.2
  | [], _, _, _ => ⟨trivial, nofun⟩
  | expression :: expressions, types, n, hn => by
    have hnext := (expressionCode_wellNumbered locals expression n).next
    exact .cons (expressionCode_typed expression hn)
      (expressionsCode_typed expressions (length_behind hn hnext))

theorem propertiesCode_typed : ∀ (properties : List ObjectProperty) {types : List IrType} {n : ℕ},
    types.length = n →
      let lowered := propertiesCode locals properties n
      TypedExpressions types lowered.1 (lowered.2.2.map Prod.snd)
  | [], _, _, _ => ⟨trivial, nofun⟩
  | .mk _ value _ :: properties, types, n, hn => by
    have hnext := (expressionCode_wellNumbered locals value n).next
    exact .cons (expressionCode_typed value hn) (propertiesCode_typed properties (length_behind hn hnext))

end

theorem TypedExpression.effect {types : List IrType} {lowered : Lowered}
    (h : TypedExpression types lowered) {kind : IrInstructionKind} (hkind : produces kind = false)
    (ty : IrType) (span : Span) : TypedCode types (lowered.code ++ [⟨kind, none, ty, span⟩]) :=
  h.typed.append (typedCode_singleton (.silent hkind))

theorem variableCode_typed (declaration : VariableDeclaration) (span : Span) {types : List IrType}
    {n : ℕ} (hn : types.length = n) : TypedCode types (variableCode locals declaration span n).code := by
  obtain ⟨kind, name, ty, initializer⟩ := declaration
  cases initializer with
  | some expression => exact (expressionCode_typed locals expression hn).effect rfl _ span
  | none =>
    have hleaf : TypedExpression types (.ofValue [] n (.loadConst .undefined) .undefined span) :=
      .leaf hn rfl (.weak rfl rfl) span
    exact hleaf.effect rfl _ span

theorem returnCode_typed (value : Option Expression) (span : Span) {types : List IrType} {n : ℕ}
    (hn : types.length = n) : TypedCode types (returnCode locals value span n).code := by
  cases value with
  | some expression => exact (expressionCode_typed locals expression hn).effect rfl _ span
  | none => exact typedCode_singleton (.silent rfl)

theorem testCode_typed (test : Expression) (k : ℕ) {types : List IrType} {n : ℕ}
    (hn : types.length = n) : TypedCode types (testCode locals test k n) :=
  (expressionCode_typed locals test hn).effect rfl _ test.span

end

end Tsvm.CodeTypes
