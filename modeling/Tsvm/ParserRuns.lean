import Mathlib.Data.List.Basic
import Tsvm.Parsing

set_option autoImplicit false

/-!
# Runs of the parser

A run only moves the cursor on and adds reports. `Sound` states what a run without
a report has read, `Runs` that such a run reads some tokens. Both have a rule for
each way the parser is composed.
-/
namespace Tsvm.Parsing
open Ast Lexing

/-- The kind of the token behind a text. -/
abbrev Next := Option TokenKind

def kindOf (w : List Token) : Next := w.head?.map Token.kind

/-- The kind in front of `w` when `next` is behind it. -/
def follow (w : List Token) (next : Next) : Next := (kindOf w).or next

def lastEnd : List Token → Position → Position
  | [], fallback => fallback
  | token :: w, _ => lastEnd w token.span.end

@[simp] theorem follow_nil (next : Next) : follow [] next = next := rfl

@[simp] theorem follow_cons (token : Token) (w : List Token) (next : Next) :
    follow (token :: w) next = some token.kind := rfl

@[simp] theorem kindOf_cons (token : Token) (w : List Token) :
    kindOf (token :: w) = some token.kind := rfl

theorem kindOf_append (w r : List Token) : kindOf (w ++ r) = follow w (kindOf r) := by
  cases w with
  | nil => rfl
  | cons token w => rfl

@[simp] theorem lastEnd_nil (fallback : Position) : lastEnd [] fallback = fallback := rfl

@[simp] theorem lastEnd_cons (token : Token) (w : List Token) (fallback : Position) :
    lastEnd (token :: w) fallback = lastEnd w token.span.end := rfl

@[simp] theorem lastEnd_append (x w : List Token) (fallback : Position) :
    lastEnd (x ++ w) fallback = lastEnd w (lastEnd x fallback) := by
  induction x generalizing fallback with
  | nil => rfl
  | cons token x ih => exact ih _

namespace Parser

def rest (s : Parser) : List Token := s.tokens.drop s.cursor

theorem peek_eq (s : Parser) : s.peek = s.rest.head? := by
  rw [peek, rest, List.head?_drop]

theorem peekKind_eq (s : Parser) : s.peekKind = kindOf s.rest := by
  rw [peekKind, peek_eq, kindOf]

theorem check_iff {s : Parser} {kind : TokenKind} :
    s.check kind = true ↔ kindOf s.rest = some kind := by
  rw [check, peekKind_eq]
  exact decide_eq_true_iff

theorem isAtEnd_iff {s : Parser} : s.isAtEnd = true ↔ s.rest = [] := by
  rw [isAtEnd, rest, List.drop_eq_nil_iff]
  exact decide_eq_true_iff

theorem remaining_eq (s : Parser) : s.remaining = s.rest.length := by
  rw [remaining, rest, List.length_drop]

/-- `t` comes from `s` by reading `w`, without a report. -/
structure Reads (s : Parser) (w : List Token) (t : Parser) : Prop where
  rest : s.rest = w ++ t.rest
  tokens : t.tokens = s.tokens
  cursor : t.cursor = s.cursor + w.length
  diagnostics : t.diagnostics = s.diagnostics

/-- `t` is no earlier than `s` and has all its reports. -/
structure Advances (s t : Parser) : Prop where
  tokens : t.tokens = s.tokens
  cursor : s.cursor ≤ t.cursor
  within : t.cursor ≤ max s.cursor s.tokens.length
  diagnostics : s.diagnostics <+: t.diagnostics

theorem Advances.refl (s : Parser) : s.Advances s :=
  ⟨rfl, Nat.le_refl _, Nat.le_max_left _ _, List.prefix_rfl⟩

theorem Advances.trans {s t u : Parser} (h : s.Advances t) (h' : t.Advances u) : s.Advances u where
  tokens := h'.tokens.trans h.tokens
  cursor := Nat.le_trans h.cursor h'.cursor
  within := by
    have hs := h.within
    have ht := h'.within
    rw [h.tokens] at ht
    omega
  diagnostics := h.diagnostics.trans h'.diagnostics

namespace Reads

variable {s t u : Parser} {w x y : List Token}

theorem nil (s : Parser) : s.Reads [] s := ⟨rfl, rfl, rfl, rfl⟩

theorem trans (h : s.Reads x t) (h' : t.Reads y u) : s.Reads (x ++ y) u where
  rest := by rw [h.rest, h'.rest, List.append_assoc]
  tokens := h'.tokens.trans h.tokens
  cursor := by rw [h'.cursor, h.cursor, List.length_append, Nat.add_assoc]
  diagnostics := h'.diagnostics.trans h.diagnostics

theorem eq (h : s.Reads w t) : t = { s with cursor := s.cursor + w.length } := by
  cases t
  have htokens := h.tokens
  have hcursor := h.cursor
  have hdiagnostics := h.diagnostics
  simp only at htokens hcursor hdiagnostics
  rw [htokens, hcursor, hdiagnostics]

theorem unique (h : s.Reads x t) (h' : s.Reads y t) : x = y :=
  List.append_cancel_right (h.rest.symm.trans h'.rest)

theorem split (h : s.Reads (x ++ y) u) : ∃ t, s.Reads x t ∧ t.Reads y u := by
  have hrest : s.rest.drop x.length = y ++ u.rest := by
    rw [h.rest, List.append_assoc, List.drop_left]
  have hdrop : { s with cursor := s.cursor + x.length }.rest = s.rest.drop x.length := by
    rw [Parser.rest, Parser.rest, List.drop_drop]
  refine ⟨{ s with cursor := s.cursor + x.length }, ⟨?_, rfl, rfl, rfl⟩, ⟨?_, h.tokens, ?_,
    h.diagnostics⟩⟩
  · rw [hdrop, hrest, h.rest, List.append_assoc]
  · rw [hdrop, hrest]
  · rw [h.cursor, List.length_append, Nat.add_assoc]

theorem uncons {token : Token} (h : s.Reads (token :: w) u) :
    ∃ t, s.Reads [token] t ∧ t.Reads w u := split (x := [token]) h

theorem follow (h : s.Reads w t) : kindOf s.rest = follow w (kindOf t.rest) := by
  rw [h.rest, kindOf_append]

theorem first {token : Token} (h : s.Reads (token :: w) t) : kindOf s.rest = some token.kind :=
  h.follow

theorem nil_eq (h : s.Reads [] t) : t = s := by
  rw [h.eq]
  rfl

theorem remaining (h : s.Reads w t) : s.remaining = w.length + t.remaining := by
  rw [remaining_eq, remaining_eq, h.rest, List.length_append]

theorem le (h : s.Reads w t) : t.remaining ≤ s.remaining := by
  have := h.remaining
  omega

theorem lt {token : Token} (h : s.Reads (token :: w) t) : t.remaining < s.remaining := by
  have hremaining := h.remaining
  rw [List.length_cons] at hremaining
  omega

theorem peek {token : Token} (h : s.Reads (token :: w) t) : s.peek = some token := by
  rw [peek_eq, h.rest]
  rfl

theorem advances (h : s.Reads w t) : s.Advances t where
  tokens := h.tokens
  cursor := by
    have := h.cursor
    omega
  within := by
    have hrest := congrArg List.length h.rest
    rw [Parser.rest, List.length_drop, List.length_append] at hrest
    have := h.cursor
    omega
  diagnostics := ⟨[], (List.append_nil _).trans h.diagnostics.symm⟩

theorem currentStart {token : Token} (h : s.Reads (token :: w) t) :
    s.currentStart = token.span.start := by
  rw [Parser.currentStart, h.peek]

theorem previousEnd (h : s.Reads w t) (fallback : Position) :
    t.previousEnd fallback = lastEnd w (s.previousEnd fallback) := by
  cases List.eq_nil_or_concat' w with
  | inl hnil =>
    subst hnil
    rw [h.nil_eq, lastEnd_nil]
  | inr hconcat =>
    obtain ⟨init, token, rfl⟩ := hconcat
    have hcursor : t.cursor = s.cursor + init.length + 1 := by
      rw [h.cursor, List.length_append]
      rfl
    have hget : t.tokens[s.cursor + init.length]? = some token := by
      have hrest := h.rest
      rw [Parser.rest] at hrest
      rw [h.tokens, ← List.getElem?_drop, hrest]
      simp
    rw [Parser.previousEnd, hcursor]
    simp only [hget, lastEnd_append, lastEnd_cons, lastEnd_nil]

end Reads

/-- What was read between two states one of which is later than the other. -/
theorem Advances.reads {s t : Parser} (h : s.Advances t) (hclean : t.diagnostics = s.diagnostics) :
    ∃ w, s.Reads w t := by
  refine ⟨s.rest.take (t.cursor - s.cursor), ?_, h.tokens, ?_, hclean⟩
  · have hdrop : t.rest = s.rest.drop (t.cursor - s.cursor) := by
      rw [rest, rest, h.tokens, List.drop_drop, Nat.add_sub_cancel' h.cursor]
    rw [hdrop, List.take_append_drop]
  · have hwithin := h.within
    have hcursor := h.cursor
    rw [List.length_take, rest, List.length_drop]
    omega

theorem Reads.between {s t u : Parser} {w : List Token} (h : s.Reads w u) (hst : s.Advances t)
    (htu : t.Advances u) : ∃ x y, w = x ++ y ∧ s.Reads x t ∧ t.Reads y u := by
  have hlow := hst.diagnostics
  have hhigh := htu.diagnostics
  rw [h.diagnostics] at hhigh
  have heq : t.diagnostics = s.diagnostics :=
    hhigh.eq_of_length (Nat.le_antisymm hhigh.length_le hlow.length_le)
  obtain ⟨x, hx⟩ := hst.reads heq
  obtain ⟨y, hy⟩ := htu.reads (h.diagnostics.trans heq.symm)
  exact ⟨x, y, h.unique (hx.trans hy), hx, hy⟩

end Parser

variable {α β : Type} {s : Parser}

theorem Parser.reads_of_rest {token : Token} {r : List Token} (h : s.rest = token :: r) :
    s.Reads [token] { s with cursor := s.cursor + 1 } := by
  refine ⟨?_, rfl, rfl, rfl⟩
  have hrest : { s with cursor := s.cursor + 1 }.rest = s.rest.drop 1 := by
    rw [Parser.rest, Parser.rest, List.drop_drop]
  rw [hrest, h]
  rfl

theorem Parser.reads_of_kind {kind : TokenKind} (h : kindOf s.rest = some kind) :
    ∃ a t, s.Reads [⟨kind, a⟩] t := by
  cases hrest : s.rest with
  | nil =>
    rw [hrest] at h
    exact nomatch h
  | cons token r =>
    rw [hrest, kindOf_cons, Option.some_inj] at h
    subst h
    exact ⟨token.span, _, Parser.reads_of_rest hrest⟩

section Equations

variable {t : Parser} {token : Token} {kind : TokenKind} {a : Span}

theorem advance_run (h : s.Reads [token] t) : advance s = (some token, t) := by
  have hpeek : s.peek = some token := h.peek
  simp only [advance, bind, StateT.bind, get, getThe, MonadStateOf.get, StateT.get, pure, hpeek, h.eq]
  rfl

theorem advance_run_none (h : s.rest = []) : advance s = (none, s) := by
  have hpeek : s.peek = none := by rw [Parser.peek_eq, h, List.head?_nil]
  simp only [advance, bind, StateT.bind, get, getThe, MonadStateOf.get, StateT.get, pure, hpeek]
  rfl

theorem check_of_reads (h : s.Reads [⟨kind, a⟩] t) : s.check kind = true :=
  Parser.check_iff.mpr h.follow

theorem matchKind_run (h : s.Reads [⟨kind, a⟩] t) : matchKind kind s = (true, t) := by
  change (if s.check kind then (do let _ ← advance; pure true) else pure false : Parse Bool) s = _
  rw [if_pos (check_of_reads h)]
  change (true, (advance s).2) = _
  rw [advance_run h]

theorem matchKind_run_false (h : kindOf s.rest ≠ some kind) : matchKind kind s = (false, s) := by
  change (if s.check kind then (do let _ ← advance; pure true) else pure false : Parse Bool) s = _
  rw [if_neg fun hcheck => h (Parser.check_iff.mp hcheck)]
  rfl

theorem expect_run (label : String) (h : s.Reads [⟨kind, a⟩] t) :
    expect kind label s = ((), t) := by
  change (if s.check kind then (do let _ ← advance) else errorHere _ : Parse Unit) s = _
  rw [if_pos (check_of_reads h)]
  change ((), (advance s).2) = _
  rw [advance_run h]

theorem expectAny_run (label : String) (h : s.Reads [token] t) :
    expectAny label s = (token, t) := by
  simp only [expectAny, bind, StateT.bind, advance_run h]
  rfl

theorem consumeIdentifier_run (label : String) {name : String}
    (h : s.Reads [⟨.identifier name, a⟩] t) :
    consumeIdentifier label s = (some name, t) := by
  simp only [consumeIdentifier, bind, StateT.bind, advance_run h]
  rfl

end Equations

/-- The name that a member of an object or of an object type may have. -/
def propertyName : TokenKind → Option String
  | .identifier name => some name
  | .stringLiteral name => some name
  | .numberLiteral name => some name
  | _ => none

theorem consumePropertyName_run (label : String) {token : Token} {name : String} {t : Parser}
    (hname : propertyName token.kind = some name) (h : s.Reads [token] t) :
    consumePropertyName label s = (some name, t) := by
  simp only [consumePropertyName, bind, StateT.bind, advance_run h]
  obtain ⟨kind, span⟩ := token
  cases kind with
  | identifier name' | stringLiteral name' | numberLiteral name' =>
    rw [propertyName, Option.some_inj] at hname
    subst hname
    rfl
  | _ => cases hname

/-- A run of `f` from `s` moves on, and without a report what it read meets `Q`. -/
structure Sound (s : Parser) (f : Parse α) (Q : List Token → α → Parser → Prop) : Prop where
  advances : s.Advances (f s).2
  clean : ∀ w, s.Reads w (f s).2 → Q w (f s).1 (f s).2

namespace Sound

variable {f : Parse α} {g : α → Parse β} {P : List Token → α → Parser → Prop}
  {Q : List Token → β → Parser → Prop}

theorem mono {P' : List Token → α → Parser → Prop} (h : Sound s f P)
    (himp : ∀ w v t, s.Reads w t → P w v t → P' w v t) : Sound s f P' :=
  ⟨h.advances, fun w hw => himp w _ _ hw (h.clean w hw)⟩

theorem of_run {v : α} {t : Parser} {w : List Token} (hrun : f s = (v, t)) (hw : s.Reads w t)
    (hP : P w v t) : Sound s f P where
  advances := by
    rw [hrun]
    exact hw.advances
  clean x hx := by
    rw [hrun] at hx ⊢
    rw [hx.unique hw]
    exact hP

theorem pure {v : α} (h : P [] v s) : Sound s (pure v) P := of_run rfl (.nil s) h

theorem bind (hf : Sound s f P) (hg : ∀ v t, Sound t (g v) fun y u t' =>
    ∀ x, s.Reads x t → P x v t → Q (x ++ y) u t') : Sound s (f >>= g) Q where
  advances := hf.advances.trans (hg _ _).advances
  clean w hw := by
    obtain ⟨x, y, rfl, hx, hy⟩ := hw.between hf.advances (hg (f s).1 (f s).2).advances
    exact (hg _ _).clean y hy x hx (hf.clean x hx)

theorem of_eq (f' : Parse α) (heq : f s = f' s) (h : Sound s f' P) : Sound s f P := by
  refine ⟨?_, fun w hw => ?_⟩
  · rw [heq]
    exact h.advances
  · rw [heq] at hw ⊢
    exact h.clean w hw

theorem get_bind {g : Parser → Parse β} (h : Sound s (g s) Q) : Sound s (get >>= g) Q :=
  .of_eq (g s) rfl h

theorem pure_bind {v : α} (h : Sound s (g v) Q) : Sound s (Pure.pure v >>= g) Q :=
  .of_eq (g v) rfl h

/-- A step that reads a token before the rest. -/
theorem step {token : Token} {v : α} {t : Parser} (hrun : f s = (v, t)) (hw : s.Reads [token] t)
    (hg : Sound t (g v) fun y u t' => s.Reads [token] t → Q (token :: y) u t') :
    Sound s (f >>= g) Q := by
  have hbind : (f >>= g) s = g v t := by
    change g (f s).1 (f s).2 = _
    rw [hrun]
  refine ⟨?_, fun w hread => ?_⟩
  · rw [hbind]
    exact hw.advances.trans hg.advances
  · rw [hbind] at hread ⊢
    obtain ⟨x, y, rfl, hx, hy⟩ := hread.between hw.advances hg.advances
    rw [hx.unique hw]
    exact hg.clean y hy hw

theorem errorAt (span : Span) (message : String) {P : List Token → Unit → Parser → Prop} :
    Sound s (errorAt span message) P where
  advances := ⟨rfl, Nat.le_refl _, Nat.le_max_left _ _, List.prefix_append _ _⟩
  clean w hw := by
    have hlen := congrArg List.length hw.diagnostics
    have heq : (Parsing.errorAt span message s).2.diagnostics =
        s.diagnostics ++ [⟨message, span⟩] := rfl
    rw [heq, List.length_append, List.length_singleton] at hlen
    omega

theorem errorAt_bind {span : Span} {message : String} {g : Unit → Parse β}
    (h : ∀ t, Sound t (g ()) fun _ _ _ => True) :
    Sound s (Parsing.errorAt span message >>= g) Q := by
  refine .bind (P := fun _ _ _ => False) (.errorAt span message) fun _ t => (h t).mono ?_
  exact fun _ _ _ _ _ _ _ hfalse => hfalse.elim

theorem errorHere (message : String) {P : List Token → Unit → Parser → Prop} :
    Sound s (errorHere message) P := .get_bind (.errorAt _ _)

theorem errorHere_bind {message : String} {g : Unit → Parse β}
    (h : ∀ t, Sound t (g ()) fun _ _ _ => True) :
    Sound s (Parsing.errorHere message >>= g) Q := by
  refine .bind (P := fun _ _ _ => False) (.errorHere message) fun _ t => (h t).mono ?_
  exact fun _ _ _ _ _ _ _ hfalse => hfalse.elim

theorem advance : Sound s advance fun _ _ _ => True := by
  cases hrest : s.rest with
  | nil => exact .of_run (advance_run_none hrest) (.nil s) trivial
  | cons token r =>
    have hread := Parser.reads_of_rest hrest
    exact .of_run (advance_run hread) hread trivial

theorem advance_bind {g : Option Token → Parse β} (hnone : Sound s (g none) fun _ _ _ => False)
    (hsome : ∀ token t, Sound t (g (some token)) fun y u t' =>
      s.Reads [token] t → Q (token :: y) u t') : Sound s (Parsing.advance >>= g) Q := by
  cases hrest : s.rest with
  | nil =>
    have hbind : (Parsing.advance >>= g) s = g none s := by
      change g (Parsing.advance s).1 (Parsing.advance s).2 = _
      rw [advance_run_none hrest]
    refine ⟨?_, fun w hw => ?_⟩
    · rw [hbind]
      exact hnone.advances
    · rw [hbind] at hw
      exact (hnone.clean w hw).elim
  | cons token r =>
    have hread := Parser.reads_of_rest hrest
    exact .step (advance_run hread) hread (hsome token _)

theorem advance_bind_of_kind {kind : TokenKind} {g : Option Token → Parse β}
    (hkind : kindOf s.rest = some kind) (h : ∀ a t, Sound t (g (some ⟨kind, a⟩)) fun y u t' =>
      s.Reads [⟨kind, a⟩] t → Q (⟨kind, a⟩ :: y) u t') : Sound s (Parsing.advance >>= g) Q := by
  obtain ⟨a, t, hread⟩ := Parser.reads_of_kind hkind
  exact .step (advance_run hread) hread (h a t)

theorem matchKind_bind {kind : TokenKind} {g : Bool → Parse β}
    (htrue : ∀ a t, Sound t (g true) fun y u t' => s.Reads [⟨kind, a⟩] t → Q (⟨kind, a⟩ :: y) u t')
    (hfalse : kindOf s.rest ≠ some kind → Sound s (g false) Q) :
    Sound s (matchKind kind >>= g) Q := by
  by_cases hkind : kindOf s.rest = some kind
  · obtain ⟨a, t, hread⟩ := Parser.reads_of_kind hkind
    exact .step (matchKind_run hread) hread (htrue a t)
  · have hbind : (matchKind kind >>= g) s = g false s := by
      change g (matchKind kind s).1 (matchKind kind s).2 = _
      rw [matchKind_run_false hkind]
    refine ⟨?_, fun w hw => ?_⟩
    · rw [hbind]
      exact (hfalse hkind).advances
    · rw [hbind] at hw ⊢
      exact (hfalse hkind).clean w hw

theorem expect_bind {kind : TokenKind} {label : String} {g : Unit → Parse β}
    (h : ∀ a t, Sound t (g ()) fun y u t' => s.Reads [⟨kind, a⟩] t → Q (⟨kind, a⟩ :: y) u t') :
    Sound s (expect kind label >>= g) Q := by
  by_cases hkind : kindOf s.rest = some kind
  · obtain ⟨a, t, hread⟩ := Parser.reads_of_kind hkind
    exact .step (expect_run label hread) hread (h a t)
  · have herror : Sound s (expect kind label) fun _ _ _ => False := by
      have hrun : expect kind label s = Parsing.errorHere ("expected " ++ label) s := by
        change (if s.check kind then (do let _ ← Parsing.advance) else Parsing.errorHere _ : Parse Unit) s = _
        rw [if_neg fun hcheck => hkind (Parser.check_iff.mp hcheck)]
      have hreport := Sound.errorHere (s := s) ("expected " ++ label) (P := fun _ _ _ => False)
      refine ⟨?_, fun w hw => ?_⟩
      · rw [hrun]
        exact hreport.advances
      · rw [hrun] at hw
        exact hreport.clean w hw
    refine herror.bind fun _ t => ?_
    exact (h ⟨⟨0, 0, 0⟩, ⟨0, 0, 0⟩⟩ t).mono fun _ _ _ _ _ _ _ hfalse => hfalse.elim

theorem expectAny_bind_of_kind {kind : TokenKind} {label : String} {g : Token → Parse β}
    (hkind : kindOf s.rest = some kind) (h : ∀ a t, Sound t (g ⟨kind, a⟩) fun y u t' =>
      s.Reads [⟨kind, a⟩] t → Q (⟨kind, a⟩ :: y) u t') : Sound s (expectAny label >>= g) Q := by
  obtain ⟨a, t, hread⟩ := Parser.reads_of_kind hkind
  exact .step (expectAny_run label hread) hread (h a t)

theorem consumeIdentifier_bind {label : String} {g : Option String → Parse β}
    (h : ∀ v t, Sound t (g v) fun y u t' => ∀ name a, v = some name →
      s.Reads [⟨.identifier name, a⟩] t → Q (⟨.identifier name, a⟩ :: y) u t') :
    Sound s (consumeIdentifier label >>= g) Q := by
  have hname : Sound s (consumeIdentifier label) fun w v _ =>
      ∃ name a, v = some name ∧ w = [⟨.identifier name, a⟩] := by
    refine .advance_bind (.errorHere_bind fun t => .pure trivial) fun token t => ?_
    obtain ⟨kind, span⟩ := token
    cases kind with
    | identifier name => exact .pure fun _ => ⟨name, span, rfl, rfl⟩
    | _ => exact .errorAt_bind fun t => .pure trivial
  refine hname.bind fun v t => (h v t).mono fun y u t' _ hQ x hx hw => ?_
  obtain ⟨name, a, hv, rfl⟩ := hw
  exact hQ name a hv hx

theorem consumePropertyName_bind {label : String} {g : Option String → Parse β}
    (h : ∀ v t, Sound t (g v) fun y u t' => ∀ name token, v = some name →
      propertyName token.kind = some name → s.Reads [token] t → Q (token :: y) u t') :
    Sound s (consumePropertyName label >>= g) Q := by
  have hname : Sound s (consumePropertyName label) fun w v _ =>
      ∃ name token, v = some name ∧ propertyName token.kind = some name ∧ w = [token] := by
    refine .advance_bind (.errorHere_bind fun t => .pure trivial) fun token t => ?_
    obtain ⟨kind, span⟩ := token
    cases kind with
    | identifier name | stringLiteral name | numberLiteral name =>
      exact .pure fun _ => ⟨name, _, rfl, rfl, rfl⟩
    | _ => exact .errorAt_bind fun t => .pure trivial
  refine hname.bind fun v t => (h v t).mono fun y u t' _ hQ x hx hw => ?_
  obtain ⟨name, token, hv, hkind, rfl⟩ := hw
  exact hQ name token hv hkind hx

end Sound

inductive Semicolon : List Token → Next → Prop where
  | absent {next : Next} : next ≠ some .semicolon → Semicolon [] next
  | present (a : Span) (next : Next) : Semicolon [⟨.semicolon, a⟩] next

theorem Sound.consumeOptionalSemicolon : Sound s consumeOptionalSemicolon fun w v t =>
    Semicolon w (kindOf t.rest) ∧
      ((v = none ∧ w = []) ∨ ∃ a, w = [⟨.semicolon, a⟩] ∧ v = some a.end) := by
  refine .matchKind_bind (fun a t => ?_) fun hkind => ?_
  · refine .get_bind (.pure fun hread => ⟨.present a _, .inr ⟨a, rfl, ?_⟩⟩)
    rw [hread.previousEnd]
    rfl
  · exact .pure ⟨.absent hkind, .inl ⟨rfl, rfl⟩⟩

/-- The end of what was read up to the optional semicolon. -/
theorem Sound.closing_bind {start : Position} {k : Position → Parse β}
    {Q : List Token → β → Parser → Prop}
    (h : ∀ «end» t, Sound t (k «end») fun y u t' => ∀ semi, s.Reads semi t →
      Semicolon semi (kindOf t.rest) → «end» = lastEnd semi (s.previousEnd start) →
      Q (semi ++ y) u t') :
    Sound s (Parsing.consumeOptionalSemicolon >>= fun closed => endOrPrevious closed start >>= k) Q := by
  refine Sound.consumeOptionalSemicolon.bind fun v t => ?_
  cases v with
  | some position =>
    refine (h position t).mono fun y u t' _ hQ x hx hsemi => ?_
    obtain ⟨hsemi, ⟨hnone, _⟩ | ⟨a, rfl, hend⟩⟩ := hsemi
    · exact nomatch hnone
    · exact hQ _ hx hsemi (Option.some_inj.mp hend)
  | none =>
    refine .of_eq (k (t.previousEnd start)) rfl ?_
    refine (h (t.previousEnd start) t).mono fun y u t' _ hQ x hx hsemi => ?_
    exact hQ x hx hsemi.1 (hx.previousEnd start)

theorem run_bind {f : Parse α} {g : α → Parse β} {v : α} {t : Parser} {r : β × Parser}
    (hf : f s = (v, t)) (hg : g v t = r) : (f >>= g) s = r := by
  change g (f s).1 (f s).2 = r
  rw [hf]
  exact hg

theorem run_pure {g : α → Parse β} {v : α} {r : β × Parser} (hg : g v s = r) :
    (pure v >>= g) s = r := hg

theorem run_get {g : Parser → Parse β} {r : β × Parser} (hg : g s s = r) : (get >>= g) s = r := hg

theorem consumeOptionalSemicolon_run {t : Parser} {a : Span} (hread : s.Reads [⟨.semicolon, a⟩] t) :
    consumeOptionalSemicolon s = (some a.end, t) := by
  refine run_bind (matchKind_run hread) (run_get ?_)
  change (some (t.previousEnd t.fallbackPosition), t) = _
  rw [hread.previousEnd]
  rfl

theorem consumeOptionalSemicolon_run_none (hkind : kindOf s.rest ≠ some .semicolon) :
    consumeOptionalSemicolon s = (none, s) :=
  run_bind (matchKind_run_false hkind) rfl

theorem semicolon_run {semi : List Token} {t : Parser} (hread : s.Reads semi t)
    (hsemi : Semicolon semi (kindOf t.rest)) :
    ∃ closed, consumeOptionalSemicolon s = (closed, t) := by
  cases hsemi with
  | absent hkind =>
    rw [hread.nil_eq] at hkind ⊢
    exact ⟨none, consumeOptionalSemicolon_run_none hkind⟩
  | present a next => exact ⟨some a.end, consumeOptionalSemicolon_run hread⟩

theorem closing_run {start : Position} {k : Position → Parse β} {t : Parser} {semi : List Token}
    {r : β × Parser} (hread : s.Reads semi t) (hsemi : Semicolon semi (kindOf t.rest))
    (hk : k (lastEnd semi (s.previousEnd start)) t = r) :
    (consumeOptionalSemicolon >>= fun closed => endOrPrevious closed start >>= k) s = r := by
  cases hsemi with
  | absent hkind =>
    have hs := hread.nil_eq
    rw [hs] at hkind hk
    refine run_bind (consumeOptionalSemicolon_run_none hkind) ?_
    exact run_bind rfl hk
  | present a next =>
    refine run_bind (consumeOptionalSemicolon_run hread) ?_
    exact run_bind rfl hk

section Loops

variable {close : TokenKind} {turn : Parse (Option α × Bool)}

/-- The tokens of the turns of a loop and what the turns return. -/
inductive Listed (close : TokenKind) (T : List Token → Next → Option α × Bool → Prop) :
    List Token → Next → List α → Prop where
  | nil : Listed close T [] (some close) []
  | stop {w next item} : w ≠ [] → kindOf w ≠ some close → T w next (item, false) →
    Listed close T w next item.toList
  | more {w w' next item items} : w ≠ [] → kindOf w ≠ some close →
    T w (follow w' next) (item, true) → Listed close T w' next items →
    Listed close T (w ++ w') next (item.toList ++ items)

theorem loopUntil_sound {n : ℕ} {T : List Token → Next → Option α × Bool → Prop}
    (hturn : ∀ s, Sound s turn fun w v t => s.remaining < n → w ≠ [] ∧ T w (kindOf t.rest) v)
    (turns : ℕ) (items : List α) (s : Parser) :
    Sound s (loopUntil close turn turns items) fun w v t => s.remaining < turns →
      s.remaining < n → kindOf t.rest = some close →
      ∃ new, v = items ++ new ∧ Listed close T w (kindOf t.rest) new := by
  induction turns generalizing items s with
  | zero => exact .pure fun hturns => absurd hturns (Nat.not_lt_zero _)
  | succ turns ih =>
    refine .get_bind ?_
    by_cases hstop : (s.check close || s.isAtEnd) = true
    · rw [if_pos hstop]
      refine .pure fun _ _ hclose => ⟨[], (List.append_nil _).symm, ?_⟩
      rw [hclose]
      exact .nil
    · rw [if_neg hstop]
      have hguard : ∀ {w t}, s.Reads w t → w ≠ [] → kindOf w ≠ some close := by
        intro w t hread hne hkind
        refine hstop (Bool.or_eq_true_iff.mpr (.inl (Parser.check_iff.mpr ?_)))
        rw [hread.follow, follow, hkind]
        rfl
      refine (hturn s).bind fun v t => ?_
      obtain ⟨item, goOn⟩ := v
      cases goOn with
      | false =>
        refine .pure fun x hread hx _ hn hclose => ⟨item.toList, rfl, ?_⟩
        obtain ⟨hne, hT⟩ := hx hn
        rw [List.append_nil]
        exact .stop hne (hguard hread hne) hT
      | true =>
        refine (ih (items ++ item.toList) t).mono fun y u t' hy hrest x hread hx hturns hn hclose => ?_
        obtain ⟨hne, hT⟩ := hx hn
        have hremaining := hread.remaining
        have hpos := List.length_pos_iff.mpr hne
        obtain ⟨new, rfl, hnew⟩ := hrest (by omega) (by omega) hclose
        refine ⟨item.toList ++ new, List.append_assoc _ _ _, .more hne (hguard hread hne) ?_ hnew⟩
        rw [← hy.follow]
        exact hT

theorem listUntil_sound {n : ℕ} {T : List Token → Next → Option α × Bool → Prop}
    (hturn : ∀ s, Sound s turn fun w v t => s.remaining < n → w ≠ [] ∧ T w (kindOf t.rest) v)
    (s : Parser) : Sound s (listUntil close turn) fun w v t => s.remaining < n →
      kindOf t.rest = some close → Listed close T w (kindOf t.rest) v := by
  refine .get_bind ((loopUntil_sound hturn _ [] s).mono fun w v t _ hloop hn hclose => ?_)
  obtain ⟨new, rfl, hnew⟩ := hloop (Nat.lt_succ_self _) hn hclose
  exact hnew

/-- The turns may read any number of tokens. -/
theorem listUntil_sound_of_turns {T : List Token → Next → Option α × Bool → Prop}
    (hturn : ∀ s, Sound s turn fun w v t => w ≠ [] ∧ T w (kindOf t.rest) v) (s : Parser) :
    Sound s (listUntil close turn) fun w v t =>
      kindOf t.rest = some close → Listed close T w (kindOf t.rest) v := by
  have hturn' : ∀ s', Sound s' turn fun w v t =>
      s'.remaining < s.remaining + 1 → w ≠ [] ∧ T w (kindOf t.rest) v :=
    fun s' => (hturn s').mono fun _ _ _ _ hT _ => hT
  exact (listUntil_sound hturn' s).mono fun _ _ _ _ hlist => hlist (Nat.lt_succ_self _)

theorem loopUntil_close {turns : ℕ} {items : List α} (hclose : kindOf s.rest = some close) :
    loopUntil close turn (turns + 1) items s = (items, s) := by
  refine run_get ?_
  rw [if_pos (Bool.or_eq_true_iff.mpr (.inl (Parser.check_iff.mpr hclose)))]
  rfl

theorem loopUntil_turn {turns : ℕ} {items : List α} {w : List Token} {item : Option α} {goOn : Bool}
    {t : Parser} {r : List α × Parser} (hread : s.Reads w t) (hne : w ≠ [])
    (hclose : kindOf w ≠ some close) (hturn : turn s = ((item, goOn), t))
    (hrest : (if goOn then loopUntil close turn turns (items ++ item.toList)
      else pure (items ++ item.toList) : Parse (List α)) t = r) :
    loopUntil close turn (turns + 1) items s = r := by
  have hkind : kindOf s.rest = kindOf w := by
    rw [hread.follow, follow]
    cases w with
    | nil => exact absurd rfl hne
    | cons token w => rfl
  have hstop : ¬ (s.check close || s.isAtEnd) = true := by
    intro hstop
    obtain hcheck | hend := Bool.or_eq_true_iff.mp hstop
    · exact hclose (hkind.symm.trans (Parser.check_iff.mp hcheck))
    · have hrest := hread.rest
      rw [Parser.isAtEnd_iff.mp hend] at hrest
      exact hne (List.append_eq_nil_iff.mp hrest.symm).1
  refine run_get ?_
  rw [if_neg hstop]
  refine run_bind hturn ?_
  cases goOn <;> exact hrest

theorem loopUntil_run {n : ℕ} {T : List Token → Next → Option α × Bool → Prop}
    (hturn : ∀ s w v t, s.remaining < n → s.Reads w t → T w (kindOf t.rest) v → turn s = (v, t))
    {w : List Token} {next : Next} {new : List α} (hlisted : Listed close T w next new)
    {turns : ℕ} (items : List α) {s u : Parser} (hread : s.Reads w u) (hnext : kindOf u.rest = next)
    (hturns : s.remaining < turns) (hn : s.remaining < n) :
    loopUntil close turn turns items s = (items ++ new, u) := by
  induction hlisted generalizing turns items s with
  | nil =>
    obtain ⟨turns, rfl⟩ := Nat.exists_eq_add_of_lt hturns
    have hs := hread.nil_eq
    subst hs
    rw [List.append_nil]
    exact loopUntil_close hnext
  | stop hne hclose hT =>
    obtain ⟨turns, rfl⟩ := Nat.exists_eq_add_of_lt hturns
    subst hnext
    exact loopUntil_turn hread hne hclose (hturn s _ _ u hn hread hT) rfl
  | more hne hclose hT hlisted ih =>
    obtain ⟨turns', rfl⟩ := Nat.exists_eq_add_of_lt hturns
    subst hnext
    obtain ⟨t, ht, hu⟩ := hread.split
    have hremaining := ht.remaining
    have hpos := List.length_pos_iff.mpr hne
    refine loopUntil_turn ht hne hclose (hturn s _ _ t hn ht (by rw [hu.follow]; exact hT)) ?_
    rw [if_pos rfl, ← List.append_assoc]
    exact ih _ hu rfl (by omega) (by omega)

theorem listUntil_run {n : ℕ} {T : List Token → Next → Option α × Bool → Prop}
    (hturn : ∀ s w v t, s.remaining < n → s.Reads w t → T w (kindOf t.rest) v → turn s = (v, t))
    {w : List Token} {new : List α} {u : Parser} (hread : s.Reads w u) (hn : s.remaining < n)
    (hlisted : Listed close T w (kindOf u.rest) new) : listUntil close turn s = (new, u) :=
  run_get (loopUntil_run hturn hlisted [] hread rfl (Nat.lt_succ_self _) hn)

/-- The turns may read any number of tokens. -/
theorem listUntil_run_of_turns {T : List Token → Next → Option α × Bool → Prop}
    (hturn : ∀ (s : Parser) w v (t : Parser), s.Reads w t → T w (kindOf t.rest) v → turn s = (v, t))
    {w : List Token} {new : List α} {u : Parser} (hread : s.Reads w u)
    (hlisted : Listed close T w (kindOf u.rest) new) : listUntil close turn s = (new, u) :=
  listUntil_run (fun s w v t _ => hturn s w v t) hread (Nat.lt_succ_self _) hlisted

end Loops

end Tsvm.Parsing
