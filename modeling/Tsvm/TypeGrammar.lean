import Tsvm.ParserRuns

set_option autoImplicit false

/-!
# The grammar of types

The tokens of a type and the node they are read as, in front of a next token.
The parser reads exactly the derivations of this grammar without a report.
-/
namespace Tsvm.Grammar
open Ast Lexing Parsing

/-- The parts of a type; array suffixes close an inner type that starts somewhere. -/
inductive TypeForm where
  | type
  | members
  | suffixes (start : Position) (inner : TypeNode)

abbrev TypeForm.Value : TypeForm → Type
  | .type | .suffixes _ _ => TypeNode
  | .members => List TypeMember

def simpleType (token : Token) : Option TypeNode :=
  match token.kind with
  | .numberType => some (.number token.span)
  | .stringType => some (.string token.span)
  | .booleanType => some (.boolean token.span)
  | .null => some (.null token.span)
  | .undefined => some (.undefined token.span)
  | .identifier name => some (.named name token.span)
  | _ => none

inductive Separator : List Token → Next → Prop where
  | absent {next : Next} : next ≠ some .semicolon → next ≠ some .comma → Separator [] next
  | semicolon (a : Span) (next : Next) : Separator [⟨.semicolon, a⟩] next
  | comma (a : Span) (next : Next) : Separator [⟨.comma, a⟩] next

inductive Types : (c : TypeForm) → List Token → Next → c.Value → Prop where
  | simple {token w next} {ty v : TypeNode} : simpleType token = some ty →
    Types (.suffixes token.span.start ty) w next v → Types .type (token :: w) next v
  | object {a b : Span} {w w' next members} {v : TypeNode} : Types .members w (some .rightBrace) members →
    Types (.suffixes a.start (.object members ⟨a.start, b.end⟩)) w' next v →
    Types .type (⟨.leftBrace, a⟩ :: (w ++ ⟨.rightBrace, b⟩ :: w')) next v
  | done {start ty next} : next ≠ some .leftBracket → Types (.suffixes start ty) [] next ty
  | array {start ty} {a b : Span} {w next} {v : TypeNode} :
    Types (.suffixes start (.array ty ⟨start, b.end⟩)) w next v →
    Types (.suffixes start ty) (⟨.leftBracket, a⟩ :: ⟨.rightBracket, b⟩ :: w) next v
  | nil : Types .members [] (some .rightBrace) []
  | member {token : Token} {name a w sep w' next} {ty : TypeNode} {members} : propertyName token.kind = some name →
    Types .type w (follow sep (follow w' next)) ty → Separator sep (follow w' next) →
    Types .members w' next members →
    Types .members (token :: ⟨.colon, a⟩ :: (w ++ (sep ++ w'))) next
      (.mk name ty ⟨token.span.start, lastEnd sep (lastEnd w a.end)⟩ ::
        members)

/-- A member of an object type on its own. -/
inductive MemberTokens : List Token → Next → Option TypeMember × Bool → Prop where
  | mk {token : Token} {name a w sep next} {ty : TypeNode} : propertyName token.kind = some name →
    Types .type w (follow sep next) ty → Separator sep next →
    MemberTokens (token :: ⟨.colon, a⟩ :: (w ++ sep)) next
      (some (.mk name ty
        ⟨token.span.start, lastEnd sep (lastEnd w a.end)⟩), true)

theorem types_of_listed {w : List Token} {next : Next} {members : List TypeMember}
    (h : Listed .rightBrace MemberTokens w next members) : Types .members w next members := by
  induction h with
  | nil => exact .nil
  | stop _ _ hmember => cases hmember
  | more _ _ hmember _ ih =>
    cases hmember with
    | mk hname hty hsep =>
      simpa using Types.member hname hty hsep ih

theorem arraySuffixes_sound (start : Position) (turns : ℕ) (ty : TypeNode) (s : Parser) :
    Sound s (arraySuffixes start turns ty) fun w v t =>
      s.remaining < turns → Types (.suffixes start ty) w (kindOf t.rest) v := by
  induction turns generalizing ty s with
  | zero => exact .pure fun hturns => absurd hturns (Nat.not_lt_zero _)
  | succ turns ih =>
    refine .matchKind_bind (fun a t => .expect_bind fun b t' => .get_bind ?_) fun hkind => ?_
    · refine (ih _ t').mono fun w v u _ hw hb ha hturns => ?_
      have hlt := ha.lt
      have hle := hb.le
      rw [(ha.trans hb).previousEnd] at hw
      exact .array (hw (by omega))
    · exact .pure fun _ => .done hkind

theorem separator_bind {β : Type} {s : Parser} {start : Position} {k : Position → Parse β}
    {Q : List Token → β → Parser → Prop}
    (h : ∀ «end» t, Sound t (k «end») fun y u t' => ∀ sep, s.Reads sep t →
      Separator sep (kindOf t.rest) → «end» = lastEnd sep (s.previousEnd start) →
      Q (sep ++ y) u t') :
    Sound s (consumeOptionalSemicolon >>= fun closed =>
      match closed with
      | some position => pure position >>= k
      | none => matchKind .comma >>= fun _ => get >>= fun s => pure (s.previousEnd start) >>= k)
      Q := by
  refine Sound.consumeOptionalSemicolon.bind fun closed t => ?_
  cases closed with
  | some position =>
    refine .pure_bind ((h position t).mono fun y u t' _ hQ semi hsemi hclosed => ?_)
    obtain ⟨_, ⟨hnone, _⟩ | ⟨c, rfl, hend⟩⟩ := hclosed
    · exact nomatch hnone
    · exact hQ _ hsemi (.semicolon c _) (Option.some_inj.mp hend)
  | none =>
    refine .matchKind_bind (fun c t₁ => ?_) fun hcomma => ?_
    · refine .get_bind (.pure_bind ((h _ t₁).mono fun y u t' _ hQ hc semi hsemi hclosed => ?_))
      obtain ⟨_, ⟨_, rfl⟩ | ⟨_, _, hend⟩⟩ := hclosed
      · exact hQ _ (hsemi.trans hc) (.comma c _) ((hsemi.trans hc).previousEnd start)
      · exact nomatch hend
    · refine .get_bind (.pure_bind ((h _ t).mono fun y u t' _ hQ semi hsemi hclosed => ?_))
      obtain ⟨hnone, ⟨_, rfl⟩ | ⟨_, _, hend⟩⟩ := hclosed
      · cases hnone with
        | absent hkind => exact hQ _ hsemi (.absent hkind hcomma) (hsemi.previousEnd start)
      · exact nomatch hend

theorem typeMember_sound {type : Parse TypeNode} {n : ℕ}
    (htype : ∀ s, Sound s type fun w v t => s.remaining < n → Types .type w (kindOf t.rest) v)
    (s : Parser) : Sound s (typeMember type) fun w v t =>
      s.remaining < n + 1 → w ≠ [] ∧ MemberTokens w (kindOf t.rest) v := by
  refine .get_bind (.consumePropertyName_bind fun name t => .expect_bind fun a t₁ => ?_)
  refine (htype t₁).bind fun ty t₂ => separator_bind fun «end» t₃ => .pure ?_
  intro sep hsep hseparator hend w hw hty ha name token hname hkind htoken hn
  have hlt := htoken.lt
  have hle := ha.le
  have hmember := MemberTokens.mk (a := a) hkind (hsep.follow ▸ hty (by omega)) hseparator
  subst hname
  rw [htoken.currentStart, hend, (ha.trans hw).previousEnd]
  simpa using hmember

theorem parseType_sound (fuel : ℕ) (s : Parser) : Sound s (parseType fuel) fun w v t =>
    s.remaining < fuel → Types .type w (kindOf t.rest) v := by
  induction fuel generalizing s with
  | zero => exact .get_bind (.pure fun hfuel => absurd hfuel (Nat.not_lt_zero _))
  | succ fuel ih =>
    refine .get_bind (.advance_bind (.errorHere_bind fun t => .pure trivial) fun token t => ?_)
    obtain ⟨kind, span⟩ := token
    have hsimple : ∀ ty, simpleType ⟨kind, span⟩ = some ty →
        Sound t (get >>= fun t => arraySuffixes s.currentStart (t.remaining + 1) ty) fun w v u =>
          s.Reads [⟨kind, span⟩] t → s.remaining < fuel + 1 →
            Types .type (⟨kind, span⟩ :: w) (kindOf u.rest) v := by
      intro ty hty
      refine .get_bind ((arraySuffixes_sound _ _ ty t).mono fun w v u _ hw hread _ => ?_)
      have hsuffixes := hw (Nat.lt_succ_self _)
      rw [hread.currentStart] at hsuffixes
      exact .simple hty hsuffixes
    cases kind with
    | numberType | stringType | booleanType | null | undefined | identifier name =>
      exact .pure_bind (hsimple _ rfl)
    | leftBrace =>
      refine (listUntil_sound (typeMember_sound ih) t).bind fun members t₁ => ?_
      refine .expect_bind fun b t₂ => .get_bind (.pure_bind (.get_bind ?_))
      refine (arraySuffixes_sound _ _ _ t₂).mono fun w v u _ hw hb x hx hmembers hread hfuel => ?_
      have hsuffixes := hw (Nat.lt_succ_self _)
      rw [hread.currentStart, hb.previousEnd] at hsuffixes
      have hlist := hmembers (by have := hread.lt; omega) hb.follow
      rw [hb.follow] at hlist
      exact .object (types_of_listed hlist) hsuffixes
    | _ =>
      refine .errorAt_bind fun t => .pure_bind (.get_bind ?_)
      exact (arraySuffixes_sound _ _ _ t).mono fun _ _ _ _ _ => trivial

theorem parseAnyType_sound (s : Parser) :
    Sound s parseAnyType fun w v t => Types .type w (kindOf t.rest) v :=
  .get_bind ((parseType_sound _ s).mono fun _ _ _ _ hw => hw (Nat.lt_succ_self _))

theorem separator_run {β : Type} {s t : Parser} {start : Position} {k : Position → Parse β}
    {sep : List Token} {r : β × Parser} (hread : s.Reads sep t)
    (hsep : Separator sep (kindOf t.rest)) (hk : k (lastEnd sep (s.previousEnd start)) t = r) :
    (consumeOptionalSemicolon >>= fun closed =>
      match closed with
      | some position => pure position >>= k
      | none => matchKind .comma >>= fun _ => get >>= fun s => pure (s.previousEnd start) >>= k) s =
      r := by
  cases hsep with
  | absent hsemicolon hcomma =>
    rw [hread.nil_eq] at hsemicolon hcomma hk
    refine run_bind (consumeOptionalSemicolon_run_none hsemicolon) ?_
    exact run_bind (matchKind_run_false hcomma) hk
  | semicolon a next => exact run_bind (consumeOptionalSemicolon_run hread) hk
  | comma a next =>
    have hkind : kindOf s.rest ≠ some .semicolon := by
      rw [hread.follow, follow_cons]
      exact fun heq => nomatch heq
    refine run_bind (consumeOptionalSemicolon_run_none hkind) ?_
    refine run_bind (matchKind_run hread) (run_get ?_)
    rw [hread.previousEnd]
    exact hk

theorem typeMember_run {type : Parse TypeNode} {n : ℕ}
    (htype : ∀ s w v t, s.remaining < n → s.Reads w t → Types .type w (kindOf t.rest) v →
      type s = (v, t))
    (s : Parser) (w : List Token) (v : Option TypeMember × Bool) (t : Parser)
    (hn : s.remaining < n + 1) (hread : s.Reads w t) (hmember : MemberTokens w (kindOf t.rest) v) :
    typeMember type s = (v, t) := by
  cases hmember with
  | @mk token name a w sep next ty hname hty hsep =>
    obtain ⟨t₁, htoken, hread⟩ := hread.uncons
    obtain ⟨t₂, ha, hread⟩ := hread.uncons
    obtain ⟨t₃, hw, hsemi⟩ := hread.split
    have hlt := htoken.lt
    have hle := ha.le
    refine run_get (run_bind (consumePropertyName_run _ hname htoken) ?_)
    refine run_bind (expect_run _ ha) ?_
    refine run_bind (htype t₂ w ty t₃ (by omega) hw (hsemi.follow ▸ hty)) ?_
    refine separator_run hsemi hsep ?_
    rw [htoken.currentStart, hw.previousEnd, ha.previousEnd]
    rfl

/-- What the loops of the parser do on a part of a type. -/
def TypeLoop : (c : TypeForm) → List Token → Next → c.Value → Prop
  | .type, _, _, _ => True
  | .members, w, next, members => Listed .rightBrace MemberTokens w next members
  | .suffixes start ty, w, next, v => ∀ turns s t, s.remaining < turns → s.Reads w t →
    kindOf t.rest = next → arraySuffixes start turns ty s = (v, t)

theorem typeLoop {c : TypeForm} {w : List Token} {next : Next} {v : c.Value}
    (h : Types c w next v) : TypeLoop c w next v := by
  induction h with
  | simple | object => trivial
  | nil => exact .nil
  | @member token name a w sep w' next ty members hname hty hsep _ _ ih =>
    have hkind : kindOf (token :: ⟨.colon, a⟩ :: (w ++ sep)) ≠ some .rightBrace := by
      intro hclose
      rw [kindOf_cons, Option.some_inj] at hclose
      rw [hclose] at hname
      exact nomatch hname
    simpa [TypeLoop] using Listed.more (List.cons_ne_nil _ _) hkind (MemberTokens.mk hname hty hsep) ih
  | done hnext =>
    intro turns s t hturns hread hkind
    obtain ⟨turns, rfl⟩ := Nat.exists_eq_add_of_lt hturns
    rw [hread.nil_eq] at hkind ⊢
    exact run_bind (matchKind_run_false (hkind ▸ hnext)) rfl
  | array _ ih =>
    intro turns s t hturns hread hkind
    obtain ⟨turns, rfl⟩ := Nat.exists_eq_add_of_lt hturns
    obtain ⟨t₁, ha, hread⟩ := hread.uncons
    obtain ⟨t₂, hb, hread⟩ := hread.uncons
    have hlt := ha.lt
    have hle := hb.le
    refine run_bind (matchKind_run ha) (run_bind (expect_run _ hb) (run_get ?_))
    rw [hb.previousEnd]
    exact ih _ t₂ t (by omega) hread hkind

theorem parseType_run (fuel : ℕ) (s : Parser) (w : List Token) (v : TypeNode) (t : Parser)
    (hfuel : s.remaining < fuel) (hread : s.Reads w t) (h : Types .type w (kindOf t.rest) v) :
    parseType fuel s = (v, t) := by
  induction fuel generalizing s w v t with
  | zero => exact absurd hfuel (Nat.not_lt_zero _)
  | succ fuel ih =>
    cases h with
    | @simple token w _ ty _ hsimple hsuffixes =>
      obtain ⟨t₁, htoken, hread⟩ := hread.uncons
      have hloop := typeLoop hsuffixes _ t₁ t (Nat.lt_succ_self _) hread rfl
      refine run_get (run_bind (advance_run htoken) ?_)
      rw [htoken.currentStart]
      obtain ⟨kind, span⟩ := token
      cases kind with
      | numberType | stringType | booleanType | null | undefined | identifier name =>
        rw [← Option.some_inj.mp hsimple] at hloop
        exact run_pure (run_get hloop)
      | _ => exact nomatch hsimple
    | @object a b w w' _ members _ hmembers hsuffixes =>
      obtain ⟨t₁, ha, hread⟩ := hread.uncons
      obtain ⟨t₂, hw, hread⟩ := hread.split
      obtain ⟨t₃, hb, hread⟩ := hread.uncons
      have hlt := ha.lt
      have hloop := typeLoop hsuffixes _ t₃ t (Nat.lt_succ_self _) hread rfl
      refine run_get (run_bind (advance_run ha) ?_)
      rw [ha.currentStart]
      have hlisted := typeLoop hmembers
      have hclose : kindOf t₂.rest = some .rightBrace := hb.follow
      rw [← hclose] at hlisted
      refine run_bind (listUntil_run (typeMember_run fun s w v t => ih s w v t) hw (by omega) hlisted) ?_
      refine run_bind (expect_run _ hb) (run_get (run_pure (run_get ?_)))
      rw [hb.previousEnd]
      exact hloop

theorem parseAnyType_run {s t : Parser} {w : List Token} {v : TypeNode} (hread : s.Reads w t)
    (h : Types .type w (kindOf t.rest) v) : parseAnyType s = (v, t) :=
  run_get (parseType_run _ s w v t (Nat.lt_succ_self _) hread h)

end Tsvm.Grammar
