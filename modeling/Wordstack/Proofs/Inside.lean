/-
The rules for what is inside of a statement: expressions, types, paths and lists of them. They take no
token at which a statement may end, look at one token behind those that they take, and
report one error at most besides those of the tokens themselves.
-/
import Wordstack.Proofs.Lookahead

namespace Wordstack

open Rule

/-- What comes of a rule inside of a statement. -/
structure Outcome.Inner (stop : Token) (b : Bool) (o : Outcome) : Prop where
  endless : Endless o.taken
  count : o.errors.length + b.toNat = o.recovering.toNat + (lexicalErrors o.taken).length
  next : ∀ us stop', us.headD stop' = o.left.headD stop → o.allows us stop'

theorem lexicalErrors_append (ts us : List Token) : lexicalErrors (ts ++ us) = lexicalErrors ts ++ lexicalErrors us :=
  List.filterMap_append

/-- The front of a text is the front of what is left of it behind the same tokens. -/
theorem headD_append {q us left : List Token} {stop stop' : Token} (h : us.headD stop' = left.headD stop) :
    (q ++ us).headD stop' = (q ++ left).headD stop := by
  cases q with
  | nil => exact h
  | cons t q => rfl

namespace Outcome.Inner

variable {stop : Token} {b : Bool} {o o' : Outcome}

theorem none (ts : List Token) : (Outcome.none b ts).Inner stop b := ⟨.nil, Nat.add_comm .., fun _ _ _ => trivial⟩

theorem andThen (h : o.Inner stop b) (h' : o'.Inner stop o.recovering) (hleft : o.left = o'.taken ++ o'.left) :
    (o.andThen o').Inner stop b := by
  refine ⟨h.endless.append h'.endless, ?_, fun us stop' hus => ⟨h.next _ _ ?_, h'.next us stop' hus⟩⟩
  · have hcount := h.count
    have hcount' := h'.count
    simp only [Outcome.andThen, List.length_append, lexicalErrors_append]
    omega
  · rw [hleft]
    exact headD_append hus

theorem look (ts : List Token) : (Outcome.look stop b ts).Inner stop b := ⟨.nil, Nat.add_comm .., fun _ _ h => h⟩

theorem one {t : Token} (ht : t.kind.ends = false) (ts : List Token) : (Outcome.one b t ts).Inner stop b :=
  ⟨.cons ht .nil, Nat.add_comm .., fun _ _ _ => trivial⟩

/-- A token is of another kind than one that is looked for. -/
theorem notEaten {kind : TokenKind} {ts : List Token} (hk : (ts.headD stop).kind ≠ kind) :
    Outcome.Inner stop b ⟨[], ts, [], b, fun us stop' => (us.headD stop').kind ≠ kind⟩ := by
  refine ⟨.nil, Nat.add_comm .., fun us stop' hus => ?_⟩
  show (us.headD stop').kind ≠ kind
  rw [hus]
  exact hk

theorem eaten {kind : TokenKind} (hkind : kind.ends = false) {ts : List Token} {v : Bool} (h : Eaten stop b kind ts v o) :
    o.Inner stop b := by
  cases h with
  | yes hts hk => exact one (hk ▸ hkind) _
  | no hk => exact notEaten hk

end Outcome.Inner

/-- The rule is one for the inside of statements. -/
def Inside {α : Type} (stop : Token) (b : Bool) (ts : List Token) (x : Rule α) : Prop :=
  Local stop b ts x fun _ o => o.Inner stop b

namespace Inside

variable {α β : Type} {stop t : Token} {b : Bool} {ts : List Token} {x : Rule α} {f : α → Rule β} {kind : TokenKind}

theorem pure {a : α} : Inside stop b ts (Pure.pure a) := Local.pure (.none ts)

theorem bind (hx : Inside stop b ts x) (hf : ∀ a b' ts', Inside stop b' ts' (f a)) : Inside stop b ts (x >>= f) :=
  Local.bind hx fun a o _ ho => (hf a o.recovering o.left).mono fun _ _ hts ho' => ho.andThen ho' hts

theorem peek {f : Token → Rule β} (h : Inside stop b ts (f (ts.headD stop))) : Inside stop b ts (Rule.peek >>= f) := by
  refine Local.bind local_peek fun t o _ ho => ?_
  obtain ⟨rfl, rfl⟩ := ho
  exact h.mono fun _ o' hts ho' => (Outcome.Inner.look ts).andThen ho' hts

theorem isRecovering {f : Bool → Rule β} (h : Inside stop b ts (f b)) : Inside stop b ts (Rule.isRecovering >>= f) := by
  refine Local.bind local_isRecovering fun b' o _ ho => ?_
  obtain ⟨rfl, rfl⟩ := ho
  exact h.mono fun _ o' hts ho' => (Outcome.Inner.none ts).andThen ho' hts

theorem bump {f : Token → Rule β} (ht : t.kind.ends = false) (h : Inside stop b ts (f t)) :
    Inside stop b (t :: ts) (Rule.bump >>= f) := by
  refine Local.bind local_bump fun t' o _ ho => ?_
  obtain ⟨rfl, rfl⟩ := ho
  exact h.mono fun _ o' hts ho' => (Outcome.Inner.one ht ts).andThen ho' hts

theorem check : Inside stop b ts (Rule.check kind) := by
  refine (local_check kind).mono fun v o _ ho => ?_
  obtain ⟨-, rfl⟩ := ho
  exact .look ts

theorem eat (hkind : kind.ends = false) : Inside stop b ts (Rule.eat kind) := by
  have hne : kind ≠ .eof := by
    rintro rfl
    cases hkind
  exact (local_eat hne).mono fun _ _ _ ho => .eaten hkind ho

theorem report (error : ParseError) : Inside stop b ts (Rule.report error) := by
  refine (local_report error).mono fun _ o _ ho => ?_
  subst ho
  refine ⟨.nil, ?_, fun _ _ _ => trivial⟩
  cases b <;> rfl

theorem unexpected (expected : Expectation) : Inside stop b ts (Rule.unexpected expected) :=
  .peek (.bind (.report _) fun _ _ _ => .pure)

theorem expect? (hkind : kind.ends = false) : Inside stop b ts (Rule.expect? kind) := by
  refine .isRecovering ?_
  split
  · exact .pure
  · refine .peek (.bind (.eat hkind) fun v _ _ => ?_)
    split
    · exact .pure
    · exact .bind (.unexpected _) fun _ _ _ => .pure

theorem expect (hkind : kind.ends = false) : Inside stop b ts (Rule.expect kind) := .bind (.expect? hkind) fun _ _ _ => .pure

theorem skipUntil (hkind : kind.ends = false) : Inside stop b ts (Rule.skipUntil kind) := by
  refine (local_skipUntil kind).mono fun _ o _ ho => ?_
  obtain ⟨herrors, hrec, hnext, hshape⟩ := ho
  have hendless : Endless o.taken := by
    rcases hshape with h | ⟨g, t, hq, hg, ht, -⟩
    · exact h
    · rw [hq]
      exact hg.append (.cons (ht ▸ hkind) .nil)
  exact ⟨hendless, by rw [herrors, hrec, Nat.add_comm], hnext⟩

theorem missingExpr : Inside stop b ts Rule.missingExpr := .bind (.unexpected _) fun _ _ _ => .pure

theorem missingType : Inside stop b ts Rule.missingType := .bind (.unexpected _) fun _ _ _ => .pure

end Inside

/-! ## Calls -/

/-- Rules for what is inside of a statement. -/
def Call.isInner {α : Type} : Call α → Bool
  | .expr _ | .operators .. | .operand | .indices _ | .typeExpr | .parameters _ | .parameterList | .parameter | .types
  | .exprs _ | .path _ | .furtherMembers => true
  | .arguments _ close | .members _ close => !close.ends
  | _ => false

structure Rules.Inner (r : Rules) : Prop where
  inside {α : Type} (c : Call α) (h : c.isInner = true) {stop : Token} {b : Bool} {ts : List Token} :
    Inside stop b ts (r c)
  /-- Names are read where a declaration of some of them comes up, which has a colon behind them. -/
  names {stop : Token} {b : Bool} {ts : List Token} (h : declaresMany ts = true) :
    Local stop b ts (r .names) fun _ o => o.Inner stop b ∧ ∃ t us, o.left = t :: us ∧ t.kind.ends = false

namespace Rules

variable {r : Rules} {stop : Token} {b : Bool} {ts : List Token}

theorem Inner.expr (h : r.Inner) (power : Nat) : Inside stop b ts (r (.expr power)) := h.inside (.expr power) rfl

theorem Inner.operators (h : r.Inner) (power : Nat) (left : Expr) : Inside stop b ts (r (.operators power left)) :=
  h.inside (.operators power left) rfl

theorem Inner.typeExpr (h : r.Inner) : Inside stop b ts (r .typeExpr) := h.inside .typeExpr rfl

/-! ## Expressions -/

theorem inside_operators (h : r.Inner) (power : Nat) (left : Expr) : Inside stop b ts (r.next (.operators power left)) := by
  refine .isRecovering ?_
  split
  · exact .pure
  refine Local.text fun htext => Inside.peek ?_
  cases ts with
  | nil =>
    rw [List.headD_nil, htext.stop]
    exact .pure
  | cons t ts =>
    rw [List.headD_cons]
    have hbinary : ∀ op : BinaryOp, t.kind.ends = false → Inside stop b (t :: ts)
        (if op.powers.1 < power then pure left else do
          let _ ← bump
          let right ← r (.expr op.powers.2)
          r (.operators power (.binary op t left right))) := by
      intro op ht
      split
      · exact .pure
      · exact .bump ht (.bind (h.expr _) fun _ _ _ => h.operators _ _)
    cases hk : t.kind with
    | symbol s =>
      rw [hk] at hbinary
      cases s
      case parenOpen =>
        dsimp only
        split
        · exact .pure
        · refine .bump (by rw [hk]; rfl) (.bind (h.inside (.arguments t (.symbol .parenClose)) rfl) fun _ _ _ => ?_)
          exact h.operators _ _
      case bracketOpen =>
        dsimp only
        split
        · exact .pure
        · exact .bump (by rw [hk]; rfl) (.bind (h.inside (.indices t) rfl) fun _ _ _ => h.operators _ _)
      all_goals first | exact .pure | exact hbinary _ rfl
    | _ => exact .pure

theorem inside_operand (h : r.Inner) : Inside stop b ts (r.next .operand) := by
  refine Local.text fun htext => Inside.peek ?_
  cases ts with
  | nil =>
    rw [List.headD_nil, htext.stop]
    exact .missingExpr
  | cons t ts =>
    rw [List.headD_cons]
    have hatom : t.kind.ends = false → Inside stop b (t :: ts) (do let _ ← bump; return Expr.atom t) := fun ht =>
      .bump ht .pure
    have hunary : ∀ op : UnaryOp, t.kind.ends = false →
        Inside stop b (t :: ts) (do let _ ← bump; let e ← r (.expr unaryPower); return Expr.unary op t e) := fun _ ht =>
      .bump ht (.bind (h.expr _) fun _ _ _ => .pure)
    cases hk : t.kind with
    | integer | float | string | ident => exact hatom (by rw [hk]; rfl)
    | error e => exact .bump (by rw [hk]; rfl) (.bind (.report _) fun _ _ _ => .pure)
    | keyword w =>
      cases w
      case trueWord | falseWord => exact hatom (by rw [hk]; rfl)
      case castWord =>
        refine .bump (by rw [hk]; rfl) (.bind (.expect rfl) fun v _ _ => ?_)
        split
        · refine .bind h.typeExpr fun _ _ _ => .bind (.expect rfl) fun v _ _ => ?_
          split
          · exact .bind (h.expr _) fun _ _ _ => .pure
          · exact .bind (.skipUntil rfl) fun _ _ _ => .pure
        · exact .pure
      all_goals exact .missingExpr
    | symbol s =>
      rw [hk] at hunary
      cases s
      case parenOpen =>
        refine .bump (by rw [hk]; rfl) (.bind (h.expr _) fun _ _ _ => .isRecovering ?_)
        split
        · exact .bind (.skipUntil rfl) fun _ _ _ => .pure
        · refine .bind (.expect rfl) fun v _ _ => ?_
          split
          · exact .pure
          · exact .bind (.skipUntil rfl) fun _ _ _ => .pure
      all_goals first | exact .missingExpr | exact hunary _ rfl
    | _ => exact .missingExpr

theorem inside_members (h : r.Inner) (start : Token) {close : TokenKind} (hclose : close.ends = false) :
    Inside stop b ts (r.next (.members start close)) := by
  refine .bind (h.expr 0) fun e _ _ => .isRecovering ?_
  split
  · exact .bind (.skipUntil hclose) fun _ _ _ => .pure
  refine .bind (.eat rfl) fun v _ _ => ?_
  split
  · exact .bind (h.inside (.members start close) (by simp [Call.isInner, hclose])) fun _ _ _ => .pure
  refine .bind (.expect hclose) fun v _ _ => ?_
  split
  · exact .pure
  · exact .bind (.skipUntil hclose) fun _ _ _ => .pure

/-! ## Types -/

theorem inside_typeExpr (h : r.Inner) : Inside stop b ts (r.next .typeExpr) := by
  refine Local.text fun htext => Inside.peek ?_
  cases ts with
  | nil =>
    rw [List.headD_nil, htext.stop]
    exact .missingType
  | cons t ts =>
    rw [List.headD_cons]
    cases hk : t.kind with
    | primitive p | ident => exact .bump (by rw [hk]; rfl) .pure
    | symbol s =>
      cases s
      case caret => exact .bump (by rw [hk]; rfl) (.bind h.typeExpr fun _ _ _ => .pure)
      case bracketOpen =>
        refine .bump (by rw [hk]; rfl) (.bind .check fun v _ _ => ?_)
        split
        · refine .bind (.expect rfl) fun v _ _ => ?_
          split
          · exact .bind h.typeExpr fun _ _ _ => .pure
          · exact .pure
        · refine .bind (h.expr 0) fun _ _ _ => .bind (.expect rfl) fun v _ _ => ?_
          split
          · exact .bind h.typeExpr fun _ _ _ => .pure
          · exact .pure
      case parenOpen =>
        refine .bump (by rw [hk]; rfl) (.bind (h.inside (.parameters t) rfl) fun _ _ _ => .isRecovering ?_)
        split
        · exact .pure
        refine .bind (.eat rfl) fun v _ _ => ?_
        split
        · exact .peek (.bind (h.inside .types rfl) fun _ _ _ => .pure)
        · exact .pure
      all_goals exact .missingType
    | _ => exact .missingType

theorem inside_parameters (h : r.Inner) (start : Token) : Inside stop b ts (r.next (.parameters start)) := by
  have hskip : ∀ {b ts} (params : List Param),
      Inside stop b ts (do skipUntil (.symbol .parenClose); return params) := fun _ =>
    .bind (.skipUntil rfl) fun _ _ _ => .pure
  refine .bind .check fun v _ _ => ?_
  split
  · refine .bind (.expect rfl) fun v _ _ => ?_
    split
    · exact .pure
    · exact hskip _
  refine .bind (h.inside .parameterList rfl) fun _ _ _ => .isRecovering ?_
  split
  · exact hskip _
  refine .bind (.expect rfl) fun v _ _ => ?_
  split
  · exact .pure
  · exact hskip _

theorem inside_parameter (h : r.Inner) : Inside stop b ts (r.next .parameter) := by
  refine .bind (.expect? rfl) fun name? _ _ => ?_
  cases name? with
  | none => exact .peek .pure
  | some name =>
    refine .bind (.expect rfl) fun v _ _ => ?_
    split
    · exact .bind h.typeExpr fun _ _ _ => .pure
    · exact .pure

/-! ## Lists -/

/-- What is read one after the other with commas between. -/
theorem inside_list {α : Type} {x : Rule α} {xs : Rule (List α)} (hx : Inside stop b ts x)
    (hxs : ∀ {b ts}, Inside stop b ts xs) :
    Inside stop b ts (do
      let a ← x
      if ← isRecovering then return [a]
      else if ← eat (.symbol .comma) then
        let as ← xs
        return a :: as
      else return [a]) := by
  refine .bind hx fun _ _ _ => .isRecovering ?_
  split
  · exact .pure
  refine .bind (.eat rfl) fun v _ _ => ?_
  split
  · exact .bind hxs fun _ _ _ => .pure
  · exact .pure

theorem inside_path (h : r.Inner) (start : Token) : Inside stop b ts (r.next (.path start)) := by
  refine .bind (.expect? rfl) fun t? _ _ => ?_
  cases t? with
  | none => exact .pure
  | some t =>
    refine .bind (.eat rfl) fun v _ _ => ?_
    split
    · exact .bind (h.inside (.path start) rfl) fun _ _ _ => .pure
    · exact .pure

theorem inside_furtherMembers (h : r.Inner) : Inside stop b ts (r.next .furtherMembers) := by
  refine .bind (.eat rfl) fun v _ _ => ?_
  split
  · exact .bind (h.expr _) fun _ _ _ => .bind (h.inside .furtherMembers rfl) fun _ _ _ => .pure
  · exact .pure

theorem local_names (h : r.Inner) (hmany : declaresMany ts = true) :
    Local stop b ts (r.next .names) fun _ o => o.Inner stop b ∧ ∃ t us, o.left = t :: us ∧ t.kind.ends = false := by
  rcases ts with _ | ⟨name, _ | ⟨t, us⟩⟩
  · cases hmany
  · cases hmany
  simp only [declaresMany, Token.isIdent, Token.isSymbol, Bool.and_eq_true, Bool.or_eq_true, beq_iff_eq] at hmany
  obtain ⟨hname, hnext⟩ := hmany
  refine Local.bind local_bump fun _ o _ ho => ?_
  obtain ⟨-, rfl⟩ := ho
  have hone : (Outcome.one b name (t :: us)).Inner stop b := .one (by rw [hname]; rfl) _
  refine Local.bind (local_eat (by simp)) fun v o hleft ho => ?_
  have hinner : o.Inner stop b := .eaten rfl ho
  cases ho with
  | yes hts hk =>
    cases hts
    have hmany : declaresMany us = true := by
      rcases hnext with hcolon | hcomma
      · rw [hk] at hcolon
        cases hcolon
      · exact hcomma.2
    refine Local.map ((h.names hmany).mono fun _ o hleft' ho => ⟨?_, ho.2⟩)
    exact hone.andThen (hinner.andThen ho.1 hleft') (congrArg (t :: ·) hleft')
  | no hk =>
    refine .pure ⟨hone.andThen (hinner.andThen (.none _) rfl) rfl, t, us, rfl, ?_⟩
    rcases hnext with hcolon | hcomma
    · rw [hcolon]
      rfl
    · exact absurd hcomma.1 hk

theorem Inner.next (h : r.Inner) : r.next.Inner where
  inside c hc := by
    intro stop b ts
    cases c with
    | expr power => exact .bind (h.inside .operand rfl) fun _ _ _ => h.operators _ _
    | operators power left => exact inside_operators h power left
    | operand => exact inside_operand h
    | arguments start close =>
      have hclose : close.ends = false := by simpa [Call.isInner] using hc
      refine .bind (.eat hclose) fun v _ _ => ?_
      split
      · exact .pure
      · exact h.inside (.members start close) hc
    | indices start =>
      refine .bind (.eat rfl) fun v _ _ => ?_
      split
      · exact .bind (.report _) fun _ _ _ => .pure
      · exact h.inside (.members start (.symbol .bracketClose)) rfl
    | members start close => exact inside_members h start (by simpa [Call.isInner] using hc)
    | typeExpr => exact inside_typeExpr h
    | parameters start => exact inside_parameters h start
    | parameterList => exact inside_list (h.inside .parameter rfl) (h.inside .parameterList rfl)
    | parameter => exact inside_parameter h
    | types => exact inside_list h.typeExpr (h.inside .types rfl)
    | exprs power => exact inside_list (h.expr power) (h.inside (.exprs power) rfl)
    | path start => exact inside_path h start
    | furtherMembers => exact inside_furtherMembers h
    | _ => cases hc
  names hmany := local_names h hmany

end Rules

end Wordstack
