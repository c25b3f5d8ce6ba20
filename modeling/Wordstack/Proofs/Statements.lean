/-
The rules for statements, one after the other. What comes of each is a statement, or what is
between braces, as `Outcome.Form` and `Outcome.Body` say, if the same goes for the rules
that it calls.
-/
import Wordstack.Proofs.Forms

namespace Wordstack

open Rule

namespace Rule

variable {α : Type} {stop : Token} {b : Bool} {ts : List Token} {kind : TokenKind}

theorem local_unexpected (expected : Expectation) : Local stop false ts (unexpected expected) fun t o =>
    t = ts.headD stop ∧ o = .miss stop ts (.unexpected (ts.headD stop) expected) := by
  intro _
  refine ⟨_, .miss stop ts (.unexpected (ts.headD stop) expected), rfl, rfl, fun us stop' e _ hus => ?_, rfl, rfl⟩
  show (us.headD stop', ParseState.mk us stop' (e ++ [.unexpected (us.headD stop') expected]) true) = _
  rw [show us.headD stop' = ts.headD stop from hus]
  rfl

/-- What comes of expecting a token: it is taken, or another one is reported. -/
inductive Expected (stop : Token) (kind : TokenKind) (ts : List Token) : Option Token → Outcome → Prop
  | yes {t : Token} {us : List Token} (hts : ts = t :: us) (hk : t.kind = kind) :
    Expected stop kind ts (some t) (.one false t us)
  | no (hk : (ts.headD stop).kind ≠ kind) (error : ParseError) : Expected stop kind ts none (.miss stop ts error)

theorem local_expect? (hkind : kind ≠ .eof) : Local stop false ts (expect? kind) fun v o => Expected stop kind ts v o := by
  have hexpect : ∀ us stop' e, expect? kind ⟨us, stop', e, false⟩ =
      (if (eat kind ⟨us, stop', e, false⟩).1 = true then return some (us.headD stop')
        else do let _ ← unexpected (.token kind); return none : Rule (Option Token)) (eat kind ⟨us, stop', e, false⟩).2 :=
    fun _ _ _ => rfl
  intro htext
  by_cases hk : (ts.headD stop).kind = kind
  · cases ts with
    | nil => exact absurd (hk.symm.trans htext.stop) hkind
    | cons t ts =>
      refine ⟨some t, .one false t ts, rfl, trivial, fun us stop' e _ _ => ?_, .yes rfl hk⟩
      show expect? kind ⟨t :: us, stop', e, false⟩ = _
      rw [hexpect, eat_eq (show t.kind = kind from hk)]
      rfl
  · refine ⟨none, .miss stop ts (.unexpected (ts.headD stop) (.token kind)), rfl, rfl, fun us stop' e _ hus => ?_, .no hk _⟩
    have hus : us.headD stop' = ts.headD stop := hus
    show expect? kind ⟨us, stop', e, false⟩ = _
    rw [hexpect, eat_ne (hus ▸ hk), ← hus]
    rfl

/-- A rule that has taken something goes no further. -/
theorem advancing_eq {x : Rule α} {a : α} {s s' : ParseState} (hs : x s = (a, s')) (hlength : s'.rest.length ≠ s.rest.length) :
    advancing x s = (a, s') := by
  show (if (x s).2.rest.length = s.rest.length then do take 1; return (x s).1 else return (x s).1 : Rule α) (x s).2 = _
  rw [hs, if_neg hlength]
  rfl

theorem local_advancing {x : Rule α} {Q : α → Outcome → Prop} (hx : Local stop b ts x Q)
    (h : ∀ a o, ts = o.taken ++ o.left → Q a o → o.taken ≠ []) : Local stop b ts (advancing x) Q := by
  intro htext
  obtain ⟨a, o, hts, hallows, hrun, hq⟩ := hx htext
  refine ⟨a, o, hts, hallows, fun us stop' e hus hus' => ?_, hq⟩
  have hlength : us.length ≠ (o.taken ++ us).length := by
    have := List.length_pos_iff.mpr (h a o hts hq)
    rw [List.length_append]
    omega
  rw [advancing_eq (hrun us stop' e hus hus') hlength]

end Rule

/-! ## What a statement is made of -/

/-- The rule is one for a statement or the rest of one, which another branch may follow if `w` says so. -/
def Formed {α : Type} (w : Bool) (stop : Token) (b : Bool) (ts : List Token) (x : Rule α) : Prop :=
  Local stop b ts x fun _ o => o.Form w stop b

/-- The rule is one for what is between braces. -/
def Bodied {α : Type} (stop : Token) (ts : List Token) (x : Rule α) : Prop := Local stop false ts x fun _ o => o.Body stop

namespace Formed

variable {α β : Type} {w : Bool} {stop t : Token} {b : Bool} {ts us : List Token} {x : Rule α} {f : α → Rule β}
  {kind : TokenKind} {o : Outcome}

theorem weaken (h : Formed false stop b ts x) : Formed w stop b ts x := h.mono fun _ _ _ ho => ho.weaken

theorem after (ho : o.Inner stop b) (h : Formed w stop o.recovering o.left x) :
    Local stop o.recovering o.left x fun _ o' => (o.andThen o').Form w stop b :=
  h.mono fun _ _ hts ho' => ho.form ho' hts

theorem bind (hx : Inside stop b ts x) (hf : ∀ a b' ts', Formed w stop b' ts' (f a)) : Formed w stop b ts (x >>= f) :=
  Local.bind hx fun a o _ ho => after ho (hf a o.recovering o.left)

theorem peek {f : Token → Rule β} (h : Formed w stop b ts (f (ts.headD stop))) : Formed w stop b ts (Rule.peek >>= f) := by
  refine Local.bind local_peek fun t o _ ho => ?_
  obtain ⟨rfl, rfl⟩ := ho
  exact after (.look ts) h

theorem isRecovering {f : Bool → Rule β} (h : Formed w stop b ts (f b)) : Formed w stop b ts (Rule.isRecovering >>= f) := by
  refine Local.bind local_isRecovering fun b' o _ ho => ?_
  obtain ⟨rfl, rfl⟩ := ho
  exact after (.none ts) h

theorem bump {f : Token → Rule β} (ht : t.kind.ends = false) (h : Formed w stop b ts (f t)) :
    Formed w stop b (t :: ts) (Rule.bump >>= f) := by
  refine Local.bind local_bump fun t' o _ ho => ?_
  obtain ⟨rfl, rfl⟩ := ho
  exact after (.one ht ts) h

theorem eat {f : Bool → Rule β} (hkind : kind ≠ .eof)
    (hyes : ∀ t us, t.kind = kind → Local stop b us (f true) fun _ o => ((Outcome.one b t us).andThen o).Form w stop b)
    (hno : Formed w stop b ts (f false)) : Formed w stop b ts (Rule.eat kind >>= f) := by
  refine Local.bind (local_eat hkind) fun v o _ ho => ?_
  cases ho with
  | yes hts hk => exact hyes _ _ hk
  | no hk => exact after (.notEaten hk) hno

theorem expect {f : Bool → Rule β} (hkind : kind ≠ .eof) (hyes : ∀ t us, t.kind = kind →
      Local stop false us (f true) fun _ o => ((Outcome.one false t us).andThen o).Form w stop false)
    (hno : Formed w stop true ts (f false)) : Formed w stop false ts (Rule.expect kind >>= f) := by
  show Formed w stop false ts ((Rule.expect? kind >>= fun t? => Pure.pure t?.isSome) >>= f)
  rw [bind_assoc]
  refine Local.bind (local_expect? hkind) fun v o _ ho => ?_
  cases ho with
  | yes hts hk => exact hyes _ _ hk
  | no hk error => exact after (.miss ts error) hno

theorem broken {a : α} : Formed w stop true ts (Pure.pure a) := Local.pure (.broken ts)

/-- Most statements end with a semicolon. -/
theorem semicolon {a : α} : Formed w stop b ts (Rule.expect (.symbol .semicolon) >>= fun _ => Pure.pure a) := by
  cases b with
  | true => exact broken
  | false =>
    refine .expect (by simp) (fun t us ht => .pure ?_) .broken
    exact (Outcome.andThen_none (.one false t us)).symm ▸ .ended ht us

/-- Something between braces, which a semicolon may follow. -/
theorem braced {g : α → β} (ht : t.kind = .symbol .curlyOpen) (hx : Bodied stop us x) :
    Local stop false us (x >>= fun a => Rule.eat (.symbol .semicolon) >>= fun _ => Pure.pure (g a)) fun _ o =>
      ((Outcome.one false t us).andThen o).Form w stop false :=
  Local.bind hx fun _ _ _ ho => .map ((local_eat (by simp)).mono fun _ _ _ ho' => .bracedEat ht ho us ho')

/-- A list between braces behind an equals sign. -/
theorem braces {g : α → β} {c : β} (hx : ∀ us, Bodied stop us x) : Formed w stop false ts (openBrace >>= fun v =>
      if v = true then x >>= fun a => Rule.eat (.symbol .semicolon) >>= fun _ => Pure.pure (g a) else Pure.pure c) := by
  unfold openBrace
  rw [bind_assoc]
  refine .expect (by simp) (fun t us ht => after (.one (by rw [ht]; rfl) us) ?_) .broken
  exact .expect (by simp) (fun t' us' ht' => braced ht' (hx us')) .broken

end Formed

/-! ## What a statement is told by -/

/-- Whether a name and the given symbol come up. -/
def nameBefore (s : Symbol) (ts : List Token) : Bool := ts.head?.any (·.isIdent) && ts.tail.head?.any (·.isSymbol s)

/-- Whether a name and a colon come up. -/
def declaresOne (ts : List Token) : Bool := nameBefore .colon ts

/-- What is looked at before a statement is read. -/
structure Glance where
  first : Token
  one : Bool
  /-- A name and a comma come up. -/
  listed : Bool
  many : Bool

def glance (stop : Token) (ts : List Token) : Glance :=
  ⟨ts.headD stop, declaresOne ts, nameBefore .comma ts, declaresMany ts⟩

section

variable {t : Token} {g w q us left : List Token} {stop stop' : Token}

theorem not_isIdent_of_ends (ht : t.kind.ends = true) : t.isIdent = false := by
  unfold TokenKind.ends at ht
  unfold Token.isIdent
  split at ht <;> simp_all

theorem not_isSymbol_of_ends (ht : t.kind.ends = true) : t.isSymbol .colon = false ∧ t.isSymbol .comma = false := by
  unfold TokenKind.ends at ht
  unfold Token.isSymbol
  split at ht <;> simp_all

theorem nameBefore_eq {s : Symbol} (hident : stop.isIdent = false) (hs : stop.isSymbol s = false) :
    nameBefore s us = ((us.headD stop).isIdent && (us.tail.headD stop).isSymbol s) := by
  rcases us with _ | ⟨a, _ | ⟨a', us⟩⟩
  · simp [nameBefore, hident]
  · simp [nameBefore, hs]
  · simp [nameBefore]

theorem declaresOne_eq (hstop : stop.kind = .eof) :
    declaresOne us = ((us.headD stop).isIdent && (us.tail.headD stop).isSymbol .colon) := by
  have hends : stop.kind.ends = true := by rw [hstop]; rfl
  exact nameBefore_eq (not_isIdent_of_ends hends) (not_isSymbol_of_ends hends).1

theorem nameBefore_end {s : Symbol} (ht : t.kind.ends = true) (hs : t.isSymbol s = false) :
    nameBefore s (g ++ t :: w) = nameBefore s g := by
  rcases g with _ | ⟨a, _ | ⟨a', g⟩⟩
  · simp [nameBefore, not_isIdent_of_ends ht]
  · simp [nameBefore, hs]
  · rfl

theorem declaresOne_end (ht : t.kind.ends = true) : declaresOne (g ++ t :: w) = declaresOne g :=
  nameBefore_end ht (not_isSymbol_of_ends ht).1

theorem listed_end (ht : t.kind.ends = true) : nameBefore .comma (g ++ t :: w) = nameBefore .comma g :=
  nameBefore_end ht (not_isSymbol_of_ends ht).2

theorem declaresMany_end (ht : t.kind.ends = true) : declaresMany (g ++ t :: w) = declaresMany g := by
  induction g using declaresMany.induct with
  | case1 a a' g ih => simp only [List.cons_append, declaresMany, ih]
  | case2 g hg =>
    rcases g with _ | ⟨a, _ | ⟨a', g⟩⟩
    · cases w <;> simp [declaresMany, not_isIdent_of_ends ht]
    · simp [declaresMany, not_isSymbol_of_ends ht]
    · exact absurd rfl (hg a a' g)

/-- Nothing is looked for behind the first end. -/
theorem glance_of_end (hq : ¬ Endless q) : glance stop' (q ++ us) = glance stop (q ++ left) := by
  rcases Endless.or_end q with hendless | ⟨g, t, w, rfl, -, ht⟩
  · exact absurd hendless hq
  · have hhead : ((g ++ t :: w) ++ us).headD stop' = ((g ++ t :: w) ++ left).headD stop := headD_append_of_ne_nil (by simp)
    simp only [List.append_assoc, List.cons_append] at hhead ⊢
    simp only [glance, hhead, declaresOne_end ht, listed_end ht, declaresMany_end ht]

theorem glance_of_head (hhead : us.headD stop' = left.headD stop) (hends : (left.headD stop).kind.ends = true) :
    glance stop' (q ++ us) = glance stop (q ++ left) := by
  have hnone : ∀ {us stop}, (us.headD stop).kind.ends = true →
      declaresOne (q ++ us) = declaresOne q ∧ nameBefore .comma (q ++ us) = nameBefore .comma q ∧
        declaresMany (q ++ us) = declaresMany q := by
    intro us stop hends
    cases us with
    | nil => simp
    | cons t us => exact ⟨declaresOne_end hends, listed_end hends, declaresMany_end hends⟩
  have hus := hnone (hhead ▸ hends)
  have hleft := hnone hends
  simp only [glance, headD_append hhead, hus, hleft]

end

/-- The outcome if what a statement is told by is looked at first. -/
def Outcome.glancing (stop : Token) (o : Outcome) : Outcome :=
  { o with allows := fun us stop' => glance stop' (o.taken ++ us) = glance stop (o.taken ++ o.left) ∧ o.allows us stop' }

theorem Outcome.Form.glancing {w : Bool} {stop : Token} {o : Outcome} (h : o.Form w stop false) (hrec : o.recovering = false) :
    (o.glancing stop).Form w stop false := by
  refine h.restrict (fun us stop' hus => ?_) fun hends us stop' _ => glance_of_end hends
  by_cases hendless : Endless o.taken
  · rcases (h.endless hendless).2 with hrec' | hcloses
    · exact absurd (hrec.symm.trans hrec') (by decide)
    · exact glance_of_head hus (TokenKind.ends_of_closes hcloses)
  · exact glance_of_end hendless

theorem Outcome.glancing_andThen {stop : Token} {o o' : Outcome} (hleft : o.left = o'.taken ++ o'.left) :
    (o.glancing stop).andThen o' = (o.andThen o').glancing stop := by
  simp only [andThen, glancing, hleft, List.append_assoc, and_assoc]

/-- The rule is one for a statement, and looks at what that is told by. -/
def Glanced {α : Type} (w : Bool) (stop : Token) (ts : List Token) (x : Rule α) : Prop :=
  Local stop false ts x fun _ o => ∃ o₀ : Outcome, o = o₀.glancing stop ∧ o₀.Form w stop false

/-- The rule is one for a statement and leaves recovery behind it. -/
def Settled {α : Type} (w : Bool) (stop : Token) (ts : List Token) (x : Rule α) : Prop :=
  Local stop false ts x fun _ o => o.Form w stop false ∧ o.recovering = false

section

variable {α : Type} {w : Bool} {stop : Token} {b : Bool} {ts : List Token} {x y : Rule α} {Q : α → Outcome → Prop}

/-- A rule that does as another where the same things come up. -/
theorem local_glance (hx : ∀ s : ParseState, s.stop.kind = .eof → glance s.stop s.rest = glance stop ts → x s = y s)
    (hy : Local stop b ts y Q) : Local stop b ts x fun a o => ∃ o₀ : Outcome, o = o₀.glancing stop ∧ Q a o₀ := by
  intro htext
  obtain ⟨a, o, rfl, hallows, hrun, hq⟩ := hy htext
  refine ⟨a, o.glancing stop, rfl, ⟨rfl, hallows⟩, fun us stop' e hus hus' => ?_, o, rfl, hq⟩
  exact (hx _ hus.stop hus'.1).trans (hrun us stop' e hus hus'.2)

theorem Formed.glanced (hx : Formed w stop false ts x) : Glanced w stop ts x := local_glance (fun _ _ _ => rfl) hx

theorem Glanced.peek {f : Token → Rule α} (h : Glanced w stop ts (f (ts.headD stop))) :
    Glanced w stop ts (Rule.peek >>= f) := by
  refine Local.bind local_peek fun t o _ ho => ?_
  obtain ⟨rfl, rfl⟩ := ho
  refine h.mono fun _ o hts ho => ?_
  obtain ⟨o, rfl, ho⟩ := ho
  refine ⟨(Outcome.look stop false ts).andThen o, ?_, (Outcome.Inner.look ts).form ho hts⟩
  simp only [Outcome.look, Outcome.andThen, Outcome.glancing, List.nil_append, and_left_comm]

/-- A statement; a broken one is skipped to its end. -/
def orSkip (x : Rule α) : Rule α := do
  let a ← x
  if ← isRecovering then skipStatement
  return a

theorem Glanced.orSkip (hx : Glanced w stop ts x) : Settled w stop ts (orSkip x) := by
  refine Local.bind hx fun a o _ ho => ?_
  obtain ⟨o, rfl, ho⟩ := ho
  refine Local.bind local_isRecovering fun b o' _ ho' => ?_
  obtain ⟨rfl, rfl⟩ := ho'
  simp only [Outcome.none_andThen]
  show Local stop o.recovering o.left (if o.recovering = true then skipStatement >>= fun _ => pure a else pure a) _
  by_cases hrec : o.recovering = true
  · rw [if_pos hrec]
    refine .map (local_skipStatement.mono fun _ o' hts ho' => ⟨?_, ho'.recovering⟩)
    rw [Outcome.glancing_andThen hts]
    exact (ho.skip hrec ho' hts).glancing ho'.recovering
  · rw [if_neg hrec]
    have hrec : o.recovering = false := by simpa using hrec
    exact .pure ⟨(Outcome.andThen_none (o.glancing stop)).symm ▸ ho.glancing hrec, hrec⟩

end

/-! ## What is between braces -/

namespace Bodied

variable {α : Type} {w : Bool} {stop : Token} {b : Bool} {ts : List Token} {x : Rule α} {o : Outcome}

theorem after (ho : o.Inner stop b) (h : Local stop o.recovering o.left x fun _ o => o.Body stop) :
    Local stop o.recovering o.left x fun _ o' => (o.andThen o').Body stop :=
  h.mono fun _ _ hleft ho' => ho.body ho' hleft

theorem peek {f : Token → Rule α} (h : Bodied stop ts (f (ts.headD stop))) : Bodied stop ts (Rule.peek >>= f) := by
  refine Local.bind local_peek fun t o _ ho => ?_
  obtain ⟨rfl, rfl⟩ := ho
  exact after (.look ts) h

/-- Statements one after the other. -/
theorem cons {xs : Rule (List α)} (hx : Settled w stop ts x) (hxs : ∀ {ts}, Bodied stop ts xs) :
    Bodied stop ts (do let a ← x; let as ← xs; return a :: as) := by
  refine Local.bind hx fun _ o _ ho => ?_
  obtain ⟨ho, hrec⟩ := ho
  rw [hrec]
  exact .map (hxs.mono fun _ o' hleft ho' => .after ho.balanced ho.lookahead ho' hleft)

theorem close {a : α} (hk : (ts.headD stop).kind = .symbol .curlyClose) : Bodied stop ts (bump >>= fun _ => pure a) := by
  refine Local.text fun htext => ?_
  cases ts with
  | nil => exact absurd (htext.stop.symm.trans hk) (by simp)
  | cons t ts =>
    refine .map (local_bump.mono fun _ o _ ho => ?_)
    obtain ⟨-, rfl⟩ := ho
    exact .one t ts

theorem report {a : α} (error : ParseError) : Bodied stop ts (Rule.report error >>= fun _ => pure a) := by
  refine .map ((local_report error).mono fun _ o _ ho => ?_)
  subst ho
  exact .broken (by simp) (.inl .nil) fun _ _ _ => trivial

theorem unexpected {f : Token → α} (expected : Expectation) :
    Bodied stop ts (Rule.unexpected expected >>= fun t => pure (f t)) := by
  refine .map ((local_unexpected expected).mono fun _ o _ ho => ?_)
  obtain ⟨-, rfl⟩ := ho
  exact .broken (by simp [Outcome.miss]) (.inl .nil) fun _ _ hus => hus

/-- The list is given up at a token that does not belong there. -/
theorem skipUntil {a : α} (error : ParseError) :
    Local stop true ts (Rule.skipUntil (.symbol .curlyClose) >>= fun _ => pure a) fun _ o =>
      ((Outcome.miss stop ts error).andThen o).Body stop := by
  refine .map ((local_skipUntil _).mono fun _ o hleft ho => ?_)
  obtain ⟨-, -, hnext, hshape⟩ := ho
  refine .broken (by simp [Outcome.miss, Outcome.andThen]) ?_ fun us stop' hus => ⟨?_, hnext us stop' hus⟩
  · rcases hshape with hendless | ⟨g, c, htaken, hg, -, hall⟩
    · exact .inl hendless
    · refine .inr ⟨g, c, htaken, hg, fun us stop' => ⟨?_, hall us stop'⟩⟩
      show (o.taken ++ us).headD stop' = ts.headD stop
      rw [hleft]
      exact headD_append_of_ne_nil (by simp [htaken])
  · show (o.taken ++ us).headD stop' = ts.headD stop
    rw [hleft]
    exact headD_append hus

end Bodied

/-! ## Rules -/

/-- What comes of the rules for statements. -/
structure Rules.Stated (r : Rules) : Prop where
  inner : r.Inner
  form {stop : Token} {ts : List Token} : Glanced true stop ts (r .statementForm)
  statement {stop : Token} {ts : List Token} : Settled true stop ts (r .statement)
  ifStatement {stop t : Token} {ts : List Token} (ht : t.kind.ends = false) : Formed true stop false (t :: ts) (r .ifStatement)
  whileStatement {stop t : Token} {ts : List Token} (ht : t.kind.ends = false) :
    Formed true stop false (t :: ts) (r .whileStatement)
  declaration {stop : Token} {ts : List Token} (h : declaresOne ts = true) : Formed false stop false ts (r .declaration)
  record {stop t : Token} {ts : List Token} (kind : RecordKind) (name : Token) (ht : t.kind.ends = false) :
    Formed false stop false (t :: ts) (r (.record kind name))
  blockBody {stop : Token} {ts : List Token} (start : Token) : Bodied stop ts (r (.blockBody start))
  fields {stop : Token} {ts : List Token} (name : Token) : Bodied stop ts (r (.fields name))
  variants {stop : Token} {ts : List Token} (name : Token) : Bodied stop ts (r (.variants name))

namespace Rules

variable {r : Rules} {w : Bool} {stop t : Token} {b : Bool} {ts : List Token}

theorem Inner.exprList (h : r.Inner) (power : Nat) : Inside stop b ts (r.exprList power) :=
  .peek (.bind (h.inside (.exprs power) rfl) fun _ _ _ => .pure)

theorem Inner.typeList (h : r.Inner) : Inside stop b ts r.typeList := .peek (.bind (h.inside .types rfl) fun _ _ _ => .pure)

/-! ### Statements without braces -/

theorem formed_useDeclaration (h : r.Inner) (ht : t.kind.ends = false) : Formed w stop b (t :: ts) r.useDeclaration := by
  refine .bump ht (.bind (h.inside (.path t) rfl) fun _ _ _ => .bind (.eat rfl) fun v _ _ => ?_)
  split
  · refine .bind (.expect? rfl) fun t? _ _ => ?_
    cases t? <;> exact .bind .pure fun _ _ _ => .semicolon
  · exact .bind .pure fun _ _ _ => .semicolon

theorem formed_manyDeclaration (h : r.Inner) (hmany : declaresMany ts = true) : Formed w stop b ts r.manyDeclaration := by
  refine .peek (Local.bind (h.names hmany) fun _ o _ ho => ?_)
  obtain ⟨ho, t, us, hleft, ht⟩ := ho
  refine Formed.after ho ?_
  rw [hleft]
  refine .bump ht (.bind h.typeList fun _ _ _ => .isRecovering (.bind (.eat rfl) fun v _ _ => ?_))
  split
  · exact .bind (h.exprList _) fun _ _ _ => .semicolon
  · exact .semicolon

theorem formed_expression (h : r.Inner) : Formed w stop b ts r.expression := by
  refine .peek (.bind (h.expr 0) fun _ _ _ => .bind .check fun more _ _ => .isRecovering ?_)
  split
  · refine .bind (h.inside .furtherMembers rfl) fun _ _ _ => .peek (.bind (.eat rfl) fun v _ _ => ?_)
    split
    · exact .bind (h.exprList _) fun _ _ _ => .bind .pure fun _ _ _ => .semicolon
    · exact .bind .pure fun _ _ _ => .semicolon
  · exact .bind .pure fun _ _ _ => .semicolon

theorem formed_returnStatement (h : r.Inner) (ht : t.kind.ends = false) : Formed w stop b (t :: ts) r.returnStatement := by
  refine .bump ht (.bind .check fun v _ _ => ?_)
  split
  · exact .semicolon
  · exact .bind (h.exprList 0) fun _ _ _ => .semicolon

theorem formed_loopExit (exit : LoopExit) (ht : t.kind.ends = false) : Formed w stop b (t :: ts) (loopExit exit) :=
  .bump ht .semicolon

/-! ### Statements with parts -/

theorem formed_typedDeclaration (h : r.Stated) (name : Token) : Formed w stop false ts (r.typedDeclaration name) := by
  refine .bind h.inner.typeExpr fun ty b ts => .isRecovering ?_
  cases b with
  | true => exact .broken
  | false =>
    refine .eat (by simp) (fun t us ht => Formed.after (.one (by rw [ht]; rfl) us) (.peek ?_)) .semicolon
    refine .eat (by simp) (fun t us ht => Formed.braced ht (h.blockBody _)) ?_
    exact .bind (h.inner.expr 0) fun _ _ _ => .semicolon

theorem formed_declaration (h : r.Stated) (hone : declaresOne ts = true) : Formed false stop false ts (r.next .declaration) := by
  rcases ts with _ | ⟨name, _ | ⟨colon, ts⟩⟩
  · simp [declaresOne, nameBefore] at hone
  · simp [declaresOne, nameBefore] at hone
  simp only [declaresOne, nameBefore, List.head?_cons, List.tail_cons, Option.any_some, Bool.and_eq_true, Token.isIdent,
    Token.isSymbol, beq_iff_eq] at hone
  refine .bump (by rw [hone.1]; rfl) (.bump (by rw [hone.2]; rfl) (Local.text fun htext => Formed.peek ?_))
  have htyped : Formed false stop false ts (r.typedDeclaration name) := formed_typedDeclaration h name
  cases ts with
  | nil =>
    rw [List.headD_nil, htext.stop]
    exact htyped
  | cons t ts =>
    rw [List.headD_cons]
    cases hk : t.kind with
    | keyword w =>
      have ht : t.kind.ends = false := by rw [hk]; rfl
      cases w
      case structWord => exact h.record .struct name ht
      case unionWord => exact h.record .union name ht
      case enumWord => exact .bump ht (.braces fun _ => h.variants name)
      case externWord => exact .bump ht (.bind h.inner.typeExpr fun _ _ _ => .semicolon)
      all_goals exact htyped
    | symbol s => exact htyped
    | _ => exact htyped

theorem formed_record (h : r.Stated) (kind : RecordKind) (name : Token) (ht : t.kind.ends = false) :
    Formed false stop false (t :: ts) (r.next (.record kind name)) :=
  .bump ht (.braces fun _ => h.fields name)

theorem formed_ifStatement (h : r.Stated) (ht : t.kind.ends = false) :
    Formed true stop false (t :: ts) (r.next .ifStatement) := by
  refine .bump ht (.bind (h.inner.expr 0) fun condition b ts => .isRecovering ?_)
  cases b with
  | true => exact .broken
  | false =>
    refine Local.bind h.statement fun yes o _ ho => ?_
    obtain ⟨ho, hrec⟩ := ho
    rw [hrec]
    refine Local.bind (local_eat (by simp)) fun v o' hleft ho' => ?_
    cases ho' with
    | yes hts hk =>
      exact .map (h.statement.mono fun _ o' _ ho' => ho.orElse hrec hk hts ho'.1 ho'.2)
    | no hk =>
      refine .pure ?_
      rw [Outcome.andThen_none]
      have heq : o.andThen ⟨[], o.left, [], false, fun us stop' => (us.headD stop').kind ≠ .keyword .elseWord⟩ =
          { o with allows := fun us stop' => (us.headD stop').kind ≠ .keyword .elseWord ∧ o.allows us stop' } := by
        simp [Outcome.andThen, hrec, and_comm]
      rw [heq]
      exact ho.restrict (fun us stop' hus => hus ▸ hk) fun _ _ _ hne => hne rfl

theorem formed_whileStatement (h : r.Stated) (ht : t.kind.ends = false) :
    Formed true stop false (t :: ts) (r.next .whileStatement) := by
  refine .bump ht (.bind (h.inner.expr 0) fun condition b ts => .isRecovering ?_)
  cases b with
  | true => exact .broken
  | false => exact .map (h.statement.mono fun _ _ _ ho => ho.1)

/-! ### What is between braces -/

theorem bodied_blockBody (h : r.Stated) (start : Token) : Bodied stop ts (r.next (.blockBody start)) := by
  refine .peek ?_
  split
  next hk => exact .close hk
  next hk => exact .report _
  next hclose heof =>
    refine .cons (local_advancing h.statement fun _ o hts ho hnil => ?_) (h.blockBody start)
    -- a statement that took nothing would be in front of something that closes the block
    rcases (ho.1.endless (hnil ▸ .nil)).2 with hrec | hcloses
    · exact absurd (ho.2.symm.trans hrec) (by decide)
    · rw [hnil, List.nil_append] at hts
      rw [← hts, TokenKind.not_closes hclose heof] at hcloses
      cases hcloses

/-- One field, or what is in the place of one. -/
def field (r : Rules) (t : Token) : Rule Stmt := do
  if t.isIdent && (← peekSecond).isSymbol .colon then orSkip (r .declaration)
  else
    let found ← unexpected .field
    advancing skipStatement
    return .missing found

theorem furtherFields_eq (name : Token) :
    r.furtherFields name t = do let field ← r.field t; let rest ← r (.fields name); return field :: rest := by
  simp only [furtherFields, field, orSkip, bind_assoc]
  refine bind_congr fun v => ?_
  split
  · simp only [bind_assoc]
    refine bind_congr fun f => bind_congr fun b => ?_
    split
    · simp only [bind_assoc, pure_bind]
    · simp only [pure_bind]
  · simp only [bind_assoc, pure_bind]

theorem settled_field (h : r.Stated) (hcloses : (ts.headD stop).kind.closes = false) :
    Settled false stop ts (r.field (ts.headD stop)) := by
  have hfield : ∀ s : ParseState, s.stop.kind = .eof → glance s.stop s.rest = glance stop ts →
      r.field (ts.headD stop) s = (if declaresOne ts = true then orSkip (r .declaration)
        else do let found ← unexpected .field; advancing skipStatement; return .missing found : Rule Stmt) s := by
    intro s hs hglance
    have hfirst : s.rest.headD s.stop = ts.headD stop := congrArg Glance.first hglance
    have hone : declaresOne s.rest = declaresOne ts := congrArg Glance.one hglance
    rw [← hfirst, ← hone, declaresOne_eq hs]
    rfl
  refine (local_glance hfield (Q := fun _ o => o.Form false stop false ∧ o.recovering = false) ?_).mono fun _ o _ ho => ?_
  · by_cases hone : declaresOne ts = true
    · rw [if_pos hone]
      exact (h.declaration hone).glanced.orSkip
    · rw [if_neg hone]
      refine Local.bind (local_unexpected _) fun found o _ ho => ?_
      obtain ⟨-, rfl⟩ := ho
      refine .map ((local_advancing local_skipStatement fun _ o hts ho hnil => ?_).mono fun _ o hts ho => ?_)
      · have hskipped := ho.skipped.closes (hnil ▸ .nil)
        rw [hnil, List.nil_append] at hts
        rw [← hts] at hskipped
        exact absurd (hskipped.symm.trans hcloses) (by decide)
      · exact ⟨Outcome.Form.skip (.missed ts _) rfl ho hts, ho.recovering⟩
  · obtain ⟨o, rfl, ho, hrec⟩ := ho
    exact ⟨ho.glancing hrec, hrec⟩

theorem bodied_fields (h : r.Stated) (name : Token) : Bodied stop ts (r.next (.fields name)) := by
  refine .peek ?_
  split
  next hk => exact .close hk
  next hk => exact .report _
  next hclose heof =>
    rw [furtherFields_eq]
    exact .cons (settled_field h (TokenKind.not_closes hclose heof)) (h.fields name)

theorem bodied_variants (h : r.Stated) (name : Token) : Bodied stop ts (r.next (.variants name)) := by
  refine Local.bind (local_eat (by simp)) fun v o _ ho => ?_
  cases ho with
  | yes hts hk => exact .pure ((Outcome.andThen_none _).symm ▸ .one _ _)
  | no hk =>
    refine Bodied.after (.notEaten hk) (Local.bind (local_expect? (by simp)) fun t? o _ ho => ?_)
    cases ho with
    | no hk error => exact Bodied.skipUntil error
    | yes hts hk =>
      refine Bodied.after (.one (by rw [hk]; rfl) _) (Local.bind (local_eat (by simp)) fun v o _ ho => ?_)
      cases ho with
      | yes hts hk => exact Bodied.after (.one (by rw [hk]; rfl) _) (.map (h.variants name))
      | no hk =>
        refine Bodied.after (.notEaten hk) ?_
        show Local _ _ _ ((expect? (.symbol .curlyClose) >>= fun t? => pure t?.isSome) >>= _) _
        rw [bind_assoc]
        refine Local.bind (local_expect? (by simp)) fun t? o _ ho => ?_
        cases ho with
        | yes hts hk => exact .pure ((Outcome.andThen_none _).symm ▸ .one _ _)
        | no hk error => exact Bodied.skipUntil error

/-! ### Any statement -/

/-- A statement that begins with a name. -/
theorem glanced_nameForm (h : r.Stated) (hident : (ts.headD stop).isIdent = true) :
    Glanced w stop ts (do
      if (← peekSecond).isSymbol .colon then r .declaration
      else if declaresMany (← get).rest then r.manyDeclaration
      else r.expression) := by
  refine local_glance (y := if declaresOne ts = true then r .declaration
    else if declaresMany ts = true then r.manyDeclaration else r.expression) (fun s hs hglance => ?_) ?_
  · have hfirst : s.rest.headD s.stop = ts.headD stop := congrArg Glance.first hglance
    have hone : declaresOne s.rest = declaresOne ts := congrArg Glance.one hglance
    have hmany : declaresMany s.rest = declaresMany ts := congrArg Glance.many hglance
    rw [← hone, ← hmany, declaresOne_eq hs, hfirst, hident, Bool.true_and]
    show (if (s.rest.tail.headD s.stop).isSymbol .colon = true then r .declaration else do
      if declaresMany (← get).rest = true then r.manyDeclaration else r.expression : Rule Stmt) s = _
    split <;> rfl
  · split
    next hone => exact (h.declaration hone).weaken
    next =>
      split
      next hmany => exact formed_manyDeclaration h.inner hmany
      next => exact formed_expression h.inner

theorem glanced_statementForm (h : r.Stated) : Glanced true stop ts (r.next .statementForm) := by
  refine Local.text fun htext => Glanced.peek ?_
  have hexpression : Glanced true stop ts r.expression := (formed_expression h.inner).glanced
  cases ts with
  | nil =>
    rw [List.headD_nil, htext.stop]
    exact hexpression
  | cons t ts =>
    rw [List.headD_cons]
    cases hk : t.kind with
    | symbol s =>
      cases s
      case curlyOpen =>
        refine Formed.glanced (Local.bind local_bump fun t' o _ ho => ?_)
        obtain ⟨-, rfl⟩ := ho
        exact .map ((h.blockBody t).mono fun _ _ _ ho => .braced hk ho ts)
      case semicolon =>
        refine Formed.glanced (Local.map (local_bump.mono fun t' o _ ho => ?_))
        obtain ⟨-, rfl⟩ := ho
        exact .ended hk ts
      all_goals exact hexpression
    | keyword w =>
      have ht : t.kind.ends = false := by rw [hk]; rfl
      cases w
      case useWord => exact (formed_useDeclaration h.inner ht).glanced
      case ifWord => exact (h.ifStatement ht).glanced
      case whileWord => exact (h.whileStatement ht).glanced
      case returnWord => exact (formed_returnStatement h.inner ht).glanced
      case breakWord => exact (formed_loopExit .leave ht).glanced
      case continueWord => exact (formed_loopExit .again ht).glanced
      all_goals exact hexpression
    | ident => exact glanced_nameForm h (show t.isIdent = true by simp [Token.isIdent, hk])
    | _ => exact hexpression

/-! ## Depth -/

theorem Stated.next (h : r.Stated) : r.next.Stated where
  inner := h.inner.next
  form := glanced_statementForm h
  statement := h.form.orSkip
  ifStatement := formed_ifStatement h
  whileStatement := formed_whileStatement h
  declaration := formed_declaration h
  record := formed_record h
  blockBody := bodied_blockBody h
  fields := bodied_fields h
  variants := bodied_variants h

/-- Rules that give up. -/
def givingUp : Rules where
  call
    | .statement => orSkip missingDeclaration
    | .variants name => do
      let _ ← unexpected .declaration
      return [.missing name]
    | c => exhausted c

theorem inner_givingUp : givingUp.Inner where
  inside c hc := by
    intro stop b ts
    cases c with
    | expr | operators | operand => exact .missingExpr
    | arguments | indices | members | exprs => exact .bind .missingExpr fun _ _ _ => .pure
    | typeExpr => exact .missingType
    | types => exact .bind .missingType fun _ _ _ => .pure
    | parameters | parameterList | parameter => exact .bind (.unexpected _) fun _ _ _ => .pure
    | path | furtherMembers => exact .pure
    | _ => cases hc
  names {stop b ts} hmany := by
    rcases ts with _ | ⟨t, _ | ⟨t', us⟩⟩
    · cases hmany
    · cases hmany
    · simp only [declaresMany, Token.isIdent, Bool.and_eq_true, beq_iff_eq] at hmany
      exact .pure ⟨.none _, t, t' :: us, rfl, by rw [hmany.1]; rfl⟩

theorem formed_missingDeclaration : Formed w stop false ts missingDeclaration := by
  refine .map ((local_unexpected _).mono fun _ o _ ho => ?_)
  obtain ⟨-, rfl⟩ := ho
  exact .missed ts _

theorem stated_givingUp : givingUp.Stated where
  inner := inner_givingUp
  form := formed_missingDeclaration.glanced
  statement := formed_missingDeclaration.glanced.orSkip
  ifStatement _ := formed_missingDeclaration
  whileStatement _ := formed_missingDeclaration
  declaration _ := formed_missingDeclaration
  record _ _ _ := formed_missingDeclaration
  blockBody _ := Bodied.unexpected (f := fun t => [Stmt.missing t]) .declaration
  fields _ := Bodied.unexpected (f := fun t => [Stmt.missing t]) .declaration
  variants name := Bodied.unexpected (f := fun _ => [Name.missing name]) .declaration

theorem stated_ofDepth (n : Nat) : (ofDepth givingUp n).Stated := by
  induction n with
  | zero => exact stated_givingUp
  | succ n ih => exact ih.next

end Rules

end Wordstack
