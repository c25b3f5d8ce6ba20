/-
Items one after the other. Behind items without errors, whatever tokens come up to the next semicolon are one item, and
reading goes on behind it as if nothing had happened. There is one exception: a list of expressions is read with its
semicolon, as a statement is, and only then refused; the rest of the statement that is skipped is then
the item behind it.
-/
import Wordstack.Proofs.Recovery
import Wordstack.Proofs.Spacing

namespace Wordstack

open Rule

variable {b : Bool} {stop : Token} {ts : List Token}

/-- There is one outcome, so what is said of it twice is said of the same. -/
theorem Local.and {α : Type} {x : Rule α} {Q Q' : α → Outcome → Prop}
    (hx : Local stop b ts x Q) (hx' : Local stop b ts x Q') (h : ∀ a o allows, Q' a o → Q' a { o with allows := allows }) :
    Local stop b ts x fun a o => Q a o ∧ Q' a o := by
  intro htext
  obtain ⟨a, o, hts, hallows, hrun, hq⟩ := hx htext
  obtain ⟨a', ⟨q, left, errors, recovering, allows⟩, hts', hallows', hrun', hq'⟩ := hx' htext
  have hthere := hrun o.left stop [] (hts ▸ htext).right hallows
  have hthere' := hrun' left stop [] (hts' ▸ htext).right hallows'
  rw [← hts] at hthere
  rw [← hts'] at hthere'
  obtain ⟨rfl, hstate⟩ := Prod.mk.inj (hthere.symm.trans hthere')
  obtain ⟨rfl, -, herrors, rfl⟩ := ParseState.mk.inj hstate
  obtain rfl : o.errors = errors := herrors
  obtain rfl : o.taken = q := List.append_cancel_right (hts.symm.trans hts')
  exact ⟨a, o, hts, hallows, hrun, hq, h a ⟨o.taken, o.left, o.errors, o.recovering, allows⟩ o.allows hq'⟩

/-! ## Errors of expressions -/

/-- Besides the errors of the tokens, one is reported if the rule is in recovery behind it, and else none. -/
def Outcome.Counted (b : Bool) (o : Outcome) : Prop :=
  o.errors.length + b.toNat = o.recovering.toNat + (lexicalErrors o.taken).length

/-- The rule reports what it is in recovery for. -/
def Counting {α : Type} (stop : Token) (b : Bool) (ts : List Token) (x : Rule α) : Prop :=
  Local stop b ts x fun _ o => o.Counted b

namespace Counting

variable {α β : Type} {stop : Token} {b : Bool} {ts : List Token} {x : Rule α} {f : α → Rule β}

theorem bind (hx : Inside stop b ts x) (hf : ∀ a b' ts', Counting stop b' ts' (f a)) : Counting stop b ts (x >>= f) := by
  refine Local.bind hx fun a o _ ho => (hf a o.recovering o.left).mono fun _ o' _ ho' => ?_
  have hcount := ho.count
  unfold Outcome.Counted at ho' ⊢
  simp only [Outcome.andThen, List.length_append, lexicalErrors_append]
  omega

theorem semicolon {a : α} : Counting stop b ts (expect (.symbol .semicolon) >>= fun _ => pure a) := by
  cases b with
  | true => exact Local.pure rfl
  | false =>
    show Local stop false ts ((expect? (.symbol .semicolon) >>= fun t? => pure t?.isSome) >>= fun _ => pure a) _
    rw [bind_assoc]
    refine .map ((local_expect? (by simp)).mono fun _ o _ ho => ?_)
    cases ho with
    | yes hts hk => simp [Outcome.Counted, Outcome.one]
    | no hk error => simp [Outcome.Counted, Outcome.miss, lexicalErrors]

end Counting

theorem inside_peek : Inside stop b ts peek := by
  have h : Inside stop b ts (peek >>= pure) := .peek .pure
  rwa [bind_pure] at h

theorem inside_isRecovering : Inside stop b ts isRecovering := by
  have h : Inside stop b ts (isRecovering >>= pure) := .isRecovering .pure
  rwa [bind_pure] at h

theorem Rules.counting_expression {r : Rules} (h : r.Inner) : Counting stop b ts r.expression := by
  refine .bind inside_peek fun _ _ _ => .bind (h.expr 0) fun _ _ _ => .bind .check fun more _ _ => ?_
  refine .bind inside_isRecovering fun broken _ _ => ?_
  split
  · refine .bind (h.inside .furtherMembers rfl) fun _ _ _ => .bind inside_peek fun _ _ _ => .bind (.eat rfl) fun v _ _ => ?_
    split
    · exact .bind (h.exprList _) fun _ _ _ => .bind .pure fun _ _ _ => .semicolon
    · exact .bind .pure fun _ _ _ => .semicolon
  · exact .bind .pure fun _ _ _ => .semicolon

/-! ## What an item is told by -/

def Stmt.isSwap : Stmt → Bool
  | .swap .. => true
  | _ => false

namespace Rules

variable {r : Rules} {stop t : Token} {ts g : List Token} {s : Stmt} {o : Outcome}

/-- A list of expressions in the place of an item, of which `t` is the first token. -/
def listItem (r : Rules) (t : Token) : Rule Stmt := do
  let s ← r.expression
  if s.isSwap then return s
  else
    report (.misplaced s.span)
    return .misplaced t s

/-- An item, if it is known what comes up. -/
def itemBy (r : Rules) (g : Glance) : Rule Stmt :=
  if g.first.kind = .keyword .useWord then r.useDeclaration
  else if g.one then r .declaration
  else if g.listed then if g.many then r.manyDeclaration else r.listItem g.first
  else missingDeclaration

theorem item_eq {s : ParseState} (hstop : s.stop.kind = .eof) : r.item s = r.itemBy (glance s.stop s.rest) s := by
  have hends : s.stop.kind.ends = true := by rw [hstop]; rfl
  have hone : declaresOne s.rest = ((s.rest.headD s.stop).isIdent && (s.rest.tail.headD s.stop).isSymbol .colon) :=
    declaresOne_eq hstop
  have hlisted : nameBefore .comma s.rest =
      ((s.rest.headD s.stop).isIdent && (s.rest.tail.headD s.stop).isSymbol .comma) :=
    nameBefore_eq (not_isIdent_of_ends hends) (not_isSymbol_of_ends hends).2
  have hlist : (do
      let stmt ← r.expression
      match stmt with
      | .swap .. => return stmt
      | _ =>
        report (.misplaced stmt.span)
        return .misplaced (s.rest.headD s.stop) stmt : Rule Stmt) = r.listItem (s.rest.headD s.stop) :=
    bind_congr fun stmt => by cases stmt <;> rfl
  unfold item itemBy
  rw [peek_bind]
  simp only [glance, hone, hlisted]
  by_cases huse : (s.rest.headD s.stop).kind = .keyword .useWord
  · simp only [huse, if_true]
  rw [if_neg huse]
  by_cases hident : (s.rest.headD s.stop).kind = .ident
  · simp only [Token.isIdent, hident, beq_self_eq_true, Bool.true_and]
    show (if (s.rest.tail.headD s.stop).isSymbol .colon = true then _
      else if (s.rest.tail.headD s.stop).isSymbol .comma = true then _ else _ : Rule Stmt) s = _
    split
    · rfl
    split
    · show (if declaresMany s.rest = true then _ else _ : Rule Stmt) s = _
      split
      · rfl
      · exact congrFun hlist s
    · rfl
  · have hnot : (s.rest.headD s.stop).isIdent = false := by simpa [Token.isIdent] using hident
    simp only [hnot, Bool.false_and, Bool.false_eq_true, if_false]

theorem itemOrSkip_eq : r.itemOrSkip = orSkip r.item := rfl

/-- An item is one for a statement, if a list in its place is. -/
theorem glanced_item (hlist : nameBefore .comma ts = true → declaresMany ts = false →
    Formed false stop false ts (whole.listItem (ts.headD stop))) : Glanced false stop ts whole.item := by
  refine Local.text fun htext => local_glance (y := whole.itemBy (glance stop ts)) (fun s hs hglance => ?_) ?_
  · rw [item_eq hs, hglance]
  unfold itemBy glance
  split
  next huse =>
    cases ts with
    | nil => exact absurd (htext.stop.symm.trans huse) (by simp)
    | cons t ts =>
      have ht : t.kind.ends = false := by rw [show t.kind = _ from huse]; rfl
      exact formed_useDeclaration whole_inner ht
  split
  next hone => exact formed_declaration_whole hone
  split
  next hlisted =>
    split
    next hmany => exact formed_manyDeclaration whole_inner hmany
    next hmany => exact hlist hlisted (by simpa using hmany)
  next => exact formed_missingDeclaration

/-! ## Lists in the place of an item -/

/-- What comes of reading a list of expressions as a statement. -/
structure ReadList (stop : Token) (ts : List Token) (s : Stmt) (o : Outcome) : Prop where
  reads : Local stop false ts whole.expression fun s' o' => s' = s ∧ o' = o
  form : o.Form false stop false
  count : o.Counted false

theorem exists_readList (htext : Text ts stop) : ∃ s o, ReadList stop ts s o := by
  obtain ⟨s, o, hts, hallows, hrun, hform, hcount⟩ :=
    Local.and (formed_expression (w := false) whole_inner) (counting_expression whole_inner) (fun _ _ _ h => h) htext
  exact ⟨s, o, fun _ => ⟨s, o, hts, hallows, hrun, rfl, rfl⟩, hform, hcount⟩

namespace ReadList

/-- A list that is broken, or followed by its values, is a statement as any other. -/
theorem formed (h : ReadList stop ts s o) (hok : o.recovering = true ∨ s.isSwap = true) (t : Token) :
    Formed false stop false ts (whole.listItem t) := by
  refine Local.bind h.reads fun s' o' _ ho => ?_
  obtain ⟨rfl, rfl⟩ := ho
  by_cases hswap : s'.isSwap = true
  · rw [if_pos hswap]
    exact .pure ((Outcome.andThen_none o').symm ▸ h.form)
  · have hrec := hok.resolve_right hswap
    rw [if_neg hswap]
    refine .map ((local_report _).mono fun _ o'' _ ho => ?_)
    have heq : o'.andThen o'' = o' := by
      rw [ho, hrec]
      simp [Outcome.andThen, ← hrec]
    exact heq.symm ▸ h.form

/-- A complete list is refused behind its end. -/
theorem refused (h : ReadList stop ts s o) (hrec : o.recovering = false) (hswap : s.isSwap = false) (htext : Text ts stop)
    (t : Token) : ts = o.taken ++ o.left ∧ o.allows o.left stop ∧ ∀ us stop' e, Text us stop' → o.allows us stop' →
      whole.listItem t ⟨o.taken ++ us, stop', e, false⟩ =
        (.misplaced t s, ⟨us, stop', e ++ o.errors ++ [.misplaced s.span], true⟩) := by
  obtain ⟨s', o', hts, hallows, hrun, rfl, rfl⟩ := h.reads htext
  refine ⟨hts, hallows, fun us stop' e hus hus' => ?_⟩
  have hrun := hrun us stop' e hus hus'
  show (if (whole.expression ⟨o'.taken ++ us, stop', e, false⟩).1.isSwap = true then
      pure (whole.expression ⟨o'.taken ++ us, stop', e, false⟩).1 else do
        report (.misplaced (whole.expression ⟨o'.taken ++ us, stop', e, false⟩).1.span)
        return .misplaced t (whole.expression ⟨o'.taken ++ us, stop', e, false⟩).1 : Rule Stmt)
    (whole.expression ⟨o'.taken ++ us, stop', e, false⟩).2 = _
  rw [hrun, if_neg (by simp [hswap]), hrec]
  rfl

end ReadList

/-- A name and a comma are not a name and a colon. -/
theorem nameBefore_comma {us : List Token} (hstop : stop.kind = .eof) (h : nameBefore .comma us = true) :
    (us.headD stop).kind = .ident ∧ (us.tail.headD stop).isSymbol .colon = false := by
  have hends : stop.kind.ends = true := by rw [hstop]; rfl
  rw [nameBefore_eq (not_isIdent_of_ends hends) (not_isSymbol_of_ends hends).2, Bool.and_eq_true] at h
  simp only [Token.isIdent, Token.isSymbol, beq_iff_eq] at h ⊢
  rw [h.2]
  exact ⟨h.1, rfl⟩

theorem item_of_list {s : ParseState} (hstop : s.stop.kind = .eof) (hlisted : nameBefore .comma s.rest = true)
    (hmany : declaresMany s.rest = false) : whole.item s = whole.listItem (s.rest.headD s.stop) s := by
  obtain ⟨hident, hcolon⟩ := nameBefore_comma hstop hlisted
  have hone : declaresOne s.rest = false := by rw [declaresOne_eq hstop, hcolon, Bool.and_false]
  rw [item_eq hstop]
  simp only [itemBy, glance, hident, hone, hlisted, hmany, reduceCtorEq, if_false, if_true, Bool.false_eq_true]

theorem orSkip_eq {α : Type} (x : Rule α) (s : ParseState) :
    orSkip x s = ((x s).1, if (x s).2.recovering = true then (skipStatement (x s).2).2 else (x s).2) := by
  show (if (x s).2.recovering = true then skipStatement >>= fun _ => pure (x s).1 else pure (x s).1 : Rule α) (x s).2 = _
  split <;> rfl

/-- Where a list comes up, a statement is one. -/
theorem whole_statement_list {s : ParseState} (hstop : s.stop.kind = .eof) (hlisted : nameBefore .comma s.rest = true)
    (hmany : declaresMany s.rest = false) : whole .statement s = orSkip whole.expression s := by
  obtain ⟨hident, hcolon⟩ := nameBefore_comma hstop hlisted
  have hform : whole .statementForm s = whole.expression s := by
    rw [whole_next _ hstop]
    simp only [next]
    rw [peek_bind]
    simp only [hident]
    show (if (s.rest.tail.headD s.stop).isSymbol .colon = true then _
      else do if declaresMany (← get).rest then _ else _ : Rule Stmt) s = _
    rw [if_neg (by rw [hcolon]; decide)]
    show (if declaresMany s.rest = true then _ else _ : Rule Stmt) s = _
    rw [if_neg (by rw [hmany]; decide)]
  rw [whole_next _ hstop]
  show orSkip (whole .statementForm) s = _
  rw [orSkip_eq, hform, orSkip_eq]

end Rules

/-- Whether the tokens are a list of expressions and its semicolon: a statement without errors that begins with a name and
a comma and is neither a declaration nor a swap. -/
def isBareList (ts : List Token) : Bool :=
  nameBefore .comma ts && !declaresMany ts &&
    let (stmt, s) := Rule.statement (budget ts.length) ⟨ts, .endOfText, [], false⟩
    !stmt.isSwap && s.errors.isEmpty

/-- How many tokens behind an item are skipped with it. -/
def skippedBehind (item behind : List Token) : Nat := if isBareList item = true then statementLength 0 behind else 0

namespace Rules

variable {stop t : Token} {ts g us : List Token} {s : Stmt} {o : Outcome}

theorem isBareList_eq (hlisted : nameBefore .comma ts = true) (hmany : declaresMany ts = false) :
    isBareList ts = (!(orSkip whole.expression ⟨ts, .endOfText, [], false⟩).1.isSwap &&
      (orSkip whole.expression ⟨ts, .endOfText, [], false⟩).2.errors.isEmpty) := by
  have hstatement : Rule.statement (budget ts.length) ⟨ts, .endOfText, [], false⟩ =
      orSkip whole.expression ⟨ts, .endOfText, [], false⟩ := by
    have hstop : (ParseState.mk ts .endOfText [] false).stop.kind = .eof := rfl
    show atDepth (budget ts.length) .statement _ = _
    rw [atDepth_eq_whole .statement hstop (Nat.le_refl _), whole_statement_list hstop hlisted hmany]
  simp only [isBareList, hlisted, hmany, hstatement, Bool.not_false, Bool.true_and]
  rfl

/-- A list is bare if it is complete and no values follow it. -/
theorem ReadList.isBareList_iff (h : ReadList .endOfText ts s o) (htext : Text ts .endOfText)
    (hlexical : lexicalErrors ts = []) (hlisted : nameBefore .comma ts = true) (hmany : declaresMany ts = false) :
    isBareList ts = true ↔ o.recovering = false ∧ s.isSwap = false := by
  obtain ⟨s', o', hts, hallows, hrun, rfl, rfl⟩ := h.reads htext
  have hrun := hrun o'.left .endOfText [] (hts ▸ htext).right hallows
  rw [← hts] at hrun
  rw [isBareList_eq hlisted hmany, orSkip_eq, hrun]
  cases hrec : o'.recovering with
  | true =>
    -- what was reported is still there behind what is skipped
    have herrors : (skipStatement ⟨o'.left, .endOfText, o'.errors, true⟩).2.errors ≠ [] := fun hnil =>
      h.form.reported rfl hrec (List.append_eq_nil_iff.mp hnil).1
    simp [herrors]
  | false =>
    have hcount := h.count
    have hnone : lexicalErrors o'.taken = [] := by
      rw [hts, lexicalErrors_append] at hlexical
      exact (List.append_eq_nil_iff.mp hlexical).1
    simp only [Outcome.Counted, hrec, hnone, Bool.toNat_false, List.length_nil, Nat.add_zero, List.length_eq_zero_iff] at hcount
    simp [hcount]

/-- Any tokens up to a semicolon are one item, with one error at most. -/
theorem itemOrSkip_broken (hg : Endless g) (hlexical : lexicalErrors g = []) (ht : t.kind = .symbol .semicolon) :
    ∃ a errors, errors.length ≤ 1 ∧ ∀ us stop' e, Text us stop' → whole.itemOrSkip ⟨g ++ t :: us, stop', e, false⟩ =
        (a, ⟨us.drop (skippedBehind (g ++ [t]) us), stop',
          e ++ errors ++ lexicalErrors (us.take (skippedBehind (g ++ [t]) us)), false⟩) := by
  have htext : Text (g ++ [t]) .endOfText := hg.text (by simp [ht]) rfl
  have hnone : lexicalErrors (g ++ [t]) = [] := by rw [lexicalErrors_append, hlexical, lexicalErrors_symbol ht]; rfl
  by_cases hbare : isBareList (g ++ [t]) = true
  · obtain ⟨hlisted, hmany⟩ : nameBefore .comma (g ++ [t]) = true ∧ declaresMany (g ++ [t]) = false := by
      simp only [isBareList, Bool.and_eq_true, Bool.not_eq_true'] at hbare
      exact hbare.1
    obtain ⟨s, o, hread⟩ := exists_readList htext
    obtain ⟨hrec, hswap⟩ := (hread.isBareList_iff htext hnone hlisted hmany).mp hbare
    obtain ⟨hts, -, hrun⟩ := hread.refused hrec hswap htext ((g ++ [t]).headD .endOfText)
    have htaken := Settled.taken_eq hread.form hrec hts hg ht
    have herrors : o.errors = [] := by
      have hcount := hread.count
      simpa [Outcome.Counted, hrec, htaken, hnone] using hcount
    rcases (hread.form.first g t [] htaken hg ht).2 with ⟨_, _, _, h, -⟩ | ⟨-, -, hall⟩
    · cases h
    refine ⟨.misplaced ((g ++ [t]).headD .endOfText) s, [.misplaced s.span], Nat.le_refl 1, fun us stop' e hus => ?_⟩
    have hends := TokenKind.ends_semicolon ht
    have hitem : whole.item ⟨g ++ t :: us, stop', e, false⟩ =
        whole.listItem ((g ++ [t]).headD .endOfText) ⟨g ++ t :: us, stop', e, false⟩ := by
      rw [item_of_list hus.stop ((listed_end hends).trans (listed_end hends ▸ hlisted))
        ((declaresMany_end hends).trans (declaresMany_end hends ▸ hmany))]
      have hhead : (g ++ t :: us).headD stop' = (g ++ [t]).headD .endOfText := by cases g <;> rfl
      rw [← hhead]
    have hrun := hrun us stop' e hus (hall us stop' nofun)
    rw [htaken, List.append_assoc, herrors, List.append_nil] at hrun
    rw [itemOrSkip_eq, orSkip_eq, hitem]
    rw [show g ++ t :: us = g ++ ([t] ++ us) from rfl, hrun, skippedBehind, if_pos hbare]
    rfl
  · have hglanced : Glanced false .endOfText (g ++ [t]) whole.item := by
      refine glanced_item fun hlisted hmany => ?_
      obtain ⟨s, o, hread⟩ := exists_readList htext
      refine hread.formed ?_ _
      rw [hread.isBareList_iff htext hnone hlisted hmany] at hbare
      by_cases hrec : o.recovering = true
      · exact .inl hrec
      · exact .inr (by simpa [hrec] using hbare)
    obtain ⟨a, errors, hcount, hrun⟩ := hglanced.orSkip.broken hg hlexical ht htext
    refine ⟨a, errors, hcount, fun us stop' e hus => ?_⟩
    rw [skippedBehind, if_neg hbare, List.take_zero, List.drop_zero]
    show _ = (a, ParseState.mk us stop' (e ++ errors ++ []) false)
    rw [List.append_nil]
    exact hrun us stop' e hus nofun

/-! ## Items one after the other -/

/-- What is read of an item does not depend on the errors before it; without errors, it does not depend on what stands
behind it either. -/
theorem itemOrSkip_run (htext : Text ts stop) : ∃ a q left errors, ts = q ++ left ∧
    (∀ e, whole.itemOrSkip ⟨ts, stop, e, false⟩ = (a, ⟨left, stop, e ++ errors, false⟩)) ∧
    (errors = [] → q ≠ [] ∧ ∀ us stop' e, Text us stop' →
      (us.headD stop' = left.headD stop ∨ (us.headD stop').kind.continues false = false) →
      whole.itemOrSkip ⟨q ++ us, stop', e, false⟩ = (a, ⟨us, stop', e, false⟩)) := by
  obtain ⟨s, o, hread⟩ := exists_readList htext
  by_cases hrefused : nameBefore .comma ts = true ∧ declaresMany ts = false ∧ o.recovering = false ∧ s.isSwap = false
  · obtain ⟨hlisted, hmany, hrec, hswap⟩ := hrefused
    obtain ⟨hts, hallows, hrun⟩ := hread.refused hrec hswap htext (ts.headD stop)
    refine ⟨.misplaced (ts.headD stop) s, o.taken ++ o.left.take (statementLength 0 o.left),
      o.left.drop (statementLength 0 o.left),
      o.errors ++ [.misplaced s.span] ++ lexicalErrors (o.left.take (statementLength 0 o.left)), ?_, fun e => ?_, ?_⟩
    · rw [List.append_assoc, List.take_append_drop]
      exact hts
    · have hrun := hrun o.left stop e (hts ▸ htext).right hallows
      rw [← hts] at hrun
      rw [itemOrSkip_eq, orSkip_eq, item_of_list htext.stop hlisted hmany, hrun]
      show (_, ParseState.mk _ stop (_ ++ lexicalErrors _) false) = _
      simp only [List.append_assoc]
    · intro hnil
      simp at hnil
  · have hglanced : Glanced false stop ts whole.item := by
      refine glanced_item fun hlisted hmany => hread.formed ?_ _
      by_cases hrec : o.recovering = true
      · exact .inl hrec
      · exact .inr (by simpa [hlisted, hmany, hrec] using hrefused)
    obtain ⟨a, o', hts, hallows, hrun, hform, hrec⟩ := hglanced.orSkip htext
    have hthere : ∀ e, whole.itemOrSkip ⟨ts, stop, e, false⟩ = (a, ⟨o'.left, stop, e ++ o'.errors, false⟩) := by
      intro e
      have hrun := hrun o'.left stop e (hts ▸ htext).right hallows
      rwa [← hts, hrec] at hrun
    refine ⟨a, o'.taken, o'.left, o'.errors, hts, hthere, fun hnil => ?_⟩
    obtain ⟨q, hq, hne, -, hother⟩ := hglanced.orSkip.clean htext [] (hthere []) (by rw [hnil]; rfl)
    obtain rfl : q = o'.taken := List.append_cancel_right (hq.symm.trans hts)
    exact ⟨hne, hother⟩

/-- Whether the item takes something or not, fewer tokens are left behind it. -/
theorem advancing_item (htext : Text (t :: ts) stop) : ∃ a left errors, Text left stop ∧ left.length < (t :: ts).length ∧
    (∀ e, advancing whole.itemOrSkip ⟨t :: ts, stop, e, false⟩ = (a, ⟨left, stop, e ++ errors, false⟩)) ∧
    (errors = [] → ∃ q, t :: ts = q ++ left ∧ q ≠ [] ∧ ∀ us stop' e, Text us stop' →
      (us.headD stop' = left.headD stop ∨ (us.headD stop').kind.continues false = false) →
      whole.itemOrSkip ⟨q ++ us, stop', e, false⟩ = (a, ⟨us, stop', e, false⟩)) := by
  obtain ⟨a, q, left, errors, hts, hrun, hclean⟩ := itemOrSkip_run htext
  by_cases hlength : left.length = (t :: ts).length
  · obtain rfl : q = [] := by
      rw [hts, List.length_append] at hlength
      exact List.eq_nil_of_length_eq_zero (by omega)
    obtain rfl : left = t :: ts := hts.symm
    refine ⟨a, ts, errors ++ lexicalErrors [t], (show Text ([t] ++ ts) stop from htext).right, by simp, fun e => ?_, ?_⟩
    · show (if (whole.itemOrSkip ⟨t :: ts, stop, e, false⟩).2.rest.length = (t :: ts).length then
          do take 1; return (whole.itemOrSkip ⟨t :: ts, stop, e, false⟩).1
        else return (whole.itemOrSkip ⟨t :: ts, stop, e, false⟩).1 : Rule Stmt)
        (whole.itemOrSkip ⟨t :: ts, stop, e, false⟩).2 = _
      rw [hrun e, if_pos rfl, ← List.append_assoc]
      rfl
    · intro hnil
      exact absurd rfl (hclean (List.append_eq_nil_iff.mp hnil).1).1
  · refine ⟨a, left, errors, (hts ▸ htext).right, ?_, fun e => advancing_eq (hrun e) hlength, fun hnil => ?_⟩
    · rw [hts, List.length_append] at hlength ⊢
      omega
    · exact ⟨q, hts, hclean hnil⟩

theorem whole_items_nil (hstop : stop.kind = .eof) (e : List ParseError) :
    whole .items ⟨[], stop, e, false⟩ = ([], ⟨[], stop, e, false⟩) := by
  rw [whole_next _ hstop]
  rfl

theorem whole_items_cons {a : Stmt} {s s' : ParseState} (hstop : s.stop.kind = .eof) (hne : s.rest ≠ [])
    (hs : advancing whole.itemOrSkip s = (a, s')) : whole .items s = (a :: (whole .items s').1, (whole .items s').2) := by
  rw [whole_next _ hstop]
  show (if s.rest.length = 0 then pure [] else do
      let a ← advancing whole.itemOrSkip
      let as ← whole .items
      return a :: as : Rule (List Stmt)) s = _
  rw [if_neg (by simpa using hne)]
  show ((advancing whole.itemOrSkip s).1 :: (whole .items (advancing whole.itemOrSkip s).2).1,
    (whole .items (advancing whole.itemOrSkip s).2).2) = _
  rw [hs]

/-- Reading takes all, leaves no recovery behind and adds its errors to those before it. -/
theorem whole_items_run (htext : Text ts stop) :
    ∃ roots errors, ∀ e, whole .items ⟨ts, stop, e, false⟩ = (roots, ⟨[], stop, e ++ errors, false⟩) := by
  induction hn : ts.length using Nat.strongRecOn generalizing ts with
  | ind n ih =>
    subst hn
    cases ts with
    | nil => exact ⟨[], [], fun e => by rw [whole_items_nil htext.stop, List.append_nil]⟩
    | cons t ts =>
      obtain ⟨a, left, errors, hleft, hlength, hrun, -⟩ := advancing_item htext
      obtain ⟨roots, errors', hitems⟩ := ih _ hlength hleft rfl
      refine ⟨a :: roots, errors ++ errors', fun e => ?_⟩
      rw [whole_items_cons htext.stop (List.cons_ne_nil _ _) (hrun e), hitems, List.append_assoc]

theorem parse_tokens (hstop : stop.kind = .eof) : TokenList.parse ⟨ts, stop⟩ =
    ⟨(whole .items ⟨ts, stop, [], false⟩).1, (whole .items ⟨ts, stop, [], false⟩).2.errors⟩ :=
  parse_eq hstop

/-- The items of a text, whatever errors there are before them. -/
theorem whole_items_eq (htext : Text ts stop) (e : List ParseError) : whole .items ⟨ts, stop, e, false⟩ =
    ((TokenList.parse ⟨ts, stop⟩).roots, ⟨[], stop, e ++ (TokenList.parse ⟨ts, stop⟩).errors, false⟩) := by
  obtain ⟨roots, errors, hrun⟩ := whole_items_run htext
  have hparse : TokenList.parse ⟨ts, stop⟩ = ⟨roots, errors⟩ := by
    rw [parse_tokens htext.stop, hrun []]
    rfl
  rw [hparse]
  exact hrun e

end Rules

section

variable {stop stop' : Token} {ts us : List Token}

theorem parse_nil (hstop : stop.kind = .eof) : TokenList.parse ⟨[], stop⟩ = ⟨[], []⟩ := by
  rw [Rules.parse_tokens hstop, Rules.whole_items_nil hstop]

/-- An item and the items behind it. -/
theorem parse_cons {a : Stmt} {errors : List ParseError} (hne : ts ≠ []) (hus : Text us stop)
    (hitem : advancing Rules.whole.itemOrSkip ⟨ts, stop, [], false⟩ = (a, ⟨us, stop, errors, false⟩)) :
    TokenList.parse ⟨ts, stop⟩ =
      ⟨a :: (TokenList.parse ⟨us, stop⟩).roots, errors ++ (TokenList.parse ⟨us, stop⟩).errors⟩ := by
  rw [Rules.parse_tokens hus.stop, Rules.whole_items_cons (s := ⟨ts, stop, [], false⟩) hus.stop hne hitem,
    Rules.whole_items_eq hus]

/-- Items without errors are read as the first ones of a longer text. -/
theorem parse_append (hts : Text ts stop') (herrors : (TokenList.parse ⟨ts, stop'⟩).errors = []) (hus : Text us stop)
    (hnext : (us.headD stop).kind.continues false = false) : TokenList.parse ⟨ts ++ us, stop⟩ =
      ⟨(TokenList.parse ⟨ts, stop'⟩).roots ++ (TokenList.parse ⟨us, stop⟩).roots, (TokenList.parse ⟨us, stop⟩).errors⟩ := by
  induction hn : ts.length using Nat.strongRecOn generalizing ts with
  | ind n ih =>
    subst hn
    cases ts with
    | nil =>
      rw [parse_nil hts.stop]
      rfl
    | cons t ts =>
      obtain ⟨a, left, errors, hleft, hlength, hrun, hclean⟩ := Rules.advancing_item hts
      have hparse := parse_cons (List.cons_ne_nil t ts) hleft (hrun [])
      rw [hparse] at herrors ⊢
      obtain ⟨herrors, herrors'⟩ := List.append_eq_nil_iff.mp herrors
      obtain ⟨q, hq, hne, hitem⟩ := hclean herrors
      have htext : Text (left ++ us) stop := .append hleft.tokens hus
      -- behind the last item comes `us`, behind any other the next item
      have hfollows : (left ++ us).headD stop = left.headD stop' ∨ ((left ++ us).headD stop).kind.continues false = false := by
        cases left with
        | nil => exact .inr hnext
        | cons u left => exact .inl rfl
      have hless : (left ++ us).length ≠ (q ++ (left ++ us)).length := by
        have := List.length_pos_iff.mpr hne
        simp only [List.length_append]
        omega
      have hitem := advancing_eq (hitem (left ++ us) stop [] htext hfollows) hless
      rw [hq, List.append_assoc, parse_cons (by simp [hne]) htext hitem, ih _ hlength hleft herrors' rfl]
      rfl

end

/-! ## Broken items -/

/-- Tokens that are the same up to places are read as items that are. -/
theorem unplaced_parse {ts ts' : TokenList} (hstop : ts.stop.kind = .eof) (h : unplaced ts' = unplaced ts) :
    unplaced ts'.parse = unplaced ts.parse := by
  have hstop' : ts'.stop.kind = .eof := (congrArg (·.stop.kind) h).trans hstop
  have hparse := congrArg TokenList.parse h
  unfold unplaced at hparse ⊢
  rwa [TokenList.parse_move (Span.steady_const .nowhere) hstop', TokenList.parse_move (Span.steady_const .nowhere) hstop]
    at hparse

theorem skippedBehind_le {behind : List Token} (hbehind : Text behind stop) (item : List Token) :
    skippedBehind item behind ≤ behind.length := by
  unfold skippedBehind
  split
  · obtain ⟨q, left, rfl, hskipped⟩ := statementLength_split 0 hbehind
    rw [hskipped.length left stop hbehind.right rfl, List.length_append]
    omega
  · exact Nat.zero_le _

/-- **A broken item stays where it is, unless it is a list.** Behind the items of `before`, which are without errors, come
`broken`, any tokens up to the next semicolon, and `behind`. The tokens of `broken` are read as one item, with one error at
most, and what is behind it as it is read alone; except that a list of expressions takes the rest of a statement
behind its semicolon with it, whatever that is. -/
theorem broken_item_local {before : TokenList} {broken behind : List Token} {semicolon stop : Token}
    (htext : Text (before.tokens ++ (broken ++ semicolon :: behind)) stop) (hstop : before.stop.kind = .eof)
    (hbefore : before.parse.errors = []) (hsemicolon : semicolon.kind = .symbol .semicolon) (hne : broken ≠ [])
    (hendless : Endless broken) (hlexical : lexicalErrors broken = []) :
    ∃ item error skipped rest roots errors, error.length ≤ 1 ∧
      TokenList.parse ⟨broken ++ [semicolon], stop⟩ = ⟨[item], error⟩ ∧
      behind = skipped ++ rest ∧
      skipped.length = (if isBareList (broken ++ [semicolon]) = true then statementLength 0 behind else 0) ∧
      TokenList.parse ⟨before.tokens ++ (broken ++ semicolon :: behind), stop⟩ =
        ⟨before.parse.roots ++ item :: roots, error ++ lexicalErrors skipped ++ errors⟩ ∧
      ∀ alone : TokenList, unplaced alone = unplaced (⟨rest, stop⟩ : TokenList) →
        unplaced alone.parse = unplaced (⟨roots, errors⟩ : Parsed) := by
  have hunit : Text before.tokens before.stop := ⟨htext.left.tokens, hstop⟩
  have hbehind : Text behind stop := (List.append_cons broken semicolon behind ▸ htext.right).right
  obtain ⟨item, error, hcount, hitem⟩ := Rules.itemOrSkip_broken hendless hlexical hsemicolon
  have hle := skippedBehind_le hbehind (broken ++ [semicolon])
  generalize hk : skippedBehind (broken ++ [semicolon]) behind = k at hle
  have hrest : Text (behind.drop k) stop := by
    rw [← List.take_append_drop k behind] at hbehind
    exact hbehind.right
  refine ⟨item, error, behind.take k, behind.drop k, (TokenList.parse ⟨behind.drop k, stop⟩).roots,
    (TokenList.parse ⟨behind.drop k, stop⟩).errors, hcount, ?_, (List.take_append_drop k behind).symm, ?_, ?_,
    fun alone halone => unplaced_parse htext.stop halone⟩
  · -- nothing is left behind the semicolon
    have halone := hitem [] stop [] (.nil htext.stop)
    rw [List.take_nil, List.drop_nil] at halone
    have hlength : ([] : List Token).length ≠ (broken ++ [semicolon]).length := by simp
    rw [parse_cons (by simp) (.nil htext.stop) (advancing_eq halone hlength), parse_nil htext.stop]
    simp [lexicalErrors]
  · rw [List.length_take, Nat.min_eq_left hle, ← hk]
    rfl
  · have hnext : ((broken ++ semicolon :: behind).headD stop).kind.continues false = false := by
      cases broken with
      | nil => exact absurd rfl hne
      | cons t broken => exact TokenKind.not_continues hendless.head fun h => absurd h (by decide)
    have hbroken := hitem behind stop [] hbehind
    rw [hk] at hbroken
    have hlength : (behind.drop k).length ≠ (broken ++ semicolon :: behind).length := by
      simp only [List.length_drop, List.length_append, List.length_cons]
      omega
    rw [parse_append hunit hbefore htext.right hnext, parse_cons (by simp) hrest (advancing_eq hbroken hlength)]
    rfl

/-- `f : () = { x; }`, a unit that could go on with a semicolon. -/
def functionUnit : TokenList where
  tokens := [.ofName "f", Symbol.colon.token, Symbol.parenOpen.token, Symbol.parenClose.token, Symbol.assign.token,
    Symbol.curlyOpen.token, .ofName "x", Symbol.semicolon.token, Symbol.curlyClose.token]
  stop := .endOfText

/-- `else , b [`, which no item begins with. -/
def brokenItem : List Token := [Keyword.elseWord.token, Symbol.comma.token, .ofName "b", Symbol.bracketOpen.token]

/-- `} y : u64;`, which begins with an error of its own. -/
def brokenBehind : List Token :=
  [Symbol.curlyClose.token, .ofName "y", Symbol.colon.token, Primitive.u64.token, Symbol.semicolon.token]

theorem broken_item_local_between :
    functionUnit.parse.errors = [] ∧ Endless brokenItem ∧ isBareList (brokenItem ++ [Symbol.semicolon.token]) = false ∧
    ∃ item error skipped rest roots errors, error.length ≤ 1 ∧
      TokenList.parse ⟨brokenItem ++ [Symbol.semicolon.token], .endOfText⟩ = ⟨[item], error⟩ ∧
      brokenBehind = skipped ++ rest ∧
      skipped.length =
        (if isBareList (brokenItem ++ [Symbol.semicolon.token]) = true then statementLength 0 brokenBehind else 0) ∧
      TokenList.parse ⟨functionUnit.tokens ++ (brokenItem ++ Symbol.semicolon.token :: brokenBehind), .endOfText⟩ =
        ⟨functionUnit.parse.roots ++ item :: roots, error ++ lexicalErrors skipped ++ errors⟩ ∧
      ∀ alone : TokenList, unplaced alone = unplaced (⟨rest, .endOfText⟩ : TokenList) →
        unplaced alone.parse = unplaced (⟨roots, errors⟩ : Parsed) := by
  have herrors : functionUnit.parse.errors = [] := by decide +kernel
  have hendless : Endless brokenItem := by unfold Endless; decide
  refine ⟨herrors, hendless, by decide +kernel, ?_⟩
  exact broken_item_local ⟨by decide, rfl⟩ rfl herrors rfl (by decide) hendless (by decide)

/-- The list takes the declaration behind it along: one item is read where there are two, and the declaration alone is
without errors. -/
theorem list_takes_declaration :
    (parse "a, b;").roots.length = 1 ∧ (parse "x : u64;").roots.length = 1 ∧ (parse "x : u64;").errors = [] ∧
      (parse "a, b; x : u64;").roots.length = 1 := by
  decide +kernel

end Wordstack
