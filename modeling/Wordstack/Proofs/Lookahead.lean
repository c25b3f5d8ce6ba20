/-
How far rules look. A rule takes tokens from the front of a text and looks at a few of those behind
them. `Local` says what it takes and what comes of it, and in front of which other texts
the same would come of the same tokens.
-/
import Wordstack.Proofs.Termination

namespace Wordstack

open Rule

/-- Whether a statement may end at the token, or have a part that is a statement begin there. -/
def TokenKind.ends : TokenKind → Bool
  | .symbol .semicolon | .symbol .curlyOpen | .symbol .curlyClose | .eof => true
  | _ => false

/-- No statement ends within these tokens. -/
def Endless (ts : List Token) : Prop := ∀ t ∈ ts, t.kind.ends = false

theorem Endless.append {ts us : List Token} (h : Endless ts) (h' : Endless us) : Endless (ts ++ us) := by
  intro t ht
  rcases List.mem_append.mp ht with ht | ht
  · exact h t ht
  · exact h' t ht

theorem Endless.cons {t : Token} {ts : List Token} (h : t.kind.ends = false) (h' : Endless ts) : Endless (t :: ts) := by
  intro u hu
  rcases List.mem_cons.mp hu with rfl | hu
  · exact h
  · exact h' u hu

theorem Endless.nil : Endless [] := fun _ ht => absurd ht (List.not_mem_nil)

/-- A text and the token behind its end. -/
structure Text (ts : List Token) (stop : Token) : Prop where
  tokens : ∀ t ∈ ts, t.kind ≠ .eof
  stop : stop.kind = .eof

namespace Text

variable {ts us : List Token} {stop t : Token}

theorem nil (h : stop.kind = .eof) : Text [] stop := ⟨fun _ ht => absurd ht List.not_mem_nil, h⟩

theorem left (h : Text (ts ++ us) stop) : Text ts stop := ⟨fun t ht => h.tokens t (List.mem_append_left _ ht), h.stop⟩

theorem right (h : Text (ts ++ us) stop) : Text us stop := ⟨fun t ht => h.tokens t (List.mem_append_right _ ht), h.stop⟩

theorem append (hl : ∀ t ∈ ts, t.kind ≠ .eof) (hr : Text us stop) : Text (ts ++ us) stop := by
  refine ⟨fun t ht => ?_, hr.stop⟩
  rcases List.mem_append.mp ht with h | h
  · exact hl t h
  · exact hr.tokens t h

/-- Only the end of a text looks like the end of a text. -/
theorem eq_nil (h : Text ts stop) (heof : (ts.headD stop).kind = .eof) : ts = [] := by
  cases ts with
  | nil => rfl
  | cons t ts => exact absurd heof (h.tokens t (List.mem_cons_self ..))

end Text

/-- What comes of a rule. -/
structure Outcome where
  taken : List Token
  left : List Token
  errors : List ParseError
  recovering : Bool
  /-- The texts in front of which the same tokens are taken, with the same result. -/
  allows : List Token → Token → Prop

namespace Outcome

/-- Nothing is taken or looked at. -/
def none (b : Bool) (ts : List Token) : Outcome := ⟨[], ts, [], b, fun _ _ => True⟩

/-- The next token is looked at. -/
def look (stop : Token) (b : Bool) (ts : List Token) : Outcome :=
  ⟨[], ts, [], b, fun us stop' => us.headD stop' = ts.headD stop⟩

/-- A token is taken, and nothing is looked at. -/
def one (b : Bool) (t : Token) (ts : List Token) : Outcome := ⟨[t], ts, lexicalErrors [t], b, fun _ _ => True⟩

/-- Two rules one after the other. -/
def andThen (o o' : Outcome) : Outcome where
  taken := o.taken ++ o'.taken
  left := o'.left
  errors := o.errors ++ o'.errors
  recovering := o'.recovering
  allows us stop := o.allows (o'.taken ++ us) stop ∧ o'.allows us stop

theorem andThen_none (o : Outcome) : o.andThen (none o.recovering o.left) = o := by
  simp [andThen, none]

theorem none_andThen (o : Outcome) (b : Bool) (ts : List Token) : (none b ts).andThen o = o := by
  simp [andThen, none]

end Outcome

/-- In front of the text `ts`, and in recovery or not as `b` says, the rule comes to a result and an outcome as `Q` says. -/
def Local {α : Type} (stop : Token) (b : Bool) (ts : List Token) (x : Rule α) (Q : α → Outcome → Prop) : Prop :=
  Text ts stop → ∃ a o, ts = o.taken ++ o.left ∧ o.allows o.left stop ∧
    (∀ us stop' e, Text us stop' → o.allows us stop' →
      x ⟨o.taken ++ us, stop', e, b⟩ = (a, ⟨us, stop', e ++ o.errors, o.recovering⟩)) ∧
    Q a o

namespace Local

variable {α β : Type} {stop t : Token} {b : Bool} {ts : List Token} {x : Rule α} {f : α → Rule β}
  {Q Q' : α → Outcome → Prop} {R : β → Outcome → Prop}

theorem pure {a : α} (h : Q a (.none b ts)) : Local stop b ts (Pure.pure a) Q := by
  intro _
  refine ⟨a, .none b ts, rfl, trivial, fun us stop' e _ _ => ?_, h⟩
  show (a, ParseState.mk us stop' e b) = (a, ⟨us, stop', e ++ [], b⟩)
  rw [List.append_nil]

theorem bind (hx : Local stop b ts x Q)
    (hf : ∀ a o, ts = o.taken ++ o.left → Q a o → Local stop o.recovering o.left (f a) fun c o' => R c (o.andThen o')) :
    Local stop b ts (x >>= f) R := by
  intro htext
  obtain ⟨a, o, hts, hallows, hrun, hq⟩ := hx htext
  have hleft : Text o.left stop := (hts ▸ htext).right
  obtain ⟨c, o', hts', hallows', hrun', hr⟩ := hf a o hts hq hleft
  refine ⟨c, o.andThen o', ?_, ⟨hts' ▸ hallows, hallows'⟩, fun us stop' e hus hus' => ?_, hr⟩
  · show ts = (o.taken ++ o'.taken) ++ o'.left
    rw [List.append_assoc, ← hts', hts]
  · have htaken : ∀ t ∈ o'.taken, t.kind ≠ .eof := fun t ht =>
      hleft.tokens t (hts' ▸ List.mem_append_left _ ht)
    have hfirst := hrun (o'.taken ++ us) stop' e (.append htaken hus) hus'.1
    show f (x ⟨(o.taken ++ o'.taken) ++ us, stop', e, b⟩).1 (x ⟨(o.taken ++ o'.taken) ++ us, stop', e, b⟩).2 = _
    rw [List.append_assoc, hfirst, hrun' us stop' (e ++ o.errors) hus hus'.2, List.append_assoc]
    rfl

theorem mono (hx : Local stop b ts x Q) (h : ∀ a o, ts = o.taken ++ o.left → Q a o → Q' a o) : Local stop b ts x Q' := by
  intro htext
  obtain ⟨a, o, hts, hallows, hrun, hq⟩ := hx htext
  exact ⟨a, o, hts, hallows, hrun, h a o hts hq⟩

/-- What a result is made into takes nothing. -/
theorem map {g : α → β} (hx : Local stop b ts x fun a o => R (g a) o) : Local stop b ts (x >>= fun a => Pure.pure (g a)) R :=
  hx.bind fun _ o _ ho => .pure (by rw [Outcome.andThen_none]; exact ho)

theorem text (h : Text ts stop → Local stop b ts x Q) : Local stop b ts x Q := fun htext => h htext htext

end Local

namespace Rule

variable {stop t : Token} {b : Bool} {ts : List Token}

/-! ## Looking and taking -/

theorem local_peek : Local stop b ts peek fun t o => t = ts.headD stop ∧ o = .look stop b ts := by
  intro _
  refine ⟨_, .look stop b ts, rfl, rfl, fun us stop' e _ hus => ?_, rfl, rfl⟩
  show (us.headD stop', ParseState.mk us stop' e b) = (ts.headD stop, ⟨us, stop', e ++ [], b⟩)
  rw [List.append_nil, hus]

theorem local_isRecovering : Local stop b ts isRecovering fun b' o => b' = b ∧ o = .none b ts := by
  intro _
  refine ⟨b, .none b ts, rfl, trivial, fun us stop' e _ _ => ?_, rfl, rfl⟩
  show (b, ParseState.mk us stop' e b) = (b, ⟨us, stop', e ++ [], b⟩)
  rw [List.append_nil]

theorem local_bump : Local stop b (t :: ts) bump fun t' o => t' = t ∧ o = .one b t ts := by
  intro _
  exact ⟨t, .one b t ts, rfl, trivial, fun us stop' e _ _ => rfl, rfl, rfl⟩

theorem local_check (kind : TokenKind) : Local stop b ts (check kind) fun v o =>
    v = ((ts.headD stop).kind == kind) ∧ o = .look stop b ts := by
  intro _
  refine ⟨_, .look stop b ts, rfl, rfl, fun us stop' e _ hus => ?_, rfl, rfl⟩
  show ((us.headD stop').kind == kind, ParseState.mk us stop' e b) = (_, ⟨us, stop', e ++ [], b⟩)
  rw [List.append_nil, hus]

/-- What comes of eating a token: it is taken, or it is of another kind. -/
inductive Eaten (stop : Token) (b : Bool) (kind : TokenKind) (ts : List Token) : Bool → Outcome → Prop
  | yes {t : Token} {us : List Token} (hts : ts = t :: us) (hk : t.kind = kind) :
    Eaten stop b kind ts true (.one b t us)
  | no (hk : (ts.headD stop).kind ≠ kind) :
    Eaten stop b kind ts false ⟨[], ts, [], b, fun us stop' => (us.headD stop').kind ≠ kind⟩

theorem eat_eq {kind : TokenKind} (hk : t.kind = kind) (e : List ParseError) :
    eat kind ⟨t :: ts, stop, e, b⟩ = (true, ⟨ts, stop, e ++ lexicalErrors [t], b⟩) := by
  have hbeq : (t.kind == kind) = true := beq_iff_eq.mpr hk
  show (if (t.kind == kind) = true then do take 1; return true else return false : Rule Bool) _ = _
  rw [if_pos hbeq]
  rfl

theorem eat_ne {kind : TokenKind} (hk : (ts.headD stop).kind ≠ kind) (e : List ParseError) :
    eat kind ⟨ts, stop, e, b⟩ = (false, ⟨ts, stop, e, b⟩) := by
  have hbeq : ¬ ((ts.headD stop).kind == kind) = true := fun h => hk (beq_iff_eq.mp h)
  show (if ((ts.headD stop).kind == kind) = true then do take 1; return true else return false : Rule Bool) _ = _
  rw [if_neg hbeq]
  rfl

theorem local_eat {kind : TokenKind} (hkind : kind ≠ .eof) :
    Local stop b ts (eat kind) fun v o => Eaten stop b kind ts v o := by
  intro htext
  by_cases hk : (ts.headD stop).kind = kind
  · cases ts with
    | nil => exact absurd (hk.symm.trans htext.stop) hkind
    | cons t ts => exact ⟨true, .one b t ts, rfl, trivial, fun us stop' e _ _ => eat_eq hk e, .yes rfl hk⟩
  · refine ⟨false, _, rfl, hk, fun us stop' e _ hus => ?_, .no hk⟩
    show eat kind ⟨us, stop', e, b⟩ = (false, ⟨us, stop', e ++ [], b⟩)
    rw [eat_ne hus, List.append_nil]

/-! ## Errors -/

theorem local_report (error : ParseError) : Local stop b ts (report error) fun _ o =>
    o = ⟨[], ts, if b then [] else [error], true, fun _ _ => True⟩ := by
  intro _
  refine ⟨(), _, rfl, trivial, fun us stop' e _ _ => ?_, rfl⟩
  cases b
  · rfl
  · show ((), ParseState.mk us stop' e true) = ((), ⟨us, stop', e ++ [], true⟩)
    rw [List.append_nil]

/-! ## Skipping -/

/-- The tokens up to one of the given kind, or as many as are in the statement. -/
theorem lengthUntil_split (kind : TokenKind) (htext : Text ts stop) : ∃ q left, ts = q ++ left ∧
      (∀ us stop', Text us stop' → us.headD stop' = left.headD stop → lengthUntil kind (q ++ us) = q.length) ∧
      (Endless q ∨ ∃ g t, q = g ++ [t] ∧ Endless g ∧ t.kind = kind ∧ ∀ us, lengthUntil kind (q ++ us) = q.length) := by
  induction ts with
  | nil =>
    refine ⟨[], [], rfl, fun us stop' hus hhead => ?_, .inl .nil⟩
    have heof : (us.headD stop').kind = .eof := by rw [hhead]; exact htext.stop
    rw [hus.eq_nil heof]
    rfl
  | cons t ts ih =>
    by_cases hkind : t.kind = kind
    · have hone : ∀ us, lengthUntil kind (t :: us) = 1 := fun us => by rw [lengthUntil, if_pos hkind]
      exact ⟨[t], ts, rfl, fun us _ _ _ => hone us, .inr ⟨[], t, rfl, .nil, hkind, hone⟩⟩
    by_cases hends : (t.isSymbol .semicolon || t.isSymbol .curlyOpen || t.isSymbol .curlyClose) = true
    · refine ⟨[], t :: ts, rfl, fun us stop' hus hhead => ?_, .inl .nil⟩
      have hne : t.kind ≠ .eof := htext.tokens t (List.mem_cons_self ..)
      cases us with
      | nil => exact absurd ((congrArg Token.kind hhead).symm.trans hus.stop) hne
      | cons u us =>
        obtain rfl : u = t := hhead
        show lengthUntil kind (u :: us) = 0
        rw [lengthUntil, if_neg hkind, if_pos hends]
    · obtain ⟨q, left, rfl, hlength, hshape⟩ := ih (show Text ([t] ++ ts) stop from htext).right
      have hfree : t.kind.ends = false := by
        have hne : t.kind ≠ .eof := htext.tokens t (List.mem_cons_self ..)
        simp only [Token.isSymbol, Bool.or_eq_true, beq_iff_eq, not_or] at hends
        unfold TokenKind.ends
        split <;> simp_all
      have hcons : ∀ us, lengthUntil kind (t :: us) = lengthUntil kind us + 1 := fun us => by
        rw [lengthUntil, if_neg hkind, if_neg hends]
      refine ⟨t :: q, left, rfl, fun us stop' hus hhead => ?_, ?_⟩
      · exact (hcons _).trans (congrArg (· + 1) (hlength us stop' hus hhead))
      · rcases hshape with hq | ⟨g, c, rfl, hg, hc, hall⟩
        · exact .inl (hq.cons hfree)
        · exact .inr ⟨t :: g, c, rfl, hg.cons hfree, hc, fun us => (hcons _).trans (congrArg (· + 1) (hall us))⟩

theorem local_skipUntil (kind : TokenKind) : Local stop b ts (skipUntil kind) fun _ o =>
    o.errors = lexicalErrors o.taken ∧ o.recovering = b ∧
      (∀ us stop', us.headD stop' = o.left.headD stop → o.allows us stop') ∧
      (Endless o.taken ∨ ∃ g t, o.taken = g ++ [t] ∧ Endless g ∧ t.kind = kind ∧ ∀ us stop', o.allows us stop') := by
  intro htext
  obtain ⟨q, left, rfl, hlength, hshape⟩ := lengthUntil_split kind htext
  refine ⟨(), ⟨q, left, lexicalErrors q, b, fun us stop' => Text us stop' → lengthUntil kind (q ++ us) = q.length⟩, rfl,
    fun hleft => hlength left stop hleft rfl, fun us stop' e hus hq => ?_, rfl, rfl,
    fun us stop' hhead hus => hlength us stop' hus hhead, ?_⟩
  · show ((), ParseState.mk ((q ++ us).drop (lengthUntil kind (q ++ us))) stop'
      (e ++ lexicalErrors ((q ++ us).take (lengthUntil kind (q ++ us)))) b) = _
    rw [hq hus, List.drop_left, List.take_left]
  · rcases hshape with hq | ⟨g, t, hq, hg, ht, hall⟩
    · exact .inl hq
    · exact .inr ⟨g, t, hq, hg, ht, fun us _ _ => hall us⟩

end Rule

end Wordstack
