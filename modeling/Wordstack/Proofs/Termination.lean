/-
Reading ends, at the end of the text. The rules are counted down so that they are plain recursive
functions; here the counter turns out not to matter: it never gets to zero, whatever the rules would do there.

The order on calls that carries this is first by the tokens that are left, then by the level of the rule.
-/
import Wordstack.Proofs.Literals
import Wordstack.Proofs.Progress

namespace Wordstack

open ParseState (Taken Start)

variable {α : Type}

/-! ## One step -/

namespace Rules

variable {f : Span → Span} {r' r : Rules}

/-- A rule keeps what the calls below it keep. -/
theorem next_keeps (hf : Span.Steady f) {k : Nat} {b : Bool} (c : Call α) (h : Keeps f r' r k c.level) : c.Kept f r' r k b := by
  have hstays : (∀ s, c.Gains k b s) → c.Stays f r' r k → c.Kept f r' r k b := fun hgains hc s hs =>
    have hstep := hc s hs.taken
    ⟨hstep.1, hstep.2, hgains _⟩
  cases c with
  | expr power => exact next_expr power h
  | operators power left => exact next_operators power left h
  | operand => exact next_operand h
  | declaration => exact next_declaration h
  | items => exact next_items hf h
  | arguments start close => exact hstays (fun _ => trivial) (next_arguments start close h)
  | indices start => exact hstays (fun _ => trivial) (next_indices start h)
  | members start close => exact hstays (fun _ => trivial) (next_members start close h)
  | typeExpr => exact hstays (fun _ => trivial) (next_typeExpr h)
  | parameters start => exact hstays (fun _ => trivial) (next_parameters start h)
  | parameterList => exact hstays (fun _ => trivial) (next_parameterList h)
  | parameter => exact hstays (fun _ => trivial) (next_parameter h)
  | types => exact hstays (fun _ => trivial) (next_types h)
  | exprs power => exact hstays (fun _ => trivial) (next_exprs power h)
  | path start => exact hstays (fun _ => trivial) (next_path start h)
  | names => exact hstays (fun _ => trivial) (next_names h)
  | variants name => exact hstays (fun _ => trivial) (next_variants name h)
  | furtherMembers => exact hstays (fun _ => trivial) (next_furtherMembers h)
  | statement => exact hstays (fun _ => trivial) (next_statement h)
  | statementForm => exact hstays (fun _ => trivial) (next_statementForm h)
  | ifStatement => exact hstays (fun _ => trivial) (next_ifStatement h)
  | whileStatement => exact hstays (fun _ => trivial) (next_whileStatement h)
  | blockBody start => exact hstays (fun _ => trivial) (next_blockBody start h)
  | record kind name => exact hstays (fun _ => trivial) (next_record kind name h)
  | fields name => exact hstays (fun _ => trivial) (next_fields name h)

end Rules

/-! ## The order on calls -/

/-- In front of the first token. -/
def ParseState.start (ts : TokenList) : ParseState := { rest := ts.tokens, stop := ts.stop }

namespace Call

/-- The call `c'` in the state `s'` is made with fewer tokens left than `c` in `s`, or with as many and by a rule of
a lower level. A rule is not of a lower level than itself. -/
def Below {α β : Type} (c' : Call β) (s' : ParseState) (c : Call α) (s : ParseState) : Prop :=
  s'.stop.kind = .eof ∧
    (s'.rest.length < s.rest.length ∨ s'.rest.length = s.rest.length ∧ c'.level < c.level)

/-- How deep a call goes at most. -/
def steps {α : Type} (c : Call α) (s : ParseState) : Nat := 8 * s.rest.length + c.level + 1

theorem level_lt (c : Call α) : c.level < 7 := by
  cases c <;> exact Nat.le_of_ble_eq_true rfl

theorem Below.steps_lt {β : Type} {c' : Call β} {s' : ParseState} {c : Call α} {s : ParseState} (h : c'.Below s' c s) :
    c'.steps s' < c.steps s := by
  have := c'.level_lt
  have := h.2
  unfold steps
  omega

theorem moved_id (c : Call α) : c.moved id = c := by
  cases c <;> simp only [moved, move_id]

end Call

/-! ## Depth -/

namespace Rules

variable {f : Span → Span}

/-- Deep enough, it matters neither how deep exactly nor what is beyond, and moved tokens are read as the tokens are. -/
theorem ofDepth_keeps (hf : Span.Steady f) (cutoff' cutoff : Rules) (n' n : Nat) (c : Call α) (s : ParseState)
    (hstop : s.stop.kind = .eof) (hn' : c.steps s ≤ n') (hn : c.steps s ≤ n) : ofDepth cutoff' n' (c.moved f) (move f s) =
        (c.placed.move f (ofDepth cutoff n c s).1, move f (ofDepth cutoff n c s).2) ∧
      c.Done s.rest.length s.recovering (ofDepth cutoff n c s).2 := by
  induction n generalizing n' α c s with
  | zero => exact absurd hn (Nat.not_succ_le_zero _)
  | succ n ih =>
    cases n' with
    | zero => exact absurd hn' (Nat.not_succ_le_zero _)
    | succ n' =>
      refine next_keeps hf c (fun {β} c' s' hstop' hbelow => ?_) s ⟨rfl, hstop, rfl⟩
      have hlt : c'.steps s' < c.steps s := Call.Below.steps_lt ⟨hstop', hbelow⟩
      exact ih n' c' s' hstop' (by omega) (by omega)

/-- The rules, deep enough for their calls. -/
def whole : Rules where
  call c s := atDepth (c.steps s) c s

theorem whole_eq (cutoff : Rules) {n : Nat} (c : Call α) (s : ParseState) (hstop : s.stop.kind = .eof)
    (hn : c.steps s ≤ n) : ofDepth cutoff n c s = whole c s := by
  have h := (ofDepth_keeps Span.steady_id cutoff exhausted n (c.steps s) c s hstop hn (Nat.le_refl _)).1
  rw [Call.moved_id, move_id s, c.placed.move_id, move_id] at h
  exact h

/-- Moved tokens are read as the tokens are. -/
theorem whole_keeps (hf : Span.Steady f) (c : Call α) (s : ParseState) (hstop : s.stop.kind = .eof) :
    whole (c.moved f) (move f s) = (c.placed.move f (whole c s).1, move f (whole c s).2) ∧
      c.Done s.rest.length s.recovering (whole c s).2 := by
  have hsteps : (c.moved f).steps (move f s) = c.steps s := by
    have hlevel : (c.moved f).level = c.level := by cases c <;> rfl
    unfold Call.steps
    rw [hlevel, show (move f s).rest = move f s.rest from rfl, length_move]
  have h := ofDepth_keeps hf exhausted exhausted (c.steps s) (c.steps s) c s hstop (Nat.le_refl _) (Nat.le_refl _)
  rw [whole_eq _ c s hstop (Nat.le_refl _), whole_eq _ _ _ (show (move f s).stop.kind = .eof from hstop) (Nat.le_of_eq hsteps)] at h
  exact h

/-- The calls below `c` in the state `s` decide what it does: a loop that is to go round once more has taken a token, and
so has a rule that is to come back to itself through others. -/
def Decided (w : Rules) {α : Type} (c : Call α) (s : ParseState) : Prop :=
  ∀ r : Rules, (∀ {β : Type} (c' : Call β) (s' : ParseState), c'.Below s' c s → r c' s' = w c' s') → r.next c s = w c s

theorem whole_decided (c : Call α) (s : ParseState) (hstop : s.stop.kind = .eof) : whole.Decided c s := by
  intro r hr
  have hkeeps : Keeps id r (ofDepth exhausted (8 * s.rest.length + c.level)) s.rest.length c.level := by
    intro β c' s' hstop' hbelow
    have hbelow : c'.Below s' c s := ⟨hstop', hbelow⟩
    rw [Call.moved_id, move_id s', c'.placed.move_id, move_id, hr c' s' hbelow,
      whole_eq exhausted c' s' hstop' (Nat.le_of_lt_succ hbelow.steps_lt)]
    exact ⟨rfl, (whole_keeps Span.steady_id c' s' hstop').2⟩
  have h := (next_keeps Span.steady_id c hkeeps s ⟨rfl, hstop, rfl⟩).1
  rw [Call.moved_id, move_id s, c.placed.move_id, move_id] at h
  exact h.trans (whole_eq exhausted c s hstop (Nat.le_refl _))

/-- A rule does what the calls that it makes lead to. -/
theorem whole_next (c : Call α) {s : ParseState} (hstop : s.stop.kind = .eof) : whole c s = whole.next c s :=
  (whole_decided c s hstop whole fun _ _ _ => rfl).symm

theorem steps_start (ts : TokenList) : Call.items.steps (.start ts) ≤ Rule.budget ts.tokens.length := by
  show 8 * ts.tokens.length + 6 + 1 ≤ 8 * (ts.tokens.length + 2)
  omega

/-- A token list is read deep enough. -/
theorem parse_eq {ts : TokenList} (hstop : ts.stop.kind = .eof) :
    ts.parse = ⟨(whole .items (.start ts)).1, (whole .items (.start ts)).2.errors⟩ := by
  rw [← whole_eq exhausted .items (.start ts) hstop (steps_start ts)]
  rfl

end Rules

/-! ## Loops that only look or skip -/

namespace Rule

/-- Skipping a statement ends at a token, or goes on behind it. -/
theorem statementLength_cons (d : Nat) (t : Token) :
    (∀ ts, statementLength d (t :: ts) ≤ 2) ∨ ∃ d', ∀ ts, statementLength d (t :: ts) = statementLength d' ts + 1 := by
  by_cases hopen : t.kind = .symbol .curlyOpen
  · exact .inr ⟨d + 1, fun ts => by simp only [statementLength, hopen]⟩
  by_cases hclose : t.kind = .symbol .curlyClose
  · rcases d with _ | _ | d
    · exact .inl fun ts => by simp only [statementLength, hclose]; omega
    · exact .inl fun ts => by simp only [statementLength, hclose]; split <;> omega
    · exact .inr ⟨d + 1, fun ts => by simp only [statementLength, hclose]⟩
  by_cases hend : t.kind = .symbol .semicolon ∧ d = 0
  · exact .inl fun ts => by simp only [statementLength, hend.1, hend.2]; omega
  · refine .inr ⟨d, fun ts => ?_⟩
    rw [statementLength.eq_def]
    dsimp only
    split
    next h => exact absurd ⟨h, rfl⟩ hend
    next h => exact absurd h hopen
    next h => exact absurd h hclose
    next h => exact absurd h hclose
    next h => exact absurd h hclose
    next => rfl

theorem lengthUntil_cons (kind : TokenKind) (t : Token) :
    (∀ ts, lengthUntil kind (t :: ts) ≤ 1) ∨ ∀ ts, lengthUntil kind (t :: ts) = lengthUntil kind ts + 1 := by
  by_cases hkind : t.kind = kind
  · exact .inl fun ts => Nat.le_of_eq (by rw [lengthUntil, if_pos hkind])
  by_cases hend : (t.isSymbol .semicolon || t.isSymbol .curlyOpen || t.isSymbol .curlyClose) = true
  · refine .inl fun ts => ?_
    have hlength : lengthUntil kind (t :: ts) = 0 := by rw [lengthUntil, if_neg hkind, if_pos hend]
    omega
  · exact .inr fun ts => by rw [lengthUntil, if_neg hkind, if_neg hend]

theorem declaresMany_cons (t t' : Token) :
    (∃ b, ∀ ts, declaresMany (t :: t' :: ts) = b) ∨ ∀ ts, declaresMany (t :: t' :: ts) = declaresMany ts := by
  by_cases hgo : t.isIdent = true ∧ t'.isSymbol .colon = false ∧ t'.isSymbol .comma = true
  · exact .inr fun ts => by simp only [declaresMany, hgo.1, hgo.2.1, hgo.2.2, Bool.true_and, Bool.false_or]
  · refine .inl ⟨t.isIdent && t'.isSymbol .colon, fun ts => ?_⟩
    simp only [declaresMany]
    cases hident : t.isIdent <;> cases hcolon : t'.isSymbol .colon <;> cases hcomma : t'.isSymbol .comma <;> simp_all

end Rule

/-! ## The end of the text -/

/-- **Reading a text comes to an end, and to the end of the text.** What a rule does is decided by calls that have
fewer tokens left, or as many and a rule of a lower level; so the depth to which the rules are
counted down is never used up, and it does not matter what they do beyond it. The loops that only look ahead or
skip leave at a token or go on behind it. -/
theorem parse_terminates (source : String) :
    (∀ {α : Type} (c : Call α) (s : ParseState), s.stop.kind = .eof → Rules.whole.Decided c s) ∧
      (∀ (cutoff : Rules) (n : Nat), Rule.budget (scan source).tokens.length ≤ n →
        ∃ roots s, Rules.whole .items (.start (scan source)) = (roots, s) ∧
          cutoff.ofDepth n .items (.start (scan source)) = (roots, s) ∧
          parse source = ⟨roots, s.errors⟩ ∧ s.rest = [] ∧ (Rule.peek s).1.kind = .eof) ∧
      (∀ d t, (∀ ts, Rule.statementLength d (t :: ts) ≤ 2) ∨
        ∃ d', ∀ ts, Rule.statementLength d (t :: ts) = Rule.statementLength d' ts + 1) ∧
      (∀ kind t, (∀ ts, Rule.lengthUntil kind (t :: ts) ≤ 1) ∨
        ∀ ts, Rule.lengthUntil kind (t :: ts) = Rule.lengthUntil kind ts + 1) ∧
      ∀ t t', (∃ b, ∀ ts, Rule.declaresMany (t :: t' :: ts) = b) ∨
        ∀ ts, Rule.declaresMany (t :: t' :: ts) = Rule.declaresMany ts := by
  have hstop : (scan source).stop.kind = .eof := (Cursor.formed_tokens (.ofSource source)).2
  refine ⟨Rules.whole_decided, fun cutoff n hn => ?_, Rule.statementLength_cons, Rule.lengthUntil_cons,
    Rule.declaresMany_cons⟩
  have hdone := (Rules.whole_keeps Span.steady_id .items (.start (scan source)) hstop).2
  have hrest : (Rules.whole .items (.start (scan source))).2.rest = [] := hdone.2
  refine ⟨_, _, rfl, ?_, Rules.parse_eq hstop, hrest, ?_⟩
  · exact Rules.whole_eq cutoff .items _ hstop (Nat.le_trans (Rules.steps_start _) hn)
  · show ((Rules.whole .items (.start (scan source))).2.rest.headD _).kind = .eof
    rw [hrest]
    exact hdone.1.stop

/-- A text with everything in the wrong place. -/
theorem parse_terminates_unbalanced :
    Rules.whole.next .items (.start (scan "\x7d x : \x7b if = ;")) = Rules.whole .items (.start (scan "\x7d x : \x7b if = ;")) ∧
      (Rules.whole .items (.start (scan "\x7d x : \x7b if = ;"))).2.rest = [] := by
  obtain ⟨hdecided, hend, -⟩ := parse_terminates "\x7d x : \x7b if = ;"
  have hstop : (scan "\x7d x : \x7b if = ;").stop.kind = .eof := (Cursor.formed_tokens (.ofSource _)).2
  obtain ⟨roots, s, hwhole, -, -, hrest, -⟩ := hend Rules.whole _ (Nat.le_refl _)
  exact ⟨hdecided .items (.start _) hstop Rules.whole fun _ _ _ => rfl, by rw [hwhole]; exact hrest⟩

end Wordstack
