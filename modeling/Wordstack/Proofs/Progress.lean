/-
Why reading comes to an end. Each rule has a level, and calls only rules of lower levels before it
has taken a token; a loop, which is a rule that calls itself, takes a token each time round.

The same walk through the rules shows that they do not look at places: what they make of moved tokens is
what they make of the tokens, moved.
-/
import Wordstack.Proofs.Follows
import Wordstack.Tree.Parse

namespace Wordstack

open ParseState (Taken)

variable {d k : Nat} {s : ParseState} {α : Type}

namespace Call

/-- Where a rule stands among those that call each other without taking a token. -/
def level {α : Type} : Call α → Nat
  | .operators .. | .operand | .typeExpr | .parameter | .path _ | .names | .variants _ | .furtherMembers
  | .record .. => 0
  | .expr _ | .parameterList | .types => 1
  | .members .. | .exprs _ | .parameters _ | .declaration => 2
  | .arguments .. | .indices _ | .ifStatement | .whileStatement | .fields _ => 3
  | .statementForm => 4
  | .statement => 5
  | .blockBody _ | .items => 6

/-- The call at other places. -/
def moved (f : Span → Span) {α : Type} : Call α → Call α
  | .operators power left => .operators power (move f left)
  | .arguments start close => .arguments (move f start) close
  | .indices start => .indices (move f start)
  | .members start close => .members (move f start) close
  | .parameters start => .parameters (move f start)
  | .path start => .path (move f start)
  | .variants name => .variants (move f name)
  | .blockBody start => .blockBody (move f start)
  | .record kind name => .record kind (move f name)
  | .fields name => .fields (move f name)
  | c => c

@[reducible] def placed {α : Type} : Call α → Placed α
  | .expr _ | .operators .. | .operand => inferInstance
  | .arguments .. | .indices _ | .members .. | .exprs _ | .furtherMembers => inferInstance
  | .typeExpr => inferInstance
  | .parameters _ | .parameterList => inferInstance
  | .parameter => inferInstance
  | .types => inferInstance
  | .path _ | .variants _ => inferInstance
  | .names => inferInstance
  | .statement | .statementForm | .ifStatement | .whileStatement | .declaration | .record .. => inferInstance
  | .blockBody _ | .fields _ | .items => inferInstance

/-- What is known about the state behind a rule besides that there are no more tokens than the `k` in front of it;
`recovering` is about the state in front of it. -/
def Gains {α : Type} (k : Nat) (recovering : Bool) (s : ParseState) : Call α → Prop
  | .expr _ | .operand => s.recovering = true ∨ s.rest.length < k
  | .operators .. => recovering = true → s.recovering = true
  | .declaration => 0 < k → s.rest.length < k
  | .items => s.rest = []
  | _ => True

end Call

theorem ParseState.Taken.weaken (h : Taken k (d + 1) s) : Taken k d s :=
  ⟨Nat.le_of_succ_le h.length, h.stop⟩

theorem ParseState.Taken.lt (h : Taken k (d + 1) s) : s.rest.length < k := by
  have := h.length
  omega

/-- The state in front of a rule. -/
structure ParseState.Start (k : Nat) (recovering : Bool) (s : ParseState) : Prop where
  length : s.rest.length = k
  stop : s.stop.kind = .eof
  recovering : s.recovering = recovering

theorem ParseState.Start.taken {b : Bool} (h : s.Start k b) : Taken k 0 s :=
  ⟨Nat.le_of_eq h.length, h.stop⟩

/-- The state behind a rule. -/
def Call.Done {α : Type} (c : Call α) (k : Nat) (recovering : Bool) (s : ParseState) : Prop :=
  Taken k 0 s ∧ c.Gains k recovering s

namespace Rules

open Rule
open ParseState (Start)

/-- `r'` does with moved tokens what `r` does, at least if there are fewer than `k` tokens left, or `k` of them and
the rule is of a level below `l`. -/
def Keeps (f : Span → Span) (r' r : Rules) (k l : Nat) : Prop :=
  ∀ {α : Type} (c : Call α) (s : ParseState), s.stop.kind = .eof →
    s.rest.length < k ∨ s.rest.length = k ∧ c.level < l →
    r' (c.moved f) (move f s) = (c.placed.move f (r c s).1, move f (r c s).2) ∧
      c.Done s.rest.length s.recovering (r c s).2

variable {f : Span → Span} {r' r : Rules} {l : Nat} {b : Bool}

theorem Keeps.le {n : Nat} (h : Keeps f r' r k l) (hn : n ≤ k) : Keeps f r' r n l :=
  fun c s hstop hs => h c s hstop (by omega)

/-! ## Calls -/

section Calls

variable {P : ParseState → Prop} (h : Keeps f r' r k l)

include h

theorem Keeps.call (c : Call α) (hP : ∀ s, P s → Taken k d s) (hd : 0 < d ∨ c.level < l) :
    @Follows f _ _ _ c.placed P (r' (c.moved f)) (r c) fun _ s => Taken k d s ∧
      ∃ s₀, P s₀ ∧ c.Done s₀.rest.length s₀.recovering s := by
  intro s hs
  obtain ⟨hl, hstop⟩ := hP s hs
  obtain ⟨heq, hdone⟩ := h c s hstop (by omega)
  have hlen : (r c s).2.rest.length + 0 ≤ s.rest.length := hdone.1.length
  exact ⟨heq, ⟨by omega, hdone.1.stop⟩, s, hs, hdone⟩

/-- A call of a rule that is low enough. -/
theorem Keeps.follows (c : Call α) (hd : 0 < d ∨ c.level < l) :
    @Follows f _ _ _ c.placed (Taken k d) (r' (c.moved f)) (r c) fun _ s => Taken k d s :=
  @Follows.post f _ _ _ c.placed _ _ _ _ _ (h.call c (fun _ => id) hd) fun _ _ hs => hs.1

/-- Any rule may be called once a token has been taken. -/
theorem Keeps.later (c : Call α) :
    @Follows f _ _ _ c.placed (Taken k (d + 1)) (r' (c.moved f)) (r c) fun _ s => Taken k (d + 1) s :=
  h.follows c (.inl (Nat.succ_pos d))

omit h in
/-- Something has been read, or recovery has begun. -/
def Read (k d : Nat) (s : ParseState) : Prop := Taken k d s ∧ (s.recovering = true ∨ Taken k (d + 1) s)

/-- A call of a rule that reads something. -/
theorem Keeps.reads {c : Call Expr} (hc : ∀ n b s, c.Done n b s → s.recovering = true ∨ s.rest.length < n)
    (hd : 0 < d ∨ c.level < l) :
    @Follows f _ _ _ c.placed (Taken k d) (r' (c.moved f)) (r c) fun _ s => Read k d s := by
  refine @Follows.post f _ _ _ c.placed _ _ _ _ _ (h.call c (fun _ => id) hd) fun _ s hs => ?_
  obtain ⟨ht, s₀, hs₀, hdone⟩ := hs
  refine ⟨ht, (hc _ _ _ hdone).imp id fun hlt => ⟨?_, ht.stop⟩⟩
  have := hs₀.length
  omega

/-- Operators take nothing back. -/
theorem Keeps.operators_read (power : Nat) (left : Expr) (hd : 0 < d ∨ 0 < l) :
    Follows f (Read k d) (r' (.operators power (move f left))) (r (.operators power left)) fun _ s => Read k d s := by
  refine (h.call (.operators power left) (fun _ hs => hs.1) hd).post fun _ s hs => ?_
  obtain ⟨ht, s₀, hs₀, hdone⟩ := hs
  refine ⟨ht, hs₀.2.imp hdone.2 fun htaken => ⟨?_, ht.stop⟩⟩
  have := htaken.length
  have := hdone.1.length
  omega

/-- A declaration takes a token if there is one. -/
theorem Keeps.declaration (hd : 0 < d ∨ 2 < l) :
    Follows f (fun s => Taken k d s ∧ 0 < s.rest.length) (r' .declaration) (r .declaration) fun _ s => Taken k (d + 1) s := by
  refine (h.call .declaration (fun _ hs => hs.1) hd).post fun _ s hs => ?_
  obtain ⟨ht, s₀, hs₀, hdone⟩ := hs
  have := hs₀.1.length
  have := hdone.2 hs₀.2
  exact ⟨by omega, ht.stop⟩

end Calls

theorem follows_missingExpr : Follows f (Taken k d) missingExpr missingExpr fun _ s => Taken k d s ∧ s.recovering = true :=
  (follows_unexpected _).bind fun _ => .pure rfl fun _ => id

theorem follows_missingType : Follows f (Taken k d) missingType missingType fun _ s => Taken k d s :=
  (follows_unexpected _).bind fun _ => .pure rfl fun _ hs => hs.1

theorem follows_missingDeclaration : Follows f (Taken k d) missingDeclaration missingDeclaration fun _ s => Taken k d s :=
  (follows_unexpected _).bind fun _ => .pure rfl fun _ hs => hs.1

end Rules

/-! ## Steps -/

section

variable (f : Span → Span) (r' r : Rules) (k : Nat)

/-- A step of the rule does with moved tokens what it does with the tokens. -/
abbrev Call.Kept (b : Bool) {α : Type} (c : Call α) : Prop :=
  @Follows f _ _ _ c.placed (ParseState.Start k b) (r'.next (c.moved f)) (r.next c) fun _ s => c.Done k b s

/-- The same for a rule of which it is enough to know that it puts no tokens back. -/
abbrev Call.Stays {α : Type} (c : Call α) : Prop :=
  @Follows f _ _ _ c.placed (Taken k 0) (r'.next (c.moved f)) (r.next c) fun _ s => Taken k 0 s

end

namespace Rules

open Rule
open ParseState (Start)

variable {f : Span → Span} {r' r : Rules} {l : Nat} {b : Bool}

/-! ### Expressions -/

theorem next_expr (power : Nat) (h : Keeps f r' r k 1) : (Call.expr power).Kept f r' r k b := by
  have hoperand : Follows f (Taken k 0) (r' .operand) (r .operand) fun _ s => Read k 0 s :=
    h.reads (c := .operand) (fun _ _ _ hs => hs.2) (.inr Nat.one_pos)
  refine (hoperand.pre fun _ hs => hs.taken).bind fun first => ?_
  exact (h.operators_read power first (.inr Nat.one_pos)).post fun _ s hs => ⟨hs.1, hs.2.imp id (·.lt)⟩

theorem Keeps.expr (h : Keeps f r' r k l) (power : Nat) (hd : 0 < d ∨ 1 < l) :
    Follows f (Taken k d) (r' (.expr power)) (r (.expr power)) fun _ s => Read k d s :=
  h.reads (c := .expr power) (fun _ _ _ hs => hs.2) hd

theorem next_operators (power : Nat) (left : Expr) (h : Keeps f r' r k 0) : (Call.operators power left).Kept f r' r k b := by
  refine follows_isRecovering.branch (.pure rfl fun s hs => ⟨hs.1.taken, fun _ => hs.2⟩) ?_
  refine .given (p := b = false) (fun s hs => hs.1.recovering.symm.trans hs.2) fun hb => ?_
  subst hb
  refine Follows.mono (P := Taken k 0) (Q := fun _ s => Taken k 0 s) ?_ (fun s hs => hs.1.taken) fun _ s hs => ⟨hs, nofun⟩
  refine follows_peek.bind fun t => ?_
  have hleft : Follows f (fun s => Taken k 0 s ∧ t = s.rest.headD s.stop) (pure (move f left)) (pure left) fun _ s =>
      Taken k 0 s := .pure rfl fun s hs => hs.1
  have hmore : ∀ {left' left : Expr}, left' = move f left → Follows f (Taken k 1)
      (r' (.operators power left')) (r (.operators power left)) fun _ s => Taken k 0 s := by
    rintro _ left rfl
    exact (h.later (.operators power left)).post fun _ _ hs => hs.weaken
  have hbinary : ∀ op : BinaryOp, t.kind ≠ .eof →
      Follows f (fun s => Taken k 0 s ∧ t = s.rest.headD s.stop)
        (if op.powers.1 < power then pure (move f left) else do
          let _ ← bump
          let right ← r' (.expr op.powers.2)
          r' (.operators power (.binary op (move f t) (move f left) right)))
        (if op.powers.1 < power then pure left else do
          let _ ← bump
          let right ← r (.expr op.powers.2)
          r (.operators power (.binary op t left right)))
        fun _ s => Taken k 0 s := by
    intro op hk
    exact .ite (fun _ => hleft) fun _ => (follows_bump_at hk).bind fun _ =>
      (h.later (.expr op.powers.2)).bind fun right => hmore rfl
  have hkind : (move f t).kind = t.kind := rfl
  rw [hkind]
  cases hk : t.kind with
  | symbol s =>
    have hne : t.kind ≠ .eof := by rw [hk]; exact nofun
    cases s
    case parenOpen =>
      refine .ite (fun _ => hleft) fun _ => (follows_bump_at hne).bind fun _ => ?_
      exact (h.later (.arguments t (.symbol .parenClose))).bind fun args => hmore (Expr.move_call f t left args).symm
    case bracketOpen =>
      refine .ite (fun _ => hleft) fun _ => (follows_bump_at hne).bind fun _ => ?_
      exact (h.later (.indices t)).bind fun args => hmore (Expr.move_index f t left args).symm
    all_goals first | exact hleft | exact hbinary _ hne
  | _ => exact hleft

theorem next_operand (h : Keeps f r' r k 0) : Call.operand.Kept f r' r k b := by
  refine Follows.pre (P := Taken k 0) (follows_peek.bind fun t => ?_) fun s hs => hs.taken
  have hmissing : Follows f (fun s => Taken k 0 s ∧ t = s.rest.headD s.stop) missingExpr missingExpr fun _ s =>
      Call.operand.Done k b s := follows_missingExpr.mono (fun s hs => hs.1) fun _ s hs => ⟨hs.1, .inl hs.2⟩
  have hdone : ∀ s, Taken k 1 s → Call.operand.Done k b s := fun s hs => ⟨hs.weaken, .inr hs.lt⟩
  have hatom : t.kind ≠ .eof → Follows f (fun s => Taken k 0 s ∧ t = s.rest.headD s.stop)
      (do let _ ← bump; return Expr.atom (move f t)) (do let _ ← bump; return Expr.atom t) fun _ s =>
        Call.operand.Done k b s := fun hk => (follows_bump_at hk).bind fun _ => .pure rfl hdone
  have hunary : ∀ op : UnaryOp, t.kind ≠ .eof → Follows f (fun s => Taken k 0 s ∧ t = s.rest.headD s.stop)
      (do let _ ← bump; let e ← r' (.expr unaryPower); return Expr.unary op (move f t) e)
      (do let _ ← bump; let e ← r (.expr unaryPower); return Expr.unary op t e) fun _ s =>
        Call.operand.Done k b s :=
    fun op hk => (follows_bump_at hk).bind fun _ => (h.later (.expr unaryPower)).bind fun e => .pure rfl hdone
  have hkind : (move f t).kind = t.kind := rfl
  rw [hkind]
  cases hk : t.kind with
  | integer | float | string | ident => exact hatom (by rw [hk]; exact nofun)
  | error e =>
    refine (follows_bump_at (by rw [hk]; exact nofun)).bind fun _ => ?_
    exact (follows_report (e := .unexpected t .expression) rfl).bind fun _ => .pure rfl fun s hs => hdone s hs.1
  | keyword w =>
    have hne : t.kind ≠ .eof := by rw [hk]; exact nofun
    cases w
    case trueWord | falseWord => exact hatom hne
    case castWord =>
      refine (follows_bump_at hne).bind fun _ => (follows_expect _).branch ?_ (.pure rfl hdone)
      refine (h.later .typeExpr).bind fun ty => (follows_expect _).branch ?_ ?_
      · exact (h.later (.expr castPower)).bind fun e => .pure rfl hdone
      · exact (follows_skipUntil _).bind fun _ => .pure rfl hdone
    all_goals exact hmissing
  | symbol s =>
    have hne : t.kind ≠ .eof := by rw [hk]; exact nofun
    cases s
    case parenOpen =>
      refine (follows_bump_at hne).bind fun _ => (h.later (.expr 0)).bind fun inner => ?_
      refine follows_isRecovering.keep.branch ((follows_skipUntil _).bind fun _ => .pure rfl hdone) ?_
      exact (follows_expect _).branch (.pure rfl hdone) ((follows_skipUntil _).bind fun _ => .pure rfl hdone)
    all_goals first | exact hmissing | exact hunary _ hne
  | _ => exact hmissing

theorem next_arguments (start : Token) (close : TokenKind) (h : Keeps f r' r k 3) :
    (Call.arguments start close).Stays f r' r k :=
  (follows_eat close).branch (.pure rfl fun _ => id) (h.follows (.members start close) (.inr (Nat.lt_succ_self 2)))

theorem next_indices (start : Token) (h : Keeps f r' r k 3) : (Call.indices start).Stays f r' r k := by
  refine (follows_eat _).branch ?_ (h.follows (.members start (.symbol .bracketClose)) (.inr (Nat.lt_succ_self 2)))
  exact (follows_report (e := .missingIndex start.span) rfl).bind fun _ => .pure rfl fun s hs => hs.1

theorem next_members (start : Token) (close : TokenKind) (h : Keeps f r' r k 2) :
    (Call.members start close).Stays f r' r k := by
  refine (h.follows (.expr 0) (.inr (by decide))).bind fun e => ?_
  refine follows_isRecovering.keep.branch ((follows_skipUntil _).bind fun _ => .pure rfl fun _ => id) ?_
  refine (follows_eat_next (by decide)).branch ?_ ?_
  · exact (h.later (.members start close)).bind fun es => .pure rfl fun _ => Taken.weaken
  · exact (follows_expect close).branch (.pure rfl fun _ => id) ((follows_skipUntil _).bind fun _ => .pure rfl fun _ => id)

/-! ### Types -/

theorem next_typeExpr (h : Keeps f r' r k 0) : Call.typeExpr.Stays f r' r k := by
  refine follows_peek.bind fun t => ?_
  have hmissing : Follows f (fun s => Taken k 0 s ∧ t = s.rest.headD s.stop) missingType missingType fun _ s =>
      Taken k 0 s := follows_missingType.pre fun s hs => hs.1
  have hname : t.kind ≠ .eof → Follows f (fun s => Taken k 0 s ∧ t = s.rest.headD s.stop)
      (do let _ ← bump; return TypeExpr.name (move f t)) (do let _ ← bump; return TypeExpr.name t) fun _ s =>
        Taken k 0 s := fun hk => (follows_bump_at hk).bind fun _ => .pure rfl fun _ => Taken.weaken
  have hkind : (move f t).kind = t.kind := rfl
  rw [hkind]
  cases hk : t.kind with
  | primitive p | ident => exact hname (by rw [hk]; exact nofun)
  | symbol s =>
    have hne : t.kind ≠ .eof := by rw [hk]; exact nofun
    cases s
    case caret =>
      exact (follows_bump_at hne).bind fun _ => (h.later .typeExpr).bind fun target => .pure rfl fun _ => Taken.weaken
    case bracketOpen =>
      refine (follows_bump_at hne).bind fun _ => (follows_check _).keep.branch ?_ ?_
      · refine (follows_expect _).branch ?_ (.pure rfl fun _ => Taken.weaken)
        exact (h.later .typeExpr).bind fun ty => .pure rfl fun _ => Taken.weaken
      · refine (h.later (.expr 0)).bind fun length => (follows_expect _).branch ?_ (.pure rfl fun _ => Taken.weaken)
        exact (h.later .typeExpr).bind fun ty => .pure rfl fun _ => Taken.weaken
    case parenOpen =>
      refine (follows_bump_at hne).bind fun _ => (h.later (.parameters t)).bind fun params => ?_
      have hfunction : Follows f (Taken k 1) (pure (TypeExpr.function (move f t) (move f params)))
          (pure (TypeExpr.function t params)) fun _ s => Taken k 0 s :=
        .pure (TypeExpr.move_function f t params).symm fun _ => Taken.weaken
      refine follows_isRecovering.keep.branch hfunction ((follows_eat _).branch ?_ hfunction)
      refine follows_peek.keep.bind fun start => (h.later .types).bind fun returns => ?_
      exact .pure (TypeExpr.move_functionTo f t params start returns).symm fun _ => Taken.weaken
    all_goals exact hmissing
  | _ => exact hmissing

theorem next_parameters (start : Token) (h : Keeps f r' r k 2) : (Call.parameters start).Stays f r' r k := by
  refine (follows_check _).keep.branch ?_ ((h.follows .parameterList (.inr (by decide))).bind fun params => ?_)
  · exact (follows_expect _).branch (.pure rfl fun _ => id) ((follows_skipUntil _).bind fun _ => .pure rfl fun _ => id)
  refine follows_isRecovering.keep.branch ((follows_skipUntil _).bind fun _ => .pure rfl fun _ => id) ?_
  refine (follows_expect _).branch (.pure rfl fun _ => id) ((follows_skipUntil _).bind fun _ => ?_)
  exact .pure (move_append f params [.missing start]).symm fun _ => id

/-- Members with commas between them, up to the first that is not followed by one. -/
theorem follows_separated {α : Type} [Placed α] {one' one : Rule α} {rest' rest : Rule (List α)}
    (hone : Follows f (Taken k 0) one' one fun _ s => Taken k 0 s)
    (hrest : Follows f (Taken k 1) rest' rest fun _ s => Taken k 1 s) :
    Follows f (Taken k 0)
      (do
        let x ← one'
        if ← isRecovering then return [x] else if ← eat (.symbol .comma) then return x :: (← rest') else return [x])
      (do
        let x ← one
        if ← isRecovering then return [x] else if ← eat (.symbol .comma) then return x :: (← rest) else return [x])
      fun _ s => Taken k 0 s := by
  refine hone.bind fun x => follows_isRecovering.keep.branch (.pure rfl fun _ => id) ?_
  exact (follows_eat_next (by decide)).branch (hrest.bind fun xs => .pure rfl fun _ => Taken.weaken) (.pure rfl fun _ => id)

theorem next_parameterList (h : Keeps f r' r k 1) : Call.parameterList.Stays f r' r k :=
  follows_separated (h.follows .parameter (.inr Nat.one_pos)) (h.later .parameterList)

theorem next_parameter (h : Keeps f r' r k 0) : Call.parameter.Stays f r' r k := by
  refine (follows_expect? (by decide)).bind fun t? => ?_
  cases t? with
  | none => exact follows_peek.keep.bind fun t => .pure rfl fun _ => id
  | some name =>
    refine (follows_expect _).branch ?_ (.pure rfl fun _ => Taken.weaken)
    exact (h.later .typeExpr).bind fun ty => .pure rfl fun _ => Taken.weaken

theorem next_types (h : Keeps f r' r k 1) : Call.types.Stays f r' r k :=
  follows_separated (h.follows .typeExpr (.inr Nat.one_pos)) (h.later .types)

theorem next_exprs (power : Nat) (h : Keeps f r' r k 2) : (Call.exprs power).Stays f r' r k :=
  follows_separated (h.follows (.expr power) (.inr Nat.one_lt_two)) (h.later (.exprs power))

/-! ### Names -/

theorem next_path (start : Token) (h : Keeps f r' r k 0) : (Call.path start).Stays f r' r k := by
  refine (follows_expect? (by decide)).bind fun t? => ?_
  cases t? with
  | none => exact .pure rfl fun _ => id
  | some t =>
    refine (follows_eat _).branch ?_ (.pure rfl fun _ => Taken.weaken)
    exact (h.later (.path start)).bind fun rest => .pure rfl fun _ => Taken.weaken

theorem next_names (h : Keeps f r' r k 0) : Call.names.Stays f r' r k := by
  refine follows_bump.bind fun t => (follows_eat_next (by decide)).branch ?_ (.pure rfl fun _ => id)
  exact (h.later .names).bind fun ts => .pure rfl fun _ => Taken.weaken

theorem next_variants (name : Token) (h : Keeps f r' r k 0) : (Call.variants name).Stays f r' r k := by
  refine (follows_eat _).branch (.pure rfl fun _ => id) ((follows_expect? (by decide)).bind fun t? => ?_)
  cases t? with
  | none => exact (follows_skipUntil _).bind fun _ => .pure rfl fun _ => id
  | some t =>
    refine (follows_eat _).branch ((h.later (.variants name)).bind fun ts => .pure rfl fun _ => Taken.weaken) ?_
    refine (follows_expect _).branch (.pure rfl fun _ => Taken.weaken) ?_
    exact (follows_skipUntil _).bind fun _ => .pure rfl fun _ => Taken.weaken

theorem next_furtherMembers (h : Keeps f r' r k 0) : Call.furtherMembers.Stays f r' r k := by
  refine (follows_eat_next (by decide)).branch ?_ (.pure rfl fun _ => id)
  refine (h.later (.expr memberPower)).bind fun e => (h.later .furtherMembers).bind fun es => ?_
  exact .pure rfl fun _ => Taken.weaken

/-! ### Rules that do not come back to themselves -/

section Helpers

variable (h : Keeps f r' r k l)

include h

theorem Keeps.typeList (hd : 0 < d ∨ 1 < l) : Follows f (Taken k d) r'.typeList r.typeList fun _ s => Taken k d s :=
  follows_peek.keep.bind fun _ => (h.follows .types hd).bind fun _ => .pure rfl fun _ => id

theorem Keeps.exprList (power : Nat) (hd : 0 < d ∨ 2 < l) :
    Follows f (Taken k d) (r'.exprList power) (r.exprList power) fun _ s => Taken k d s :=
  follows_peek.keep.bind fun _ => (h.follows (.exprs power) hd).bind fun _ => .pure rfl fun _ => id

theorem Keeps.useDeclaration (hd : 0 < d ∨ 0 < l) :
    Follows f (Taken k d) r'.useDeclaration r.useDeclaration fun _ s => Taken k d s := by
  refine follows_bump.bind fun start => (h.follows (.path start) hd).bind fun segments => ?_
  have hend : ∀ alias? : Option Name, Follows f (Taken k d)
      (do let _ ← expect (.symbol .semicolon); return Stmt.use (move f start) (move f segments) (move f alias?))
      (do let _ ← expect (.symbol .semicolon); return Stmt.use start segments alias?) fun _ s => Taken k d s :=
    fun _ => (follows_expect _).bind fun _ => .pure rfl fun _ => id
  refine (follows_eat _).branch ((follows_expect? (by decide)).bind fun t? => ?_) (hend none)
  cases t? with
  | none => exact hend (some (.missing start))
  | some t => exact (hend (some (.ident t))).pre fun _ => Taken.weaken

theorem Keeps.manyDeclaration (hd : 0 < d ∨ 2 < l) :
    Follows f (Taken k d) r'.manyDeclaration r.manyDeclaration fun _ s => Taken k d s := by
  have hnames : 0 < d ∨ Call.names.level < l := hd.imp_right (Nat.lt_trans (by decide))
  refine follows_peek.keep.bind fun start => (h.follows .names hnames).bind fun ts => ?_
  refine follows_bump.bind fun _ => (h.typeList (by omega)).bind fun types => follows_isRecovering.keep.bind fun broken => ?_
  refine (follows_eat _).bind fun b => .ite (fun _ => ?_) fun _ => ?_
  · refine (h.exprList _ hd).bind fun values => (follows_expect _).bind fun _ => .pure rfl fun _ => id
  · exact (follows_expect _).bind fun _ => .pure rfl fun _ => id

theorem Keeps.typedDeclaration (name : Token) (hd : 0 < d ∨ 1 < l) :
    Follows f (Taken k d) (r'.typedDeclaration (move f name)) (r.typedDeclaration name) fun _ s => Taken k d s := by
  have htype : 0 < d ∨ Call.typeExpr.level < l := hd.imp_right (Nat.lt_trans (by decide))
  refine (h.follows .typeExpr htype).bind fun ty => follows_isRecovering.keep.branch (.pure rfl fun _ => id) ?_
  refine (follows_eat _).branch ?_ ((follows_expect _).bind fun _ => .pure rfl fun _ => id)
  refine follows_peek.keep.bind fun brace => (follows_eat_next (by decide)).branch ?_ ?_
  · refine (h.later (.blockBody brace)).bind fun body => (follows_eat _).bind fun _ => ?_
    exact .pure (Stmt.move_define f name ty brace body).symm fun _ => Taken.weaken
  · exact (h.follows (.expr 0) hd).bind fun value => (follows_expect _).bind fun _ => .pure rfl fun _ => id

omit h in
theorem follows_openBrace : Follows f (Taken k d) openBrace openBrace fun b s => Taken k (d + b.toNat) s :=
  (follows_expect _).branch (follows_expect_next (by decide)) (.pure rfl fun _ => id)

theorem Keeps.enumeration (name : Token) (hd : 0 < d ∨ 0 < l) :
    Follows f (Taken k d) (r'.enumeration (move f name)) (r.enumeration name) fun _ s => Taken k d s := by
  refine follows_bump.bind fun _ => follows_openBrace.branch ?_ (.pure rfl fun _ => id)
  refine ((h.follows (.variants name) hd).pre fun _ => Taken.weaken).bind fun vs => ?_
  exact (follows_eat _).bind fun _ => .pure rfl fun _ => id

theorem Keeps.expression (hd : 0 < d ∨ 2 < l) :
    Follows f (Taken k d) r'.expression r.expression fun _ s => Taken k d s := by
  have hfurther : 0 < d ∨ Call.furtherMembers.level < l := hd.imp_right (Nat.lt_trans (by decide))
  have hfirst : 0 < d ∨ (Call.expr 0).level < l := hd.imp_right (Nat.lt_trans (by decide))
  have hend : ∀ stmt : Stmt, Follows f (Taken k d)
      (do let _ ← expect (.symbol .semicolon); return move f stmt)
      (do let _ ← expect (.symbol .semicolon); return stmt) fun _ s => Taken k d s :=
    fun _ => (follows_expect _).bind fun _ => .pure rfl fun _ => id
  refine follows_peek.keep.bind fun start => (h.follows (.expr 0) hfirst).bind fun first => ?_
  refine (follows_check _).keep.bind fun more => follows_isRecovering.keep.bind fun broken => .ite (fun _ => ?_) fun _ => ?_
  · refine (h.follows .furtherMembers hfurther).bind fun es => follows_peek.keep.bind fun t => (follows_eat _).branch ?_ ?_
    · exact (h.exprList _ hd).bind fun values => hend (.swap t ⟨start, first :: es⟩ values)
    · exact hend (.exprs start ⟨start, first :: es⟩)
  · exact hend (.expr start first)

theorem Keeps.returnStatement (hd : 0 < d ∨ 2 < l) :
    Follows f (Taken k d) r'.returnStatement r.returnStatement fun _ s => Taken k d s := by
  refine follows_bump.bind fun t => (follows_check _).keep.branch ?_ ?_
  · exact (follows_expect _).bind fun _ => .pure rfl fun _ => id
  · exact (h.exprList 0 hd).bind fun values => (follows_expect _).bind fun _ => .pure rfl fun _ => id

omit h in
theorem follows_loopExit (exit : LoopExit) : Follows f (Taken k d) (loopExit exit) (loopExit exit) fun _ s => Taken k d s :=
  follows_bump.bind fun _ => (follows_expect _).bind fun _ => .pure rfl fun _ => id

omit h in
theorem declaresMany_move : ∀ ts : List Token, declaresMany (move f ts) = declaresMany ts
  | [] | [_] => rfl
  | name :: next :: rest => by
    show (name.isIdent && (next.isSymbol .colon || next.isSymbol .comma && declaresMany (move f rest))) = _
    rw [declaresMany_move rest]
    rfl

/-- The place of a misplaced statement is computed, so it moves along only if covers do. -/
theorem Keeps.item (hf : Span.Steady f) (hd : 0 < d ∨ 2 < l) : Follows f (Taken k d) r'.item r.item fun _ s => Taken k d s := by
  refine follows_peek.keep.bind fun t => ?_
  have hkind : (move f t).kind = t.kind := rfl
  rw [hkind]
  cases t.kind with
  | keyword w =>
    cases w
    case useWord => exact h.useDeclaration (by omega)
    all_goals exact follows_missingDeclaration
  | ident =>
    refine follows_peekSecond.bind fun next => .ite (fun _ => h.follows .declaration hd) fun _ => ?_
    refine .ite (fun _ => ?_) fun _ => follows_missingDeclaration
    refine follows_get.bind fun s => ?_
    rw [show (move f s).rest = move f s.rest from rfl, declaresMany_move]
    refine .ite (fun _ => h.manyDeclaration hd) fun _ => (h.expression hd).bind fun stmt => ?_
    have hmisplaced : Follows f (Taken k d)
        (do report (.misplaced (move f stmt).span); return Stmt.misplaced (move f t) (move f stmt))
        (do report (.misplaced stmt.span); return Stmt.misplaced t stmt) fun _ s => Taken k d s := by
      refine (follows_report (e := .misplaced stmt.span) ?_).bind fun _ => .pure rfl fun s hs => hs.1
      exact congrArg ParseError.misplaced (Stmt.span_move hf stmt)
    cases stmt
    case swap => exact .pure rfl fun _ => id
    all_goals exact hmisplaced
  | _ => exact follows_missingDeclaration

omit h in
theorem follows_skipIfRecovering [Placed α] (a : α) :
    Follows f (Taken k d)
      (do
        if ← isRecovering then skipStatement
        return move f a)
      (do
        if ← isRecovering then skipStatement
        return a)
      fun _ s => Taken k d s :=
  follows_isRecovering.keep.branch (follows_skipStatement.bind fun _ => .pure rfl fun _ => id) (.pure rfl fun _ => id)

theorem Keeps.itemOrSkip (hf : Span.Steady f) (hd : 0 < d ∨ 2 < l) :
    Follows f (Taken k d) r'.itemOrSkip r.itemOrSkip fun _ s => Taken k d s :=
  (h.item hf hd).bind fun s => follows_skipIfRecovering s

/-- What runs inside `advancing` starts with fewer tokens, or with as many and the same level. -/
theorem Keeps.advancing [Placed α] {x' x : Rule α}
    (hx : ∀ n, Keeps f r' r n l → Follows f (Taken n 0) x' x fun _ s => Taken n 0 s) :
    Follows f (fun s => Taken k d s ∧ 0 < s.rest.length) (Rule.advancing x') (Rule.advancing x) fun _ s => Taken k (d + 1) s :=
  follows_advancing fun n hn => hx n (h.le (Nat.le_of_add_right_le hn))

/-- A field is a declaration, or what is skipped in its place: a token is taken for it. -/
theorem Keeps.furtherFields (name t : Token) (hl : 2 < l) :
    Follows f (fun s => Taken k d s ∧ 0 < s.rest.length) (r'.furtherFields (move f name) (move f t))
      (r.furtherFields name t) fun _ s => Taken k (d + 1) s := by
  have hrest : ∀ field : Stmt, Follows f (Taken k (d + 1))
      (do let rest ← r' (.fields (move f name)); return move f field :: rest)
      (do let rest ← r (.fields name); return field :: rest) fun _ s => Taken k (d + 1) s :=
    fun _ => (h.later (.fields name)).bind fun _ => .pure rfl fun _ => id
  refine follows_peekSecond.bind fun next => .ite (fun _ => ?_) fun _ => ?_
  · refine (h.declaration (.inr hl)).bind fun field => follows_isRecovering.keep.branch ?_ (hrest field)
    exact follows_skipStatement.bind fun _ => hrest field
  · refine (follows_unexpected_rest .field).bind fun found => ?_
    exact .bind (h.advancing fun n _ => follows_skipStatement) fun _ => hrest (.missing found)

end Helpers

/-! ### Statements and declarations -/

theorem next_statement (h : Keeps f r' r k 5) : Call.statement.Stays f r' r k :=
  (h.follows .statementForm (.inr (by decide))).bind fun s => follows_skipIfRecovering s

theorem next_statementForm (h : Keeps f r' r k 4) : Call.statementForm.Stays f r' r k := by
  refine follows_peek.bind fun t => ?_
  have hexpression : Follows f (fun s => Taken k 0 s ∧ t = s.rest.headD s.stop) r'.expression r.expression fun _ s =>
      Taken k 0 s := (h.expression (.inr (by decide))).pre fun s hs => hs.1
  have hkind : (move f t).kind = t.kind := rfl
  rw [hkind]
  cases hk : t.kind with
  | symbol s =>
    cases s
    case curlyOpen =>
      refine (follows_bump_at (by rw [hk]; exact nofun)).bind fun _ => (h.later (.blockBody t)).bind fun body => ?_
      exact .pure (Stmt.move_block f t body).symm fun _ => Taken.weaken
    case semicolon => exact (follows_bump.pre fun s hs => hs.1).bind fun _ => .pure rfl fun _ => id
    all_goals exact hexpression
  | keyword w =>
    cases w
    case useWord => exact (h.useDeclaration (.inr (by decide))).pre fun s hs => hs.1
    case ifWord => exact (h.follows .ifStatement (.inr (by decide))).pre fun s hs => hs.1
    case whileWord => exact (h.follows .whileStatement (.inr (by decide))).pre fun s hs => hs.1
    case returnWord => exact (h.returnStatement (.inr (by decide))).pre fun s hs => hs.1
    case breakWord | continueWord => exact (follows_loopExit _).pre fun s hs => hs.1
    all_goals exact hexpression
  | ident =>
    refine follows_peekSecond.bind fun next => .ite (fun _ => ?_) fun _ => follows_get.bind fun s => ?_
    · exact (h.follows .declaration (.inr (by decide))).pre fun s hs => hs.1
    rw [show (move f s).rest = move f s.rest from rfl, declaresMany_move]
    exact .ite (fun _ => (h.manyDeclaration (.inr (by decide))).pre fun s hs => hs.1) fun _ => hexpression
  | _ => exact hexpression

/-- Once a condition is read and reading goes on, a token has been taken. -/
theorem Read.taken_next (h : Read k d s ∧ s.recovering = false) : Taken k (d + 1) s :=
  h.1.2.resolve_left fun hr => by cases h.2.symm.trans hr

theorem next_ifStatement (h : Keeps f r' r k 3) : Call.ifStatement.Stays f r' r k := by
  refine follows_bump.bind fun t => (h.expr 0 (.inr (by decide))).bind fun e => ?_
  refine follows_isRecovering.branch (.pure rfl fun _ hs => hs.1.1) ?_
  refine ((h.later .statement).pre fun s hs => Read.taken_next hs).bind fun yes => ?_
  refine (follows_eat _).branch ?_ (.pure rfl fun _ => Taken.weaken)
  exact (h.later .statement).bind fun no => .pure rfl fun _ => Taken.weaken

theorem next_whileStatement (h : Keeps f r' r k 3) : Call.whileStatement.Stays f r' r k := by
  refine follows_bump.bind fun t => (h.expr 0 (.inr (by decide))).bind fun e => ?_
  refine follows_isRecovering.branch (.pure rfl fun _ hs => hs.1.1) ?_
  exact ((h.later .statement).pre fun s hs => Read.taken_next hs).bind fun body => .pure rfl fun _ => Taken.weaken

/-- The members of a list in braces from its next token on, up to the brace that closes it. -/
theorem follows_braced {start : Token} {more' more : Token → Rule (List Stmt)}
    (hmore : ∀ t, Follows f (fun s => Taken k 0 s ∧ 0 < s.rest.length) (more' (move f t)) (more t) fun _ s => Taken k 1 s) :
    Follows f (Taken k 0)
      (do
        let t ← peek
        match t.kind with
        | .symbol .curlyClose =>
          let _ ← bump
          return []
        | .eof =>
          report (.unclosedBrace (move f start).span)
          return [.missing t]
        | _ => more' t)
      (do
        let t ← peek
        match t.kind with
        | .symbol .curlyClose =>
          let _ ← bump
          return []
        | .eof =>
          report (.unclosedBrace start.span)
          return [.missing t]
        | _ => more t)
      fun _ s => Taken k 0 s := by
  refine follows_peek.bind fun t => ?_
  have hmore : t.kind ≠ .eof → Follows f (fun s => Taken k 0 s ∧ t = s.rest.headD s.stop) (more' (move f t)) (more t)
      fun _ s => Taken k 0 s := fun hk => (hmore t).mono (fun s hs => taken_pos hs hk) fun _ _ => Taken.weaken
  have hkind : (move f t).kind = t.kind := rfl
  rw [hkind]
  cases hk : t.kind with
  | symbol s =>
    cases s
    case curlyClose => exact (follows_bump.pre fun s hs => hs.1).bind fun _ => .pure rfl fun _ => id
    all_goals exact hmore (by rw [hk]; exact nofun)
  | eof =>
    refine ((follows_report (e := .unclosedBrace start.span) rfl).pre fun s hs => hs.1).bind fun _ => ?_
    exact .pure rfl fun _ hs => hs.1
  | _ => exact hmore (by rw [hk]; exact nofun)

theorem next_blockBody (start : Token) (h : Keeps f r' r k 6) : (Call.blockBody start).Stays f r' r k := by
  refine follows_braced fun t => .bind (h.advancing fun n hn => ?_) fun s => ?_
  · exact hn.follows .statement (.inr (by decide))
  · exact (h.later (.blockBody start)).bind fun rest => .pure rfl fun _ => id

theorem next_fields (name : Token) (h : Keeps f r' r k 3) : (Call.fields name).Stays f r' r k :=
  follows_braced fun t => h.furtherFields name t (by decide)

theorem next_declaration (h : Keeps f r' r k 2) : Call.declaration.Kept f r' r k b := by
  suffices hall : ∀ d, Follows f (Start k b) bump bump (fun _ s => Taken k d s) →
      Follows f (Start k b) (r'.next .declaration) (r.next .declaration) fun _ s => Taken k d s by
    by_cases hk : 0 < k
    · have hbump : Follows f (Start k b) bump bump fun _ s => Taken k 1 s :=
        follows_bump_next.pre fun s hs => ⟨hs.taken, hs.length ▸ hk⟩
      exact (hall 1 hbump).post fun _ s hs => ⟨hs.weaken, fun _ => hs.lt⟩
    · exact (hall 0 (follows_bump.pre fun s hs => hs.taken)).post fun _ s hs => ⟨hs, fun hpos => absurd hpos hk⟩
  intro d hbump
  refine hbump.bind fun name => follows_bump.bind fun _ => follows_peek.keep.bind fun t => ?_
  have htyped := h.typedDeclaration (d := d) name (.inr (by decide))
  have hkind : (move f t).kind = t.kind := rfl
  rw [hkind]
  cases t.kind with
  | keyword w =>
    cases w
    case structWord => exact h.follows (.record .struct name) (.inr Nat.zero_lt_two)
    case unionWord => exact h.follows (.record .union name) (.inr Nat.zero_lt_two)
    case enumWord => exact h.enumeration name (.inr (by decide))
    case externWord =>
      refine follows_bump.bind fun _ => (h.follows .typeExpr (.inr (by decide))).bind fun ty => ?_
      exact (follows_expect _).bind fun _ => .pure rfl fun _ => id
    all_goals exact htyped
  | _ => exact htyped

theorem next_record (kind : RecordKind) (name : Token) (h : Keeps f r' r k 0) : (Call.record kind name).Stays f r' r k := by
  refine follows_bump.bind fun _ => follows_openBrace.branch ?_ ?_
  · refine (h.later (.fields name)).bind fun fs => (follows_eat _).bind fun _ => ?_
    exact .pure (Stmt.move_record f kind name fs).symm fun _ => Taken.weaken
  · exact .pure (Stmt.move_record f kind name [.missing name]).symm fun _ => id

theorem next_items (hf : Span.Steady f) (h : Keeps f r' r k 6) : Call.items.Kept f r' r k b := by
  refine Follows.pre (P := Taken k 0) (follows_left.bind fun n => .ite (fun hn => ?_) fun hn => ?_) fun s hs => hs.taken
  · exact .pure rfl fun s hs => ⟨hs.1, List.eq_nil_of_length_eq_zero (hs.2.trans hn)⟩
  have hitem := h.advancing (d := 0) fun n hn => hn.itemOrSkip hf (.inr (by decide))
  refine .bind (hitem.pre fun s hs => ⟨hs.1, Nat.pos_of_ne_zero (hs.2 ▸ hn)⟩) fun s => ?_
  refine (h.call .items (fun _ => id) (.inl Nat.one_pos)).bind fun rest => .pure rfl fun s hs => ?_
  obtain ⟨ht, s₀, -, hitems⟩ := hs
  exact ⟨ht.weaken, hitems.2⟩

end Rules
end Wordstack
