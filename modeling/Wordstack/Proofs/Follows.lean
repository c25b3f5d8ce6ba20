/-
Programs that go the same way wherever their input stands. `Follows f P x' x Q` says that `x'`,
run on a state that `f` has moved, does what `x` does on the state where it is, with places moved;
it says so for the states that satisfy `P`, and adds that `x` ends with `Q`. With the identity for `f`,
two programs that do the same.
-/
import Wordstack.Proofs.Places
import Wordstack.Tree.Rule

namespace Wordstack

def Follows (f : Span → Span) {σ α : Type} [Placed σ] [Placed α] (P : σ → Prop) (x' x : StateM σ α)
    (Q : α → σ → Prop) : Prop :=
  ∀ s, P s → x' (move f s) = (move f (x s).1, move f (x s).2) ∧ Q (x s).1 (x s).2

namespace Follows

variable {f : Span → Span} {σ α β : Type} [Placed σ] [Placed α] [Placed β] {P P' : σ → Prop} {x' x : StateM σ α}
  {Q Q' : α → σ → Prop} {R : β → σ → Prop}

theorem pure {a' a : α} (ha : a' = move f a) (h : ∀ s, P s → Q a s) : Follows f P (Pure.pure a') (Pure.pure a) Q := by
  subst ha
  intro s hs
  exact ⟨rfl, h s hs⟩

theorem bind {k' k : α → StateM σ β} (hx : Follows f P x' x Q) (hk : ∀ a, Follows f (Q a) (k' (move f a)) (k a) R) :
    Follows f P (x' >>= k') (x >>= k) R := by
  intro s hs
  obtain ⟨hxs, hq⟩ := hx s hs
  obtain ⟨hks, hr⟩ := hk (x s).1 (x s).2 hq
  refine ⟨Eq.trans ?_ hks, hr⟩
  show k' (x' (move f s)).1 (x' (move f s)).2 = _
  rw [hxs]

theorem mono (hx : Follows f P x' x Q) (hP : ∀ s, P' s → P s) (hQ : ∀ a s, Q a s → Q' a s) : Follows f P' x' x Q' := by
  intro s hs
  obtain ⟨h, hq⟩ := hx s (hP s hs)
  exact ⟨h, hQ _ _ hq⟩

theorem pre (hx : Follows f P x' x Q) (hP : ∀ s, P' s → P s) : Follows f P' x' x Q := hx.mono hP fun _ _ => id

theorem post (hx : Follows f P x' x Q) (hQ : ∀ a s, Q a s → Q' a s) : Follows f P x' x Q' := hx.mono (fun _ => id) hQ

/-- What has been found out need not be used. -/
theorem keep (hx : Follows f P x' x fun a s => P s ∧ Q a s) : Follows f P x' x fun _ s => P s := hx.post fun _ _ hs => hs.1

/-- What the states have in common may be used. -/
theorem given {p : Prop} (hP : ∀ s, P s → p) (hx : p → Follows f P x' x Q) : Follows f P x' x Q := fun s hs =>
  hx (hP s hs) s hs

theorem ite {c : Prop} [Decidable c] {y' y : StateM σ α} (hx : c → Follows f P x' x Q)
    (hy : ¬ c → Follows f P y' y Q) : Follows f P (if c then x' else y') (if c then x else y) Q := by
  split
  next h => exact hx h
  next h => exact hy h

/-- The answer to a question decides how it goes on. -/
theorem branch {x' x : StateM σ Bool} {Q : Bool → σ → Prop} {y' y z' z : StateM σ β} (hx : Follows f P x' x Q)
    (hy : Follows f (Q true) y' y R) (hz : Follows f (Q false) z' z R) :
    Follows f P (do if ← x' then y' else z') (do if ← x then y else z) R := by
  refine hx.bind fun b => ?_
  cases b with
  | true => exact hy
  | false => exact hz

end Follows

/-! ## The state of the rules -/

instance : Placed ParseError where
  move f
    | .lexical e s => .lexical e (f s)
    | .unclosedBrace s => .unclosedBrace (f s)
    | .unexpected found expected => .unexpected (move f found) expected
    | .missingIndex s => .missingIndex (f s)
    | .misplaced s => .misplaced (f s)
  move_id e := by cases e <;> rfl
  move_move _ _ e := by cases e <;> rfl

instance : Placed ParseState where
  move f s := { rest := move f s.rest, stop := move f s.stop, errors := move f s.errors, recovering := s.recovering }
  move_id s := by simp only [move_id]
  move_move f g s := by simp only [move_move]

/-- At least `d` of `k` tokens have been taken. -/
structure ParseState.Taken (k d : Nat) (s : ParseState) : Prop where
  length : s.rest.length + d ≤ k
  stop : s.stop.kind = .eof

namespace Rule

open ParseState (Taken)

section

variable (f : Span → Span)

theorem headD_move (ts : List Token) (t : Token) : (move f ts).headD (move f t) = move f (ts.headD t) := by
  cases ts <;> rfl

theorem tail_move (ts : List Token) : (move f ts).tail = move f ts.tail := by
  cases ts <;> rfl

theorem drop_move (n : Nat) (ts : List Token) : (move f ts).drop n = move f (ts.drop n) := List.map_drop.symm

theorem take_move (n : Nat) (ts : List Token) : (move f ts).take n = move f (ts.take n) := List.map_take.symm

theorem lexicalErrors_move (ts : List Token) : lexicalErrors (move f ts) = move f (lexicalErrors ts) := by
  induction ts with
  | nil => rfl
  | cons t ts ih =>
    have hkind : (move f t).kind = t.kind := rfl
    rw [move_cons, lexicalErrors, lexicalErrors, List.filterMap_cons, List.filterMap_cons, hkind]
    cases t.kind <;> first | exact ih | exact congrArg _ ih

theorem statementLength_move (d : Nat) (ts : List Token) : statementLength d (move f ts) = statementLength d ts := by
  induction ts generalizing d with
  | nil => rfl
  | cons t ts ih =>
    have hhead : (move f ts).head?.any (·.isSymbol .semicolon) = ts.head?.any (·.isSymbol .semicolon) := by
      cases ts <;> rfl
    have hkind : (move f t).kind = t.kind := rfl
    unfold statementLength
    rw [move_cons]
    dsimp only
    rw [hkind, hhead]
    simp only [ih]

theorem lengthUntil_move (kind : TokenKind) (ts : List Token) : lengthUntil kind (move f ts) = lengthUntil kind ts := by
  induction ts with
  | nil => rfl
  | cons t ts ih =>
    rw [move_cons, lengthUntil, lengthUntil, ih]
    rfl

end

variable {f : Span → Span} {P : ParseState → Prop} {k d : Nat}

/-- The next token is left if there is one. -/
theorem follows_peek : Follows f P peek peek fun t s => P s ∧ t = s.rest.headD s.stop := by
  intro s hs
  refine ⟨?_, hs, rfl⟩
  exact congrArg (·, move f s) (headD_move f s.rest s.stop)

theorem follows_peekSecond : Follows f P peekSecond peekSecond fun _ s => P s := by
  intro s hs
  refine ⟨?_, hs⟩
  show ((move f s.rest).tail.headD (move f s.stop), move f s) = _
  rw [tail_move, headD_move]
  rfl

theorem follows_get : Follows f P (get : Rule ParseState) get fun _ s => P s := fun _ hs => ⟨rfl, hs⟩

theorem follows_isRecovering : Follows f P isRecovering isRecovering fun b s => P s ∧ s.recovering = b := fun _ hs =>
  ⟨rfl, hs, rfl⟩

theorem follows_left : Follows f P left left fun n s => P s ∧ s.rest.length = n := by
  intro s hs
  refine ⟨?_, hs, rfl⟩
  exact congrArg (·, move f s) (length_move f s.rest)

theorem follows_check (kind : TokenKind) :
    Follows f P (check kind) (check kind) fun b s => P s ∧ b = ((s.rest.headD s.stop).kind == kind) :=
  follows_peek.bind fun _ => .pure rfl fun _ hs => ⟨hs.1, by rw [hs.2]⟩

/-! ### Taking tokens -/

theorem take_eq (n : Nat) (s : ParseState) : take n (move f s) = (move f (take n s).1, move f (take n s).2) := by
  show ((), ParseState.mk ((move f s.rest).drop n) (move f s.stop)
    (move f s.errors ++ lexicalErrors ((move f s.rest).take n)) s.recovering) = _
  rw [drop_move, take_move, lexicalErrors_move, ← move_append]
  rfl

theorem follows_take (n : Nat) : Follows f (Taken k d) (take n) (take n) fun _ s => Taken k d s := by
  rintro s ⟨hl, hstop⟩
  refine ⟨take_eq n s, ?_, hstop⟩
  show (s.rest.drop n).length + d ≤ k
  rw [List.length_drop]
  omega

theorem follows_take_next : Follows f (fun s => Taken k d s ∧ 0 < s.rest.length) (take 1) (take 1) fun _ s => Taken k (d + 1) s := by
  rintro s ⟨⟨hl, hstop⟩, hpos⟩
  refine ⟨take_eq 1 s, ?_, hstop⟩
  show (s.rest.drop 1).length + (d + 1) ≤ k
  rw [List.length_drop]
  omega

/-- The next token is the last one if it is the end-of-file token. -/
theorem taken_pos {s : ParseState} {t : Token} (hs : Taken k d s ∧ t = s.rest.headD s.stop) (hk : t.kind ≠ .eof) :
    Taken k d s ∧ 0 < s.rest.length := by
  refine ⟨hs.1, ?_⟩
  cases hr : s.rest with
  | nil =>
    have ht := hs.2
    rw [hr] at ht
    exact absurd (ht ▸ hs.1.stop) hk
  | cons t ts => exact Nat.succ_pos _

theorem follows_bump : Follows f (Taken k d) bump bump fun _ s => Taken k d s :=
  follows_peek.keep.bind fun _ => (follows_take 1).bind fun _ => .pure rfl fun _ => id

theorem follows_bump_next : Follows f (fun s => Taken k d s ∧ 0 < s.rest.length) bump bump fun _ s => Taken k (d + 1) s :=
  follows_peek.keep.bind fun _ => follows_take_next.bind fun _ => .pure rfl fun _ => id

/-- The next token is taken, and it is not the end-of-file token. -/
theorem follows_bump_at {t : Token} (hk : t.kind ≠ .eof) :
    Follows f (fun s => Taken k d s ∧ t = s.rest.headD s.stop) bump bump fun _ s => Taken k (d + 1) s :=
  follows_bump_next.pre fun _ hs => taken_pos hs hk

theorem follows_eat (kind : TokenKind) : Follows f (Taken k d) (eat kind) (eat kind) fun _ s => Taken k d s :=
  (follows_check kind).keep.branch ((follows_take 1).bind fun _ => .pure rfl fun _ => id) (.pure rfl fun _ => id)

/-- A token that is eaten has been taken. -/
theorem follows_eat_next {kind : TokenKind} (hkind : kind ≠ .eof) :
    Follows f (Taken k d) (eat kind) (eat kind) fun b s => Taken k (d + b.toNat) s := by
  refine (follows_check kind).branch ?_ (.pure rfl fun _ hs => hs.1)
  refine (follows_take_next.pre fun s hs => ?_).bind fun _ => .pure rfl fun _ => id
  have heq : (s.rest.headD s.stop).kind = kind := beq_iff_eq.mp hs.2.symm
  exact taken_pos ⟨hs.1, rfl⟩ fun h => hkind (heq.symm.trans h)

/-! ### Complaints -/

theorem follows_report {e' e : ParseError} (he : e' = move f e) :
    Follows f (Taken k d) (report e') (report e) fun _ s => Taken k d s ∧ s.recovering = true := by
  subst he
  rintro s ⟨hl, hstop⟩
  refine ⟨?_, ⟨hl, hstop⟩, rfl⟩
  refine congrArg (fun errors => ((), ParseState.mk (move f s.rest) (move f s.stop) errors true)) ?_
  show (if s.recovering then move f s.errors else move f s.errors ++ [move f e]) =
    move f (if s.recovering then s.errors else s.errors ++ [e])
  split
  · rfl
  · exact (move_append f s.errors [e]).symm

theorem follows_unexpected (expected : Expectation) :
    Follows f (Taken k d) (unexpected expected) (unexpected expected) fun _ s => Taken k d s ∧ s.recovering = true :=
  follows_peek.keep.bind fun t => (follows_report (e := .unexpected t expected) rfl).bind fun _ => .pure rfl fun _ => id

/-- The complaint about a token leaves it where it is. -/
theorem follows_unexpected_rest (expected : Expectation) :
    Follows f (fun s => Taken k d s ∧ 0 < s.rest.length) (unexpected expected) (unexpected expected) fun _ s =>
      Taken k d s ∧ 0 < s.rest.length := fun s hs =>
  have h := follows_unexpected expected s hs.1
  ⟨h.1, h.2.1, hs.2⟩

theorem follows_expect? {kind : TokenKind} (hkind : kind ≠ .eof) :
    Follows f (Taken k d) (expect? kind) (expect? kind) fun t? s => Taken k (d + t?.isSome.toNat) s := by
  refine follows_isRecovering.keep.branch (.pure rfl fun _ => id) (follows_peek.keep.bind fun t => ?_)
  refine (follows_eat_next hkind).branch (.pure rfl fun _ => id) ?_
  exact (follows_unexpected _).bind fun _ => .pure rfl fun _ hs => hs.1

theorem follows_expect_next {kind : TokenKind} (hkind : kind ≠ .eof) :
    Follows f (Taken k d) (expect kind) (expect kind) fun b s => Taken k (d + b.toNat) s :=
  (follows_expect? hkind).bind fun t? => .pure (by cases t? <;> rfl) fun _ => id

theorem follows_expect (kind : TokenKind) : Follows f (Taken k d) (expect kind) (expect kind) fun _ s => Taken k d s := by
  unfold expect expect?
  refine .bind (Q := fun _ s => Taken k d s) ?_ fun t? => .pure (by cases t? <;> rfl) fun _ => id
  refine follows_isRecovering.keep.branch (.pure rfl fun _ => id) (follows_peek.keep.bind fun t => ?_)
  refine (follows_eat kind).branch (.pure rfl fun _ => id) ?_
  exact (follows_unexpected _).bind fun _ => .pure rfl fun _ hs => hs.1

/-! ### Skipping -/

theorem follows_skipStatement : Follows f (Taken k d) skipStatement skipStatement fun _ s => Taken k d s := by
  refine follows_get.bind fun s => ?_
  rw [show (move f s).rest = move f s.rest from rfl, statementLength_move]
  exact (follows_take _).bind fun _ => fun s hs => ⟨rfl, hs.length, hs.stop⟩

theorem follows_skipUntil (kind : TokenKind) : Follows f (Taken k d) (skipUntil kind) (skipUntil kind) fun _ s => Taken k d s := by
  refine follows_get.bind fun s => ?_
  rw [show (move f s).rest = move f s.rest from rfl, lengthUntil_move]
  exact follows_take _

/-- If a rule takes nothing, a token is taken for it. -/
theorem follows_advancing {α : Type} [Placed α] {x' x : Rule α}
    (hx : ∀ n, n + d ≤ k → Follows f (Taken n 0) x' x fun _ s => Taken n 0 s) :
    Follows f (fun s => Taken k d s ∧ 0 < s.rest.length) (advancing x') (advancing x) fun _ s => Taken k (d + 1) s := by
  refine follows_left.bind fun n => .given (p := n + d ≤ k ∧ 0 < n) (fun s hs => ?_) fun hn => ?_
  · obtain ⟨⟨⟨hl, -⟩, hpos⟩, hlen⟩ := hs
    exact hlen ▸ ⟨hl, hpos⟩
  refine ((hx n hn.1).pre fun s hs => ⟨Nat.le_of_eq hs.2, hs.1.1.stop⟩).bind fun a => follows_left.bind fun m => ?_
  refine .ite (fun hm => ?_) fun hm => .pure rfl fun s hs => ⟨?_, hs.1.stop⟩
  · have hm : m = n := hm
    refine (follows_take_next.pre fun s hs => ?_).bind fun _ => .pure rfl fun _ => id
    have hlen := hs.2
    exact ⟨⟨by omega, hs.1.stop⟩, by omega⟩
  · have hm : m ≠ n := hm
    have hlen := hs.1.length
    have heq := hs.2
    omega

end Rule
end Wordstack
