/-
What the rules of the grammar read. A rule reads a text if it takes exactly the tokens of
that text, wherever they stand, and reports nothing; the token that comes behind them must
be one that does not go on with the text.
-/
import Wordstack.Proofs.Printing
import Wordstack.Proofs.Termination

namespace Wordstack

/-! ## Reading -/

/-- The kinds that the token at the front of a text may have, with `follow` for what comes behind the text. -/
def front (ts : List Token) (follow : TokenKind → Prop) : TokenKind → Prop :=
  match ts with
  | [] => follow
  | t :: _ => (· = t.kind)

/-- The rule reads the text `ts`, and its result is as `Q` says. -/
def Reads {α : Type} (x : Rule α) (ts : List Token) (follow : TokenKind → Prop) (Q : α → Prop) : Prop :=
  ∀ (s : ParseState) (us rest : List Token), us.map Token.bare = ts → (∀ u ∈ us, u.kind.isError = false) →
    s.rest = us ++ rest → s.recovering = false → s.stop.kind = .eof → follow (rest.headD s.stop).kind →
    ∃ a, x.run s = (a, { s with rest }) ∧ Q a

theorem Token.kind_of_bare {u t : Token} (h : u.bare = t) : u.kind = t.kind := h ▸ rfl

@[simp] theorem Token.bare_bare (t : Token) : t.bare.bare = t.bare := rfl

namespace Reads

open Rule

variable {α β : Type} {x : Rule α} {f : α → Rule β} {ts ts' : List Token} {t : Token} {follow follow' : TokenKind → Prop}
  {Q : α → Prop} {R : β → Prop}

theorem pure {a : α} (h : Q a) : Reads (Pure.pure a) [] follow Q := by
  intro s us rest hus _ hrest _ _ _
  obtain rfl : us = [] := List.map_eq_nil_iff.mp hus
  have hrest : s.rest = rest := hrest
  exact ⟨a, by rw [← hrest]; rfl, h⟩

theorem pure_bind {a : α} (h : Reads (f a) ts follow R) : Reads (Pure.pure a >>= f) ts follow R := by
  rwa [LawfulMonad.pure_bind]

theorem mono {Q' : α → Prop} (h : Reads x ts follow Q) (hf : ∀ k, follow' k → follow k) (hQ : ∀ a, Q a → Q' a) :
    Reads x ts follow' Q' := by
  intro s us rest hus he hrest hrec hstop hfollow
  obtain ⟨a, hrun, ha⟩ := h s us rest hus he hrest hrec hstop (hf _ hfollow)
  exact ⟨a, hrun, hQ a ha⟩

theorem front_of_append {us rest : List Token} {stop : Token} (hus : us.map Token.bare = ts)
    (h : follow (rest.headD stop).kind) : front ts follow ((us ++ rest).headD stop).kind := by
  cases us with
  | nil =>
    obtain rfl : ts = [] := hus.symm
    exact h
  | cons u us =>
    rw [← hus]
    rfl

/-- Two rules one after the other read two texts, if the second text does not go on with the first. -/
theorem bind {follow₁ : TokenKind → Prop} (hx : Reads x ts follow₁ Q) (hfront : ∀ k, front ts' follow k → follow₁ k)
    (hf : ∀ a, Q a → Reads (f a) ts' follow R) : Reads (x >>= f) (ts ++ ts') follow R := by
  intro s us rest hus he hrest hrec hstop hfollow
  obtain ⟨us₁, us₂, rfl, h₁, h₂⟩ := List.map_eq_append_iff.mp hus
  rw [List.append_assoc] at hrest
  obtain ⟨a, hrun, ha⟩ := hx s us₁ (us₂ ++ rest) h₁ (fun u hu => he u (List.mem_append_left _ hu)) hrest hrec hstop
    (hfront _ (front_of_append h₂ hfollow))
  obtain ⟨b, hrun', hb⟩ := hf a ha { s with rest := us₂ ++ rest } us₂ rest h₂
    (fun u hu => he u (List.mem_append_right _ hu)) rfl hrec hstop hfollow
  refine ⟨b, ?_, hb⟩
  rw [StateT.run_bind, hrun]
  exact hrun'

/-- The last of the rules has nothing left to read. -/
theorem bind_nil {follow₁ : TokenKind → Prop} (hx : Reads x ts follow₁ Q) (hfollow : ∀ k, follow k → follow₁ k)
    (hf : ∀ a, Q a → Reads (f a) [] follow R) : Reads (x >>= f) ts follow R := by
  rw [← List.append_nil ts]
  exact hx.bind hfollow hf

/-- A rule reads what it reads with the calls that it makes. -/
theorem call {c : Call α} (h : Reads (Rules.whole.next c) ts follow Q) : Reads (Rules.whole c) ts follow Q := by
  intro s us rest hus he hrest hrec hstop hfollow
  rw [StateT.run, Rules.whole_next c hstop]
  exact h s us rest hus he hrest hrec hstop hfollow

/-! ### Looking at tokens -/

theorem run_peek {s : ParseState} {us rest : List Token} (h : s.rest = us ++ rest) :
    Rule.peek.run s = ((us ++ rest).headD s.stop, s) := by
  rw [← h]
  rfl

theorem peek {f : Token → Rule β} (h : ∀ u, u.bare = t → Reads (f u) (t :: ts) follow R) :
    Reads (Rule.peek >>= f) (t :: ts) follow R := by
  intro s us rest hus he hrest hrec hstop hfollow
  obtain ⟨u, us, rfl, hu, -⟩ := List.map_eq_cons_iff.mp hus
  obtain ⟨b, hrun, hb⟩ := h u hu s (u :: us) rest hus he hrest hrec hstop hfollow
  refine ⟨b, ?_, hb⟩
  rw [StateT.run_bind, run_peek hrest]
  exact hrun

theorem peek_first {f : Token → Rule β} (hts : ts ≠ []) (h : ∀ u, u.bare = firstOf ts → Reads (f u) ts follow R) :
    Reads (Rule.peek >>= f) ts follow R := by
  cases ts with
  | nil => exact absurd rfl hts
  | cons t ts => exact .peek h

/-- Looks at the token behind a text that has been read. -/
theorem peek_nil {f : Token → Rule β} (h : ∀ u, follow u.kind → Reads (f u) [] follow R) :
    Reads (Rule.peek >>= f) [] follow R := by
  intro s us rest hus he hrest hrec hstop hfollow
  obtain rfl : us = [] := List.map_eq_nil_iff.mp hus
  obtain ⟨b, hrun, hb⟩ := h (rest.headD s.stop) hfollow s [] rest rfl he hrest hrec hstop hfollow
  refine ⟨b, ?_, hb⟩
  rw [StateT.run_bind, run_peek hrest]
  exact hrun

theorem peekSecond {f : Token → Rule β} {t' : Token} (h : ∀ u, u.bare = t' → Reads (f u) (t :: t' :: ts) follow R) :
    Reads (Rule.peekSecond >>= f) (t :: t' :: ts) follow R := by
  intro s us rest hus he hrest hrec hstop hfollow
  obtain ⟨u, us, rfl, -, hus'⟩ := List.map_eq_cons_iff.mp hus
  obtain ⟨u', us, rfl, hu', -⟩ := List.map_eq_cons_iff.mp hus'
  obtain ⟨b, hrun, hb⟩ := h u' hu' s (u :: u' :: us) rest hus he hrest hrec hstop hfollow
  refine ⟨b, ?_, hb⟩
  have hpeek : Rule.peekSecond.run s = (u', s) := by
    show (s.rest.tail.headD s.stop, s) = _
    rw [hrest]
    rfl
  rw [StateT.run_bind, hpeek]
  exact hrun

theorem isRecovering {f : Bool → Rule β} (h : Reads (f false) ts follow R) : Reads (Rule.isRecovering >>= f) ts follow R := by
  intro s us rest hus he hrest hrec hstop hfollow
  obtain ⟨b, hrun, hb⟩ := h s us rest hus he hrest hrec hstop hfollow
  refine ⟨b, ?_, hb⟩
  have hflag : Rule.isRecovering.run s = (false, s) := by
    show (s.recovering, s) = _
    rw [hrec]
  rw [StateT.run_bind, hflag]
  exact hrun

theorem get {f : ParseState → Rule β}
    (h : ∀ s us rest, us.map Token.bare = ts → s.rest = us ++ rest → Reads (f s) ts follow R) :
    Reads (MonadState.get >>= f) ts follow R := by
  intro s us rest hus he hrest hrec hstop hfollow
  exact h s us rest hus hrest s us rest hus he hrest hrec hstop hfollow

theorem check {f : Bool → Rule β} {kind : TokenKind} {b : Bool} (hb : ∀ k, front ts follow k → (k == kind) = b)
    (h : Reads (f b) ts follow R) : Reads (Rule.check kind >>= f) ts follow R := by
  intro s us rest hus he hrest hrec hstop hfollow
  obtain ⟨c, hrun, hc⟩ := h s us rest hus he hrest hrec hstop hfollow
  refine ⟨c, ?_, hc⟩
  have hcheck : (Rule.check kind).run s = (b, s) := by
    show ((s.rest.headD s.stop).kind == kind, s) = _
    rw [hrest, hb _ (front_of_append hus hfollow)]
  rw [StateT.run_bind, hcheck]
  exact hrun

/-! ### Taking tokens -/

theorem run_take {s : ParseState} {u : Token} {us : List Token} (h : s.rest = u :: us) (hu : u.kind.isError = false) :
    (Rule.take 1).run s = ((), { s with rest := us }) := by
  have herrors : lexicalErrors (s.rest.take 1) = [] := by
    rw [h]
    show lexicalErrors [u] = []
    unfold lexicalErrors
    cases hk : u.kind <;> simp_all [TokenKind.isError]
  show ((), { s with rest := s.rest.drop 1, errors := s.errors ++ lexicalErrors (s.rest.take 1) }) = _
  rw [herrors, List.append_nil, h]
  rfl

theorem take {f : Unit → Rule β} (h : Reads (f ()) ts follow R) : Reads (Rule.take 1 >>= f) (t :: ts) follow R := by
  intro s us rest hus he hrest hrec hstop hfollow
  obtain ⟨u, us, rfl, -, hus'⟩ := List.map_eq_cons_iff.mp hus
  obtain ⟨hu, he⟩ := List.forall_mem_cons.mp he
  obtain ⟨b, hrun, hb⟩ := h { s with rest := us ++ rest } us rest hus' he rfl hrec hstop hfollow
  refine ⟨b, ?_, hb⟩
  rw [StateT.run_bind, run_take hrest hu]
  exact hrun

theorem bump {f : Token → Rule β} (h : ∀ u, u.bare = t → Reads (f u) ts follow R) :
    Reads (Rule.bump >>= f) (t :: ts) follow R := by
  unfold Rule.bump
  simp only [bind_assoc, LawfulMonad.pure_bind]
  exact .peek fun u hu => .take (h u hu)

theorem eat {f : Bool → Rule β} {kind : TokenKind} (ht : t.kind = kind) (h : Reads (f true) ts follow R) :
    Reads (Rule.eat kind >>= f) (t :: ts) follow R := by
  unfold Rule.eat
  rw [bind_assoc]
  refine .check (b := true) (fun k hk => by rw [show k = t.kind from hk, ht, beq_self_eq_true]) ?_
  simp only [if_true, bind_assoc, LawfulMonad.pure_bind]
  exact .take h

theorem eat_other {f : Bool → Rule β} {kind : TokenKind} (hk : ∀ k, front ts follow k → k ≠ kind)
    (h : Reads (f false) ts follow R) : Reads (Rule.eat kind >>= f) ts follow R := by
  unfold Rule.eat
  rw [bind_assoc]
  refine .check (b := false) (fun k hk' => beq_eq_false_iff_ne.mpr (hk k hk')) ?_
  simpa only [Bool.false_eq_true, if_false, LawfulMonad.pure_bind] using h

theorem expect? {f : Option Token → Rule β} {kind : TokenKind} (ht : t.kind = kind)
    (h : ∀ u, u.bare = t → Reads (f (some u)) ts follow R) : Reads (Rule.expect? kind >>= f) (t :: ts) follow R := by
  unfold Rule.expect?
  rw [bind_assoc]
  refine .isRecovering ?_
  simp only [Bool.false_eq_true, if_false, bind_assoc]
  refine .peek fun u hu => .eat ht ?_
  simpa only [if_true, LawfulMonad.pure_bind] using h u hu

theorem expect {f : Bool → Rule β} {kind : TokenKind} (ht : t.kind = kind) (h : Reads (f true) ts follow R) :
    Reads (Rule.expect kind >>= f) (t :: ts) follow R := by
  unfold Rule.expect
  simp only [bind_assoc, LawfulMonad.pure_bind]
  exact .expect? ht fun u _ => h

/-- A rule that has read something needs no help to get on. -/
theorem advancing (hts : ts ≠ []) (h : Reads x ts follow Q) : Reads (Rule.advancing x) ts follow Q := by
  intro s us rest hus he hrest hrec hstop hfollow
  obtain ⟨a, hrun, ha⟩ := h s us rest hus he hrest hrec hstop hfollow
  refine ⟨a, ?_, ha⟩
  have hlen : rest.length ≠ s.rest.length := by
    have hpos : us ≠ [] := fun heq => hts (by rw [← hus, heq]; rfl)
    have := List.length_pos_iff.mpr hpos
    rw [hrest, List.length_append]
    omega
  show (x >>= fun a => do
    if (← Rule.left) = s.rest.length then Rule.take 1
    return a : Rule α).run s = _
  rw [StateT.run_bind, hrun]
  show (if rest.length = s.rest.length then Rule.take 1 >>= fun _ => Pure.pure a else Pure.pure a : Rule α).run _ = _
  rw [if_neg hlen]
  rfl

end Reads
end Wordstack
