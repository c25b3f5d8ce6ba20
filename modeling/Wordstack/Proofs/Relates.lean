/-
What rules take from a text. Every rule that leaves something out reports it, or has found that something was
reported before; and a token that the scanner could not make sense of is reported when it is taken, by whatever rule, and
only then. A text without errors is never skipped, so each rule relates the tokens that are left before it to its result
and to the tokens that are left behind it. It is known only at the end that there were no errors; a fact about a part
is therefore a premise of what is said about the whole.
-/
import Wordstack.Proofs.Termination

namespace Wordstack

/-! ## Lexical errors -/

/-- What the scanner has found wrong with a token. -/
def Token.lexError? (t : Token) : Option (LexError × Span) :=
  match t.kind with
  | .error e => some (e, t.span)
  | _ => none

/-- What is reported about a token by itself. -/
def ParseError.lexical? : ParseError → Option (LexError × Span)
  | .lexical e span => some (e, span)
  | _ => none

theorem Rule.filterMap_lexicalErrors (ts : List Token) :
    (lexicalErrors ts).filterMap ParseError.lexical? = ts.filterMap Token.lexError? := by
  refine List.filterMap_filterMap.trans (congrArg (List.filterMap · ts) (funext fun t => ?_))
  unfold Token.lexError?
  cases t.kind <;> rfl

/-! ## States -/

/-- What is left to read of `text` is formed well, recovery has a reason, and the errors of the tokens that are not left
have been reported. -/
structure ParseState.Sound (text : List Token) (s : ParseState) : Prop where
  rest : ∀ t ∈ s.rest, t.Formed
  stop : s.stop.kind = .eof
  recovering : s.recovering = true → s.errors ≠ []
  lexical : s.errors.filterMap ParseError.lexical? ++ s.rest.filterMap Token.lexError? = text.filterMap Token.lexError?

theorem ParseState.sound_start (source : String) : (ParseState.start (scan source)).Sound (scan source).tokens := by
  obtain ⟨hformed, hstop⟩ := Cursor.formed_tokens (.ofSource source)
  exact ⟨hformed, hstop, nofun, List.nil_append _⟩

theorem ParseState.Sound.head {text : List Token} {s : ParseState} (h : s.Sound text) : (s.rest.headD s.stop).Formed := by
  cases hr : s.rest with
  | nil => simp [Token.Formed, h.stop, TokenKind.Carries]
  | cons t ts => exact h.rest t (hr ▸ List.mem_cons_self)

/-! ## What rules relate -/

open Rule

/-- If `x` leaves a text without errors, it has found it so, and `Q` holds of the tokens left before it, of its result and
of the tokens left behind it. -/
structure Relates (text : List Token) {α : Type} (x : Rule α) (Q : List Token → α → List Token → Prop) : Prop where
  inv : ∀ s : ParseState, s.Sound text → (x s).2.Sound text
  clean : ∀ s : ParseState, s.Sound text → (x s).2.errors = [] → s.errors = [] ∧ Q s.rest (x s).1 (x s).2.rest

/-- The token that is seen in front of a text: its first one, or the end of the file. -/
def Token.Heads (t : Token) (ts : List Token) : Prop := ts = t :: ts.tail ∨ ts = [] ∧ t.kind = .eof

theorem Token.Heads.cons {t : Token} {ts : List Token} (h : t.Heads ts) (hk : t.kind ≠ .eof) : ts = t :: ts.tail :=
  h.resolve_right fun hend => hk hend.2

theorem Token.Heads.eq {t u : Token} {us : List Token} (h : t.Heads (u :: us)) : t = u := by
  rcases h with hcons | ⟨hnil, -⟩
  · exact (List.cons.inj hcons).1.symm
  · cases hnil

theorem Token.heads_headD {ts : List Token} {stop : Token} (h : stop.kind = .eof) : (ts.headD stop).Heads ts := by
  cases ts with
  | nil => exact .inr ⟨rfl, h⟩
  | cons t ts => exact .inl rfl

theorem Token.Heads.kind_eq {t t' : Token} {ts : List Token} (h : t.Heads ts) (h' : t'.Heads ts) : t.kind = t'.kind := by
  cases ts with
  | nil =>
    obtain ⟨-, h⟩ := h.resolve_left (List.cons_ne_nil _ _).symm
    obtain ⟨-, h'⟩ := h'.resolve_left (List.cons_ne_nil _ _).symm
    rw [h, h']
  | cons u us =>
    obtain ⟨h, -⟩ := List.cons.inj (h.resolve_right fun hend => List.cons_ne_nil _ _ hend.1)
    obtain ⟨h', -⟩ := List.cons.inj (h'.resolve_right fun hend => List.cons_ne_nil _ _ hend.1)
    rw [← h, ← h']

namespace Relates

variable {text : List Token} {α β : Type} {x : Rule α} {f : α → Rule β}
  {P Q : List Token → α → List Token → Prop} {Q' : List Token → β → List Token → Prop}

theorem pure {a : α} (h : ∀ ts, Q ts a ts) : Relates text (Pure.pure a) Q := ⟨fun _ hs => hs, fun _ _ hc => ⟨hc, h _⟩⟩

theorem mono (hx : Relates text x P) (h : ∀ ts a ts', P ts a ts' → Q ts a ts') : Relates text x Q := by
  refine ⟨hx.inv, fun s hs hc => ?_⟩
  obtain ⟨h₀, hp⟩ := hx.clean s hs hc
  exact ⟨h₀, h _ _ _ hp⟩

theorem bind (hx : Relates text x P) (hf : ∀ a, Relates text (f a) fun ts' b ts'' => ∀ ts, P ts a ts' → Q' ts b ts'') :
    Relates text (x >>= f) Q' := by
  refine ⟨fun s hs => (hf _).inv _ (hx.inv s hs), fun s hs hc => ?_⟩
  obtain ⟨hm, hq⟩ := (hf _).clean _ (hx.inv s hs) hc
  obtain ⟨h₀, hp⟩ := hx.clean s hs hm
  exact ⟨h₀, hq _ hp⟩

/-- A rule that does not come back without a report. -/
theorem of_false (hx : Relates text x fun _ _ _ => False) : Relates text x Q := hx.mono fun _ _ _ h => h.elim

/-- A way that is taken only if something was reported. -/
theorem ends (hx : Relates text x P) (g : α → β) : Relates text (x >>= fun a => Pure.pure (g a)) fun _ _ _ => True :=
  hx.bind fun _ => .pure fun _ _ _ => trivial

/-- A report is not taken back. -/
theorem fails (hx : Relates text x fun _ _ _ => False) (g : α → β) : Relates text (x >>= fun a => Pure.pure (g a)) Q' :=
  hx.bind fun _ => .pure fun _ _ h => h.elim

/-! ### Looking at tokens -/

/-- A rule that only looks. -/
theorem look {g : ParseState → α} (h : ∀ s : ParseState, s.Sound text → P s.rest (g s) s.rest) :
    Relates text (fun s => (g s, s)) P :=
  ⟨fun _ hs => hs, fun s hs hc => ⟨hc, h s hs⟩⟩

theorem peek : Relates text Rule.peek fun ts t ts' => ts' = ts ∧ t.Heads ts :=
  look (g := fun s => s.rest.headD s.stop) fun _ hs => ⟨rfl, Token.heads_headD hs.stop⟩

theorem peekSecond : Relates text Rule.peekSecond fun ts t ts' => ts' = ts ∧ t.Heads ts.tail :=
  look (g := fun s => s.rest.tail.headD s.stop) fun _ hs => ⟨rfl, Token.heads_headD hs.stop⟩

theorem get : Relates text (MonadState.get : Rule ParseState) fun ts s ts' => ts' = ts ∧ s.rest = ts :=
  look (g := id) fun _ _ => ⟨rfl, rfl⟩

theorem left : Relates text Rule.left fun ts n ts' => ts' = ts ∧ n = ts.length :=
  look (g := fun s => s.rest.length) fun _ _ => ⟨rfl, rfl⟩

theorem check (kind : TokenKind) :
    Relates text (Rule.check kind) fun ts b ts' => ts' = ts ∧ ∃ t : Token, t.Heads ts ∧ (t.kind == kind) = b :=
  look (g := fun s => (s.rest.headD s.stop).kind == kind) fun s hs => ⟨rfl, s.rest.headD s.stop, Token.heads_headD hs.stop, rfl⟩

theorem isRecovering : Relates text Rule.isRecovering fun ts b ts' => ts' = ts ∧ b = false := by
  refine ⟨fun _ hs => hs, fun s hs hc => ⟨hc, rfl, ?_⟩⟩
  exact Bool.eq_false_iff.mpr fun hr => hs.recovering hr hc

/-! ### Taking tokens -/

/-- The errors of the tokens that are taken come behind those that were reported before. -/
theorem take (n : Nat) : Relates text (Rule.take n) fun ts _ ts' => ts' = ts.drop n := by
  refine ⟨fun s h => ⟨fun t ht => h.rest t (List.mem_of_mem_drop ht), h.stop, fun hr he => ?_, ?_⟩,
    fun s h hc => ⟨(List.append_eq_nil_iff.mp hc).1, rfl⟩⟩
  · exact h.recovering hr (List.append_eq_nil_iff.mp he).1
  · show (s.errors ++ lexicalErrors (s.rest.take n)).filterMap _ ++ (s.rest.drop n).filterMap _ = _
    rw [List.filterMap_append, filterMap_lexicalErrors, List.append_assoc, ← List.filterMap_append, List.take_append_drop]
    exact h.lexical

theorem bump : Relates text Rule.bump fun ts t ts' => t.Heads ts ∧ ts' = ts.tail := by
  refine peek.bind fun t => (take 1).bind fun _ => .pure ?_
  rintro _ ts rfl _ ⟨rfl, ht⟩
  exact ⟨ht, List.drop_one⟩

theorem eat (kind : TokenKind) : Relates text (Rule.eat kind) fun ts b ts' =>
      (∃ t : Token, t.Heads ts ∧ (t.kind == kind) = b) ∧ ts' = if b then ts.tail else ts := by
  refine (check kind).bind fun b => ?_
  cases b with
  | true =>
    refine (take 1).bind fun _ => .pure ?_
    rintro _ ts rfl _ ⟨rfl, ht⟩
    exact ⟨ht, List.drop_one⟩
  | false =>
    refine .pure ?_
    rintro _ ts ⟨rfl, ht⟩
    exact ⟨ht, rfl⟩

/-- After a report the text has an error. -/
theorem report {e : ParseError} (he : e.lexical? = none) : Relates text (Rule.report e) fun _ _ _ => False := by
  have hne : ∀ s : ParseState, s.Sound text → (if s.recovering then s.errors else s.errors ++ [e]) ≠ [] := by
    intro s h
    split
    next hr => exact h.recovering hr
    · simp
  have hlexical : ∀ s : ParseState, (if s.recovering then s.errors else s.errors ++ [e]).filterMap ParseError.lexical? =
      s.errors.filterMap ParseError.lexical? := by
    intro s
    split
    · rfl
    · simp [he]
  refine ⟨fun s h => ⟨h.rest, h.stop, fun _ => hne s h, ?_⟩, fun s h hc => absurd hc (hne s h)⟩
  exact (congrArg (· ++ _) (hlexical s)).trans h.lexical

theorem unexpected (expected : Expectation) : Relates text (Rule.unexpected expected) fun _ _ _ => False :=
  peek.bind fun _ => fails (report rfl) _

theorem expect? (kind : TokenKind) :
    Relates text (Rule.expect? kind) fun ts t? ts' => ∃ t, t? = some t ∧ t.Heads ts ∧ t.kind = kind ∧ ts' = ts.tail := by
  refine isRecovering.bind fun b => ?_
  cases b with
  | true => exact .pure fun _ _ h => nomatch h.2
  | false =>
    refine peek.bind fun t => (eat kind).bind fun b => ?_
    cases b with
    | true =>
      refine .pure ?_
      rintro _ _ ⟨⟨u, hu, hkind⟩, rfl⟩ _ ⟨rfl, ht⟩ _ ⟨rfl, -⟩
      exact ⟨t, rfl, ht, (ht.kind_eq hu).trans (eq_of_beq hkind), rfl⟩
    | false => exact fails (unexpected _) _

theorem expect (kind : TokenKind) :
    Relates text (Rule.expect kind) fun ts b ts' => b = true ∧ ∃ t : Token, t.Heads ts ∧ t.kind = kind ∧ ts' = ts.tail := by
  refine (expect? kind).bind fun t? => .pure ?_
  rintro _ _ ⟨t, rfl, ht⟩
  exact ⟨rfl, t, ht⟩

theorem skipStatement : Relates text Rule.skipStatement fun _ _ _ => True := by
  refine get.bind fun s => (take _).bind fun _ => ?_
  exact ⟨fun s h => ⟨h.rest, h.stop, nofun, h.lexical⟩, fun s h hc => ⟨hc, fun _ _ _ _ => trivial⟩⟩

theorem skipUntil (kind : TokenKind) : Relates text (Rule.skipUntil kind) fun _ _ _ => True :=
  get.bind fun _ => (take _).mono fun _ _ _ _ _ _ => trivial

/-- A rule that has taken nothing is helped to get on. -/
theorem advancing (h : Relates text x P) (hmoved : ∀ ts a ts', P ts a ts' → ts'.length ≠ ts.length → Q ts a ts')
    (hstayed : ∀ ts a ts', P ts a ts' → ts'.length = ts.length → Q ts a ts'.tail) : Relates text (Rule.advancing x) Q := by
  refine left.bind fun before => h.bind fun a => left.bind fun after => ?_
  dsimp only
  split
  next heq =>
    refine (take 1).bind fun _ => .pure ?_
    rintro _ _ rfl _ ⟨rfl, rfl⟩ _ hp _ ⟨rfl, rfl⟩
    rw [List.drop_one]
    exact hstayed _ _ _ hp heq
  next hne =>
    refine .pure ?_
    rintro _ _ ⟨rfl, rfl⟩ _ hp _ ⟨rfl, rfl⟩
    exact hmoved _ _ _ hp hne

/-- A broken statement is skipped, so one of a text without errors is not. -/
theorem skipIf (b : Bool) {s : Stmt} :
    Relates text (do
      if b then Rule.skipStatement
      return s) fun ts s' ts' => b = false → s' = s ∧ ts' = ts := by
  cases b with
  | true => exact skipStatement.bind fun _ => .pure fun _ _ _ h => nomatch h
  | false => exact .pure fun _ _ => ⟨rfl, rfl⟩

theorem missingExpr {Q : List Token → Expr → List Token → Prop} : Relates text Rule.missingExpr Q := fails (unexpected _) _

theorem missingType {Q : List Token → TypeExpr → List Token → Prop} : Relates text Rule.missingType Q :=
  fails (unexpected _) _

theorem missingDeclaration {Q : List Token → Stmt → List Token → Prop} : Relates text Rule.missingDeclaration Q :=
  fails (unexpected _) _

end Relates

end Wordstack
