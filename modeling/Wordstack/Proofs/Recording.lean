/-
A text without errors is read as whole trees, and each of its words is the token of one node, and of one only. What a rule
takes from the text is told by the words among it, in their order (`Took`), and what it makes of them by the words of its
result. Some rules take their first token whatever it is (`RecordingNext`): the rule that calls them has looked at it.
-/
import Wordstack.Proofs.Relates
import Wordstack.Proofs.Words

namespace Wordstack

open Rule

/-! ## Words that are taken -/

/-- The tokens from the front of `ts` up to `ts'` have the words `ws`; there are some tokens if `some` says so. -/
def Took (some : Bool) (ts ws ts' : List Token) : Prop :=
  ∃ us, ts = us ++ ts' ∧ us.filter Token.isWord = ws ∧ (some = true → us ≠ [])

namespace Took

variable {b b' : Bool} {t : Token} {ts ts' ts'' ws ws' : List Token}

theorem refl (ts : List Token) : Took false ts [] ts := ⟨[], rfl, rfl, nofun⟩

theorem trans (h : Took b ts ws ts') (h' : Took b' ts' ws' ts'') : Took (b || b') ts (ws ++ ws') ts'' := by
  obtain ⟨us, rfl, rfl, hsome⟩ := h
  obtain ⟨us', rfl, rfl, hsome'⟩ := h'
  refine ⟨us ++ us', (List.append_assoc ..).symm, List.filter_append .., fun hb hnil => ?_⟩
  obtain ⟨rfl, rfl⟩ := List.append_eq_nil_iff.mp hnil
  cases b with
  | true => exact hsome rfl rfl
  | false => exact hsome' hb rfl

theorem weaken (h : Took b ts ws ts') : Took false ts ws ts' := by
  obtain ⟨us, hts, hws, -⟩ := h
  exact ⟨us, hts, hws, nofun⟩

theorem word (h : t.isWord = true) (ts : List Token) : Took b (t :: ts) [t] ts :=
  ⟨[t], rfl, List.filter_cons_of_pos h, fun _ => List.cons_ne_nil _ _⟩

theorem other (h : t.isWord = false) (ts : List Token) : Took b (t :: ts) [] ts :=
  ⟨[t], rfl, List.filter_cons_of_neg (by simp [h]), fun _ => List.cons_ne_nil _ _⟩

theorem shorter (h : Took true ts ws ts') : ts'.length < ts.length := by
  obtain ⟨us, rfl, -, hsome⟩ := h
  have := List.length_pos_iff.mpr (hsome rfl)
  rw [List.length_append]
  omega

theorem seenWord (ht : t.Heads ts) (hk : t.isWord = true) : Took b ts [t] ts.tail := by
  have hcons := ht.cons fun heof => by simp [Token.isWord, TokenKind.isWord, heof] at hk
  have htook := word (b := b) hk ts.tail
  rwa [← hcons] at htook

/-- A token that is seen. -/
theorem tail (ht : t.Heads ts) : ∃ ws, Took false ts ws ts.tail ∧ (t.isWord = false → ws = []) := by
  rcases ht with hcons | ⟨rfl, -⟩
  · cases hword : t.isWord with
    | true => exact ⟨[t], .seenWord (.inl hcons) hword, nofun⟩
    | false =>
      have htook := other (b := false) hword ts.tail
      rw [← hcons] at htook
      exact ⟨[], htook, fun _ => rfl⟩
  · exact ⟨[], .refl [], fun _ => rfl⟩

end Took

/-- Words are taken, and `W` holds of the result and of them. -/
def Recording {α : Type} (b : Bool) (W : α → List Token → Prop) (ts : List Token) (a : α) (ts' : List Token) : Prop :=
  ∃ ws, Took b ts ws ts' ∧ W a ws

/-- The next token is taken, whatever it is, and then words of which `W` holds. -/
def RecordingNext {α : Type} (W : α → List Token → Prop) (ts : List Token) (a : α) (ts' : List Token) : Prop :=
  ∀ t more, ts = t :: more → Recording false W more a ts'

/-- Words are taken if `t` is what comes up. -/
def RecordingAt {α : Type} (t : Token) (b : Bool) (W : α → List Token → Prop) (ts : List Token) (a : α)
    (ts' : List Token) : Prop := t.Formed → t.Heads ts → Recording b W ts a ts'

namespace Relates

variable {text : List Token} {α β : Type} {x : Rule α} {f : α → Rule β} {b : Bool} {t : Token} {kind : TokenKind}
  {W V : α → List Token → Prop} {W' : β → List Token → Prop}

theorem records_pure {a : α} (h : W a []) : Relates text (Pure.pure a) (Recording false W) := .pure fun ts => ⟨[], .refl ts, h⟩

theorem records_mono (hx : Relates text x (Recording b V)) (h : ∀ a ws, V a ws → W a ws) : Relates text x (Recording b W) := by
  refine hx.mono fun ts a ts' hws => ?_
  obtain ⟨ws, htook, hv⟩ := hws
  exact ⟨ws, htook, h a ws hv⟩

/-- What was taken first comes in front of what is taken next. -/
theorem records_bind (hx : Relates text x (Recording false W))
    (hf : ∀ a, Relates text (f a) (Recording b fun c ws' => ∀ ws, W a ws → W' c (ws ++ ws'))) :
    Relates text (x >>= f) (Recording b W') := by
  refine hx.bind fun a => (hf a).mono fun ts' c ts'' hnext ts hws => ?_
  obtain ⟨ws', htook', hw'⟩ := hnext
  obtain ⟨ws, htook, hw⟩ := hws
  exact ⟨ws ++ ws', htook.trans htook', hw' ws hw⟩

/-! ### Looking -/

theorem records_peek {f : Token → Rule β} (h : ∀ t, Relates text (f t) (RecordingAt t b W')) :
    Relates text (Rule.peek >>= f) (Recording b W') := by
  have hpeek : Relates text Rule.peek fun ts t ts' => ts' = ts ∧ t.Formed ∧ t.Heads ts :=
    look (g := fun s => s.rest.headD s.stop) fun _ hs => ⟨rfl, hs.head, Token.heads_headD hs.stop⟩
  refine hpeek.bind fun t => (h t).mono ?_
  rintro ts' c ts'' hrecords _ ⟨rfl, hformed, ht⟩
  exact hrecords hformed ht

theorem records_check {f : Bool → Rule β} (h : ∀ v, Relates text (f v) (Recording b W')) :
    Relates text (Rule.check kind >>= f) (Recording b W') := by
  refine (check kind).bind fun v => (h v).mono ?_
  rintro ts' c ts'' hrecords _ ⟨rfl, -⟩
  exact hrecords

/-- In a text without errors nothing is broken. -/
theorem records_isRecovering {f : Bool → Rule β} (hbroken : Relates text (f true) fun _ _ _ => True)
    (h : Relates text (f false) (Recording b W')) : Relates text (Rule.isRecovering >>= f) (Recording b W') := by
  refine isRecovering.bind fun v => ?_
  cases v with
  | true => exact hbroken.mono fun _ _ _ _ _ hv => nomatch hv.2
  | false =>
    refine h.mono ?_
    rintro ts' c ts'' hrecords _ ⟨rfl, -⟩
    exact hrecords

/-! ### Taking -/

/-- A token that may be there, and is not kept even if it is a word. -/
theorem records_eat_any {f : Bool → Rule β}
    (hyes : Relates text (f true) (Recording b fun c ws => ∀ ws₀, (kind.isWord = false → ws₀ = []) → W' c (ws₀ ++ ws)))
    (hno : Relates text (f false) (Recording b W')) : Relates text (Rule.eat kind >>= f) (Recording b W') := by
  refine (eat kind).bind fun v => ?_
  cases v with
  | true =>
    refine hyes.mono ?_
    rintro ts' c ts'' ⟨ws, htook, hw⟩ ts ⟨⟨t, ht, hk⟩, rfl⟩
    obtain ⟨ws₀, htook₀, h₀⟩ := Took.tail ht
    exact ⟨ws₀ ++ ws, htook₀.trans htook, hw ws₀ (by rwa [Token.isWord, eq_of_beq hk] at h₀)⟩
  | false =>
    refine hno.mono ?_
    rintro ts' c ts'' hrecords ts ⟨-, rfl⟩
    exact hrecords

theorem records_eat {f : Bool → Rule β} (hkind : kind.isWord = false) (hyes : Relates text (f true) (Recording b W'))
    (hno : Relates text (f false) (Recording b W')) : Relates text (Rule.eat kind >>= f) (Recording b W') := by
  refine records_eat_any (hyes.records_mono fun c ws hw ws₀ h₀ => ?_) hno
  rwa [h₀ hkind]

/-- In a text without errors what is expected is there. -/
theorem records_expect_any {f : Bool → Rule β} (hmissed : Relates text (f false) fun _ _ _ => True)
    (h : Relates text (f true) (Recording b fun c ws => ∀ ws₀, (kind.isWord = false → ws₀ = []) → W' c (ws₀ ++ ws))) :
    Relates text (Rule.expect kind >>= f) (Recording b W') := by
  refine (expect kind).bind fun v => ?_
  cases v with
  | true =>
    refine h.mono ?_
    rintro ts' c ts'' ⟨ws, htook, hw⟩ ts ⟨-, t, ht, hk, rfl⟩
    obtain ⟨ws₀, htook₀, h₀⟩ := Took.tail ht
    exact ⟨ws₀ ++ ws, htook₀.trans htook, hw ws₀ (by rwa [Token.isWord, hk] at h₀)⟩
  | false => exact hmissed.mono fun _ _ _ _ _ hv => nomatch hv.1

theorem records_expect {f : Bool → Rule β} (hkind : kind.isWord = false) (hmissed : Relates text (f false) fun _ _ _ => True)
    (h : Relates text (f true) (Recording b W')) : Relates text (Rule.expect kind >>= f) (Recording b W') := by
  refine records_expect_any hmissed (h.records_mono fun c ws hw ws₀ h₀ => ?_)
  rwa [h₀ hkind]

theorem records_ident {f : Option Token → Rule β} (hmissed : Relates text (f none) fun _ _ _ => True)
    (h : ∀ t, Relates text (f (some t)) (Recording b fun c ws => W' c (t :: ws))) :
    Relates text (Rule.expect? .ident >>= f) (Recording b W') := by
  refine (expect? .ident).bind fun t? => ?_
  cases t? with
  | none => exact hmissed.mono fun _ _ _ _ _ ⟨_, ht, _⟩ => nomatch ht
  | some t =>
    refine (h t).mono ?_
    rintro ts' c ts'' ⟨ws, htook, hw⟩ ts ⟨t', heq, ht, hk, rfl⟩
    obtain rfl := Option.some.inj heq
    have hword : t.isWord = true := by rw [Token.isWord, hk]; rfl
    exact ⟨t :: ws, (Took.seenWord (b := false) ht hword).trans htook, hw⟩

/-- A statement that ends with a semicolon has taken something. -/
theorem records_semicolon {a : α} (h : W a []) :
    Relates text (Rule.expect (.symbol .semicolon) >>= fun _ => Pure.pure a) (Recording true W) := by
  refine (expect _).bind fun _ => .pure ?_
  rintro _ ts ⟨-, t, ht, hk, rfl⟩
  have hcons := ht.cons (by simp [hk])
  have hother : t.isWord = false := by rw [Token.isWord, hk]; rfl
  have htook := Took.other (b := true) hother ts.tail
  rw [← hcons] at htook
  exact ⟨[], htook, h⟩

theorem records_weaken (h : Relates text x (Recording b W)) : Relates text x (Recording false W) := by
  refine h.mono fun ts a ts' hws => ?_
  obtain ⟨ws, htook, hw⟩ := hws
  exact ⟨ws, htook.weaken, hw⟩

/-! ### Behind a token that was looked at -/

theorem recordsAt_of (h : Relates text x (Recording b W)) : Relates text x (RecordingAt t b W) :=
  h.mono fun _ _ _ hrecords _ _ => hrecords

theorem recordsAt_word {x : Rule β} (hk : t.kind = kind) (hkind : kind.isWord = true)
    (h : Relates text x (Recording false fun c ws => t.Formed → W' c (t :: ws))) :
    Relates text (Rule.bump >>= fun _ => x) (RecordingAt t b W') := by
  have hword : t.isWord = true := by rw [Token.isWord, hk, hkind]
  refine bump.bind fun _ => h.mono ?_
  rintro ts' c ts'' ⟨ws, htook, hw⟩ ts ⟨-, rfl⟩ hformed ht
  have hall := (Took.seenWord (b := b) ht hword).trans htook
  rw [Bool.or_false] at hall
  exact ⟨t :: ws, hall, hw hformed⟩

/-- A rule that takes the next token, which is known and no word. -/
theorem recordsAt_next (hk : t.kind = kind) (hkind : (kind.isWord || kind == .eof) = false)
    (h : Relates text x (RecordingNext W)) : Relates text x (RecordingAt t b W) := by
  obtain ⟨hother, heof⟩ := Bool.or_eq_false_iff.mp hkind
  refine h.mono fun ts a ts' hnext _ ht => ?_
  have hcons := ht.cons (hk ▸ beq_eq_false_iff_ne.mp heof)
  obtain ⟨ws, htook, hw⟩ := hnext t ts.tail hcons
  have hall := (Took.other (b := b) (by rw [Token.isWord, hk, hother]) ts.tail).trans htook
  rw [← hcons, Bool.or_false] at hall
  exact ⟨ws, hall, hw⟩

theorem recordsNext_bump {f : Token → Rule β} (h : ∀ t, Relates text (f t) (Recording b W')) :
    Relates text (Rule.bump >>= f) (RecordingNext W') := by
  refine bump.bind fun t => (records_weaken (h t)).mono ?_
  rintro ts' c ts'' hrecords ts ⟨-, rfl⟩ t' more rfl
  exact hrecords

theorem recordsAt_other {x : Rule β} (hk : t.kind = kind) (hkind : (kind.isWord || kind == .eof) = false)
    (h : Relates text x (Recording false W')) : Relates text (Rule.bump >>= fun _ => x) (RecordingAt t b W') :=
  .recordsAt_next hk hkind (.recordsNext_bump fun _ => h)

end Relates

theorem Token.isIdent_of_symbol {t : Token} {s : Symbol} (h : t.kind = .symbol s) : t.isIdent = false := by
  simp [Token.isIdent, h]

/-! ## What the rules make of words -/

/-- Nothing is missing in the result of a call, and its words are those that the call has taken. -/
def Call.Records {α : Type} : Call α → List Token → α → List Token → Prop
  | .expr _ | .operand => Recording false fun e ws => e.Whole ∧ e.words = ws
  | .operators _ left => Recording false fun e ws => left.Whole → e.Whole ∧ e.words = left.words ++ ws
  | .arguments _ close => Recording false fun es ws => Expr.WholeAll es ∧ (close.isWord = false → Expr.wordsAll es = ws)
  | .members _ close => Recording false fun es ws =>
    (Expr.WholeAll es ∧ es ≠ []) ∧ (close.isWord = false → Expr.wordsAll es = ws)
  | .indices _ => Recording false fun es ws => (Expr.WholeAll es ∧ es ≠ []) ∧ Expr.wordsAll es = ws
  | .exprs _ | .furtherMembers => Recording false fun es ws => Expr.WholeAll es ∧ Expr.wordsAll es = ws
  | .typeExpr => Recording false fun ty ws => ty.Whole ∧ ty.words = ws
  | .types => Recording false fun tys ws => TypeExpr.WholeAll tys ∧ TypeExpr.wordsAll tys = ws
  | .parameters _ | .parameterList => Recording false fun ps ws => Param.WholeAll ps ∧ Param.wordsAll ps = ws
  | .parameter => Recording false fun p ws => p.Whole ∧ p.words = ws
  | .path _ | .variants _ => Recording false fun ns ws => (∀ n ∈ ns, n.Whole) ∧ ns.flatMap Name.words = ws
  | .names => fun ts ns ts' => declaresMany ts = true → Recording true (fun ns ws => ns = ws) ts ns ts' ∧
    ∃ colon more, ts' = colon :: more ∧ colon.kind = .symbol .colon
  | .statement | .statementForm => Recording true fun s ws => s.Whole ∧ s.words = ws
  | .ifStatement | .whileStatement => RecordingNext fun s ws => s.Whole ∧ s.words = ws
  | .record _ name => RecordingNext fun s ws => s.Whole ∧ s.words = name :: ws
  | .declaration => fun ts s ts' => ∀ name colon more, ts = name :: colon :: more →
    Recording false (fun s ws => s.Whole ∧ s.words = name :: ws) more s ts'
  | .blockBody _ | .fields _ | .items => Recording false fun ss ws => Stmt.WholeAll ss ∧ Stmt.wordsAll ss = ws

/-- Rules that report what they leave out, and keep the words of what they read. -/
def Rules.Record (text : List Token) (r : Rules) : Prop := ∀ {α : Type} (c : Call α), Relates text (r c) c.Records

namespace Rules.Record

variable {text : List Token} {r : Rules} (h : r.Record text)
include h

theorem expr (power : Nat) : Relates text (r.next (.expr power)) (Call.Records (.expr power)) := by
  refine .records_bind (h .operand) fun first => (h (.operators power first)).records_mono ?_
  rintro e ws he _ ⟨hfirst, rfl⟩
  exact he hfirst

theorem operators (power : Nat) (left : Expr) :
    Relates text (r.next (.operators power left)) (Call.Records (.operators power left)) := by
  have hleft : Relates text (pure left) (Recording false fun e ws => left.Whole → e.Whole ∧ e.words = left.words ++ ws) :=
    .records_pure fun hl => ⟨hl, (List.append_nil _).symm⟩
  have hmore : ∀ {α : Type} {x : Rule α} {P : α → Prop} {V : α → List Token} (g : α → Expr) {t : Token} {s : Symbol},
      t.kind = .symbol s → Relates text x (Recording false fun a ws => P a ∧ V a = ws) →
      (∀ a, left.Whole → P a → (g a).Whole) → (∀ a, (g a).words = left.words ++ V a) →
      Relates text (bump >>= fun _ => x >>= fun a => r (.operators power (g a)))
        (RecordingAt t false fun e ws => left.Whole → e.Whole ∧ e.words = left.words ++ ws) := by
    intro α x P V g t s ht hx hwhole hwords
    refine .recordsAt_other ht rfl (.records_bind hx fun a => (h (.operators power (g a))).records_mono ?_)
    rintro e ws he _ ⟨ha, rfl⟩ hl
    obtain ⟨hwhole', hwords'⟩ := he (hwhole a hl ha)
    exact ⟨hwhole', by rw [hwords', hwords, List.append_assoc]⟩
  refine .records_isRecovering (.pure fun _ => trivial) (.records_peek fun t => ?_)
  split
  next hk =>
    split
    · exact hleft.recordsAt_of
    · refine hmore (P := Expr.WholeAll) (V := Expr.wordsAll) (.call t left) hk ?_ ?_ fun _ => rfl
      · exact (h (.arguments t _)).records_mono fun _ _ hes => ⟨hes.1, hes.2 rfl⟩
      · exact fun _ hl hargs => .call (Token.isIdent_of_symbol hk) hl hargs
  next hk =>
    split
    · exact hleft.recordsAt_of
    · refine hmore (V := Expr.wordsAll) (.index t left) hk (h (.indices t)) ?_ fun _ => rfl
      rintro args hl ⟨hargs, hne⟩
      cases hargs with
      | nil => exact absurd rfl hne
      | cons hi hmore => exact .index (Token.isIdent_of_symbol hk) hl hi hmore
  next s _ _ hk =>
    split
    · exact hleft.recordsAt_of
    next op _ =>
      split
      · exact hleft.recordsAt_of
      · exact hmore (V := Expr.words) (.binary op t left) hk (h (.expr _))
          (fun _ => .binary (Token.isIdent_of_symbol hk)) fun _ => rfl
  · exact hleft.recordsAt_of

theorem operand : Relates text (r.next .operand) (Call.Records .operand) := by
  refine .records_peek fun t => ?_
  have hatom : ∀ {kind : TokenKind}, t.kind = kind → kind.isWord = true → t.IsLiteralOrName →
      Relates text (do let _ ← bump; return Expr.atom t) (RecordingAt t false fun e ws => e.Whole ∧ e.words = ws) :=
    fun hk hkind hvalue => .recordsAt_word hk hkind (.records_pure fun hformed => ⟨.atom (hformed.isValue hvalue), rfl⟩)
  split
  next hk => exact hatom hk rfl (.inl hk)
  next hk => exact hatom hk rfl (.inr (.inl hk))
  next hk => exact hatom hk rfl (.inr (.inr (.inl hk)))
  next hk => exact hatom hk rfl (.inr (.inr (.inr (.inl hk))))
  next hk => exact hatom hk rfl (.inr (.inr (.inr (.inr (.inl hk)))))
  next hk => exact hatom hk rfl (.inr (.inr (.inr (.inr (.inr hk)))))
  next hk =>
    refine .recordsAt_other hk rfl (.records_bind (h (.expr 0)) fun inner => ?_)
    refine .records_isRecovering (.ends (.skipUntil _) _) (.records_expect rfl (.ends (.skipUntil _) _) (.records_pure ?_))
    rintro _ ⟨hinner, rfl⟩
    exact ⟨hinner, (List.append_nil _).symm⟩
  next hk =>
    refine .recordsAt_other hk rfl (.records_expect rfl (.pure fun _ => trivial) ?_)
    refine .records_bind (h .typeExpr) fun ty => .records_expect rfl (.ends (.skipUntil _) _) ?_
    refine .records_bind (h (.expr castPower)) fun e => .records_pure ?_
    rintro _ ⟨he, rfl⟩ _ ⟨hty, rfl⟩
    exact ⟨.cast (by simp [Token.isIdent, hk]) hty he, by rw [List.append_nil]; rfl⟩
  · exact .of_false (Relates.bump.bind fun _ => (Relates.fails (.report rfl) _).mono fun _ _ _ h _ _ => h)
  next s _ hk =>
    split
    · refine .recordsAt_other hk rfl (.records_bind (h (.expr unaryPower)) fun e => .records_pure ?_)
      rintro _ ⟨he, rfl⟩
      exact ⟨.unary (Token.isIdent_of_symbol hk) he, (List.append_nil _).symm⟩
    · exact .missingExpr
  · exact .missingExpr

/-! ### Lists -/

theorem members (start : Token) (close : TokenKind) :
    Relates text (r.next (.members start close)) (Call.Records (.members start close)) := by
  refine .records_bind (h (.expr 0)) fun e => .records_isRecovering (.ends (.skipUntil _) _) (.records_eat rfl ?_ ?_)
  · refine .records_bind (h (.members start close)) fun es => .records_pure ?_
    rintro ws ⟨⟨hes, -⟩, hws⟩ _ ⟨he, rfl⟩
    refine ⟨⟨.cons he hes, List.cons_ne_nil _ _⟩, fun hclose => ?_⟩
    rw [List.append_nil, ← hws hclose]
    rfl
  · refine .records_expect_any (.ends (.skipUntil _) _) (.records_pure ?_)
    rintro ws hws _ ⟨he, rfl⟩
    refine ⟨⟨.cons he .nil, List.cons_ne_nil _ _⟩, fun hclose => ?_⟩
    rw [hws hclose]
    rfl

theorem arguments (start : Token) (close : TokenKind) :
    Relates text (r.next (.arguments start close)) (Call.Records (.arguments start close)) := by
  refine .records_eat_any (.records_pure ?_) ((h (.members start close)).records_mono fun _ _ hes => ⟨hes.1.1, hes.2⟩)
  rintro ws hws
  exact ⟨.nil, fun hclose => by rw [hws hclose]; rfl⟩

theorem indices (start : Token) : Relates text (r.next (.indices start)) (Call.Records (.indices start)) := by
  refine .records_eat rfl (.fails (.report rfl) _) ((h (.members start (.symbol .bracketClose))).records_mono ?_)
  exact fun _ _ hes => ⟨hes.1, hes.2 rfl⟩

omit h in
/-- Things that are separated by commas. -/
theorem list {α : Type} {x : Rule α} {xs : Rule (List α)} {P : α → Prop} {Ps : List α → Prop} {V : α → List Token}
    {Vs : List α → List Token} (hx : Relates text x (Recording false fun a ws => P a ∧ V a = ws))
    (hxs : Relates text xs (Recording false fun as ws => Ps as ∧ Vs as = ws)) (hnil : Ps [] ∧ Vs [] = [])
    (hcons : ∀ a as, (P a → Ps as → Ps (a :: as)) ∧ Vs (a :: as) = V a ++ Vs as) :
    Relates text (do
      let a ← x
      if ← isRecovering then return [a]
      else if ← eat (.symbol .comma) then
        let as ← xs
        return a :: as
      else return [a]) (Recording false fun as ws => Ps as ∧ Vs as = ws) := by
  refine .records_bind hx fun a => .records_isRecovering (.pure fun _ => trivial) (.records_eat rfl ?_ (.records_pure ?_))
  · refine .records_bind hxs fun as => .records_pure ?_
    rintro _ ⟨has, rfl⟩ _ ⟨ha, rfl⟩
    exact ⟨(hcons a as).1 ha has, by rw [(hcons a as).2, List.append_nil]⟩
  · rintro _ ⟨ha, rfl⟩
    exact ⟨(hcons a []).1 ha hnil.1, by rw [(hcons a []).2, hnil.2]⟩

theorem furtherMembers : Relates text (r.next .furtherMembers) (Call.Records .furtherMembers) := by
  refine .records_eat rfl ?_ (.records_pure ⟨.nil, rfl⟩)
  refine .records_bind (h (.expr memberPower)) fun e => .records_bind (h .furtherMembers) fun es => .records_pure ?_
  rintro _ ⟨hes, rfl⟩ _ ⟨he, rfl⟩
  exact ⟨.cons he hes, by rw [List.append_nil]; rfl⟩

/-! ### Types -/

theorem typeExpr : Relates text (r.next .typeExpr) (Call.Records .typeExpr) := by
  refine .records_peek fun t => ?_
  split
  next hk =>
    refine .recordsAt_other hk rfl (.records_bind (h .typeExpr) fun ty => .records_pure ?_)
    rintro _ ⟨hty, rfl⟩
    exact ⟨.pointer hty, (List.append_nil _).symm⟩
  next hk =>
    refine .recordsAt_other hk rfl (.records_check fun v => ?_)
    split
    · refine .records_expect rfl (.pure fun _ => trivial) (.records_bind (h .typeExpr) fun ty => .records_pure ?_)
      rintro _ ⟨hty, rfl⟩
      exact ⟨.openArray hty, (List.append_nil _).symm⟩
    · refine .records_bind (h (.expr 0)) fun length => .records_expect rfl (.pure fun _ => trivial) ?_
      refine .records_bind (h .typeExpr) fun ty => .records_pure ?_
      rintro _ ⟨hty, rfl⟩ _ ⟨hlength, rfl⟩
      exact ⟨.array hlength hty, by rw [List.append_nil]; rfl⟩
  next hk => exact .recordsAt_word hk rfl (.records_pure fun _ => ⟨.name t, rfl⟩)
  next hk => exact .recordsAt_word hk rfl (.records_pure fun _ => ⟨.name t, rfl⟩)
  next hk =>
    refine .recordsAt_other hk rfl (.records_bind (h (.parameters t)) fun ps => ?_)
    refine .records_isRecovering (.pure fun _ => trivial) (.records_eat rfl ?_ (.records_pure ?_))
    · refine .records_peek fun start => .recordsAt_of (.records_bind (h .types) fun rs => .records_pure ?_)
      rintro _ ⟨hrs, rfl⟩ _ ⟨hps, rfl⟩
      exact ⟨.functionTo hps hrs, by rw [List.append_nil]; rfl⟩
    · rintro _ ⟨hps, rfl⟩
      exact ⟨.function hps, (List.append_nil _).symm⟩
  · exact .missingType

theorem parameter : Relates text (r.next .parameter) (Call.Records .parameter) := by
  refine .records_ident (.ends .peek _) fun name => ?_
  refine .records_expect rfl (.pure fun _ => trivial) (.records_bind (h .typeExpr) fun ty => .records_pure ?_)
  rintro _ ⟨hty, rfl⟩
  exact ⟨.named hty, by rw [List.append_nil]; rfl⟩

theorem parameters (start : Token) :
    Relates text (r.next (.parameters start)) (Call.Records (.parameters start)) := by
  refine .records_check fun v => ?_
  split
  · exact .records_expect rfl (.ends (.skipUntil _) _) (.records_pure ⟨.nil, rfl⟩)
  · refine .records_bind (h .parameterList) fun ps => .records_isRecovering (.ends (.skipUntil _) _) ?_
    refine .records_expect rfl (.ends (.skipUntil _) _) (.records_pure ?_)
    rintro _ ⟨hps, rfl⟩
    exact ⟨hps, (List.append_nil _).symm⟩

/-! ### Names -/

theorem path (start : Token) : Relates text (r.next (.path start)) (Call.Records (.path start)) := by
  have hone : ∀ t, ∀ n ∈ [Name.ident t], n.Whole := fun _ => List.forall_mem_singleton.mpr trivial
  refine .records_ident (.pure fun _ => trivial) fun t => .records_eat rfl ?_ (.records_pure ⟨hone t, rfl⟩)
  refine .records_bind (h (.path start)) fun ns => .records_pure ?_
  rintro _ ⟨hns, rfl⟩
  exact ⟨List.forall_mem_cons.mpr ⟨trivial, hns⟩, by rw [List.append_nil]; rfl⟩

theorem variants (name : Token) : Relates text (r.next (.variants name)) (Call.Records (.variants name)) := by
  refine .records_eat rfl (.records_pure ⟨List.forall_mem_nil _, rfl⟩) (.records_ident (.ends (.skipUntil _) _) fun t => ?_)
  refine .records_eat rfl ?_ ?_
  · refine .records_bind (h (.variants name)) fun ns => .records_pure ?_
    rintro _ ⟨hns, rfl⟩
    exact ⟨List.forall_mem_cons.mpr ⟨trivial, hns⟩, by rw [List.append_nil]; rfl⟩
  · exact .records_expect rfl (.ends (.skipUntil _) _) (.records_pure ⟨List.forall_mem_singleton.mpr trivial, rfl⟩)

theorem names : Relates text (r.next .names) (Call.Records .names) := by
  have hword : ∀ {t : Token}, t.isIdent = true → t.isWord = true := by
    intro t ht
    rw [Token.isWord, eq_of_beq ht]
    rfl
  refine Relates.bump.bind fun t => (Relates.eat _).bind fun v => ?_
  cases v with
  | true =>
    refine (h .names).bind fun ns => .pure ?_
    rintro ts' _ hnames _ ⟨⟨comma, hcomma, hk⟩, rfl⟩ ts ⟨ht, rfl⟩ hmany
    rcases ts with _ | ⟨name, _ | ⟨next, rest⟩⟩
    · cases hmany
    · cases hmany
    obtain rfl := ht.eq
    obtain rfl := hcomma.eq
    have hkind := eq_of_beq hk
    simp only [declaresMany, Bool.and_eq_true, Bool.or_eq_true, Token.isSymbol, hkind] at hmany
    obtain ⟨hident, hcolon | ⟨-, hmany⟩⟩ := hmany
    · cases hcolon
    obtain ⟨⟨ws, htook, rfl⟩, hcolon⟩ := hnames hmany
    have hother : comma.isWord = false := by rw [Token.isWord, hkind]; rfl
    exact ⟨⟨t :: ns, (Took.word (b := true) (hword hident) _).trans ((Took.other (b := false) hother rest).trans htook), rfl⟩,
      hcolon⟩
  | false =>
    refine .pure ?_
    rintro ts' _ ⟨⟨colon, hcolon, hk⟩, rfl⟩ ts ⟨ht, rfl⟩ hmany
    rcases ts with _ | ⟨name, _ | ⟨next, rest⟩⟩
    · cases hmany
    · cases hmany
    obtain rfl := ht.eq
    obtain rfl := hcolon.eq
    simp only [declaresMany, Bool.and_eq_true, Bool.or_eq_true, Token.isSymbol, hk, Bool.false_eq_true, false_and, or_false]
      at hmany
    exact ⟨⟨[t], .word (hword hmany.1) _, rfl⟩, colon, rest, rfl, eq_of_beq hmany.2⟩

/-! ### Statements -/

theorem exprList (power : Nat) :
    Relates text (r.exprList power) (Recording false fun l ws => Expr.WholeAll l.items ∧ Expr.wordsAll l.items = ws) := by
  refine .records_peek fun start => .recordsAt_of (.records_bind (h (.exprs power)) fun es => .records_pure ?_)
  rintro _ ⟨hes, rfl⟩
  exact ⟨hes, (List.append_nil _).symm⟩

theorem typeList :
    Relates text r.typeList (Recording false fun l ws => TypeExpr.WholeAll l.items ∧ TypeExpr.wordsAll l.items = ws) := by
  refine .records_peek fun start => .recordsAt_of (.records_bind (h .types) fun tys => .records_pure ?_)
  rintro _ ⟨htys, rfl⟩
  exact ⟨htys, (List.append_nil _).symm⟩

theorem useDeclaration : Relates text r.useDeclaration (RecordingNext fun s ws => s.Whole ∧ s.words = ws) := by
  have hend : ∀ (start : Token) (segments : List Name) (alias? : Option Name), (∀ n ∈ alias?, n.Whole) → Relates text (do
      let _ ← expect (.symbol .semicolon)
      return Stmt.use start segments alias?) (Recording true fun s ws =>
        ∀ ws', (∀ n ∈ segments, n.Whole) ∧ segments.flatMap Name.words = ws' →
          s.Whole ∧ s.words = ws' ++ (alias?.toList.flatMap Name.words ++ ws)) := by
    intro start segments alias? halias
    refine .records_semicolon ?_
    rintro _ ⟨hsegments, rfl⟩
    exact ⟨.use start segments alias? hsegments halias, by rw [List.append_nil]; rfl⟩
  refine .recordsNext_bump (b := true) fun start => .records_bind (h (.path start)) fun segments => .records_eat rfl ?_ ?_
  · refine Relates.records_ident ?_ fun t => hend start segments (some (.ident t)) ?_
    · exact (Relates.expect _).bind fun _ => .pure fun _ _ _ => trivial
    · rintro n ⟨⟩
      trivial
  · exact hend start segments none fun _ => nofun

theorem expression : Relates text r.expression (Recording true fun s ws => s.Whole ∧ s.words = ws) := by
  refine .records_peek fun start => .recordsAt_of (.records_bind (h (.expr 0)) fun first => .records_check fun more => ?_)
  refine Relates.records_isRecovering ?_ ?_
  · rw [Bool.not_true, Bool.and_false]
    exact (Relates.expect _).bind fun _ => .pure fun _ _ _ => trivial
  · split
    · refine .records_bind (h .furtherMembers) fun es => .records_peek fun t => .recordsAt_of (.records_eat rfl ?_ ?_)
      · refine .records_bind (h.exprList _) fun values => Relates.records_semicolon ?_
        rintro _ ⟨hvalues, rfl⟩ _ ⟨hes, rfl⟩ _ ⟨hfirst, rfl⟩
        exact ⟨.swap (.cons hfirst hes) hvalues, by simp [Stmt.words, Expr.wordsAll]⟩
      · refine Relates.records_semicolon ?_
        rintro _ ⟨hes, rfl⟩ _ ⟨hfirst, rfl⟩
        exact ⟨.exprs (.cons hfirst hes), by simp [Stmt.words, Expr.wordsAll]⟩
    · refine Relates.records_semicolon ?_
      rintro _ ⟨hfirst, rfl⟩
      exact ⟨.expr hfirst, (List.append_nil _).symm⟩

theorem returnStatement : Relates text r.returnStatement (RecordingNext fun s ws => s.Whole ∧ s.words = ws) := by
  refine .recordsNext_bump (b := true) fun t => .records_check fun v => ?_
  split
  · exact .records_semicolon ⟨.return t, rfl⟩
  · refine .records_bind (h.exprList 0) fun values => .records_semicolon ?_
    rintro _ ⟨hvalues, rfl⟩
    exact ⟨.returnWith hvalues, (List.append_nil _).symm⟩

omit h in
theorem loopExit (exit : LoopExit) : Relates text (Rule.loopExit exit) (RecordingNext fun s ws => s.Whole ∧ s.words = ws) :=
  .recordsNext_bump (b := true) fun t => .records_semicolon ⟨.exit exit t, rfl⟩

theorem manyDeclaration : Relates text r.manyDeclaration fun ts s ts' =>
    declaresMany ts = true → Recording true (fun s ws => s.Whole ∧ s.words = ws) ts s ts' := by
  have htypes : ∀ (start : Token) (names : List Token), Relates text (do
      let types ← r.typeList
      let broken ← isRecovering
      if !broken && (← eat (.symbol .assign)) then
        let values ← r.exprList memberPower
        let _ ← expect (.symbol .semicolon)
        return Stmt.declareManyAs start names types values
      else
        let _ ← expect (.symbol .semicolon)
        return Stmt.declareMany start names types) (Recording true fun s ws => s.Whole ∧ s.words = names ++ ws) := by
    intro start names
    refine .records_bind h.typeList fun types => .records_isRecovering ?_ (.records_eat rfl ?_ ?_)
    · refine (Relates.eat _).bind fun v => ?_
      rw [Bool.not_true, Bool.false_and]
      exact (Relates.ends (.expect _) _).mono fun _ _ _ _ _ _ => trivial
    · refine .records_bind (h.exprList _) fun values => .records_semicolon ?_
      rintro _ ⟨hvalues, rfl⟩ _ ⟨htypes, rfl⟩
      exact ⟨.declareManyAs htypes hvalues, by simp [Stmt.words]⟩
    · refine .records_semicolon ?_
      rintro _ ⟨htypes, rfl⟩
      exact ⟨.declareMany htypes, by simp [Stmt.words]⟩
  refine Relates.peek.bind fun start => (h .names).bind fun names => Relates.bump.bind fun _ => (htypes start names).mono ?_
  rintro _ s ts' ⟨ws, htook, hs⟩ ts₂ ⟨-, rfl⟩ ts₁ hnames ts ⟨rfl, -⟩ hmany
  obtain ⟨⟨_, hnames, rfl⟩, colon, more, rfl, hcolon⟩ := hnames hmany
  have hother : colon.isWord = false := by rw [Token.isWord, hcolon]; rfl
  exact ⟨names ++ ws, hnames.trans ((Took.other (b := false) hother more).trans htook), hs⟩

/-! ### Declarations -/

theorem typedDeclaration (name : Token) :
    Relates text (r.typedDeclaration name) (Recording false fun s ws => s.Whole ∧ s.words = name :: ws) := by
  refine .records_bind (h .typeExpr) fun ty => .records_isRecovering (.pure fun _ => trivial) (.records_eat rfl ?_ ?_)
  · refine .records_peek fun t => .recordsAt_of (.records_eat rfl ?_ ?_)
    · refine .records_bind (h (.blockBody t)) fun body => .records_eat rfl (.records_pure ?_) (.records_pure ?_)
      all_goals
        rintro _ ⟨hbody, rfl⟩ _ ⟨hty, rfl⟩
        exact ⟨.define hty hbody, by rw [List.append_nil]; rfl⟩
    · refine .records_bind (h (.expr 0)) fun value => .records_weaken (b := true) (.records_semicolon ?_)
      rintro _ ⟨hvalue, rfl⟩ _ ⟨hty, rfl⟩
      exact ⟨.declareAs hty hvalue, by rw [List.append_nil]; rfl⟩
  · refine .records_weaken (b := true) (.records_semicolon ?_)
    rintro _ ⟨hty, rfl⟩
    exact ⟨.declare hty, by rw [List.append_nil]; rfl⟩

omit h in
/-- A list between braces behind an equals sign. -/
theorem braces {α : Type} {x : Rule α} {g : α → Stmt} {missing : Stmt} {P : α → Prop} {V : α → List Token} {name : Token}
    (hx : Relates text x (Recording false fun a ws => P a ∧ V a = ws)) (hwhole : ∀ a, P a → (g a).Whole)
    (hwords : ∀ a, (g a).words = name :: V a) :
    Relates text (do
      if ← openBrace then
        let a ← x
        let _ ← eat (.symbol .semicolon)
        return g a
      else return missing) (Recording false fun s ws => s.Whole ∧ s.words = name :: ws) := by
  unfold openBrace
  rw [bind_assoc]
  refine .records_expect rfl (.pure fun _ => trivial) (.records_expect rfl (.pure fun _ => trivial) ?_)
  refine .records_bind hx fun a => .records_eat rfl (.records_pure ?_) (.records_pure ?_)
  all_goals
    rintro _ ⟨ha, rfl⟩
    exact ⟨hwhole a ha, by rw [List.append_nil, hwords]⟩

theorem enumeration (name : Token) :
    Relates text (r.enumeration name) (RecordingNext fun s ws => s.Whole ∧ s.words = name :: ws) :=
  .recordsNext_bump (b := false) fun _ => braces (h (.variants name)) (.enumeration name) fun _ => rfl

theorem record (kind : RecordKind) (name : Token) :
    Relates text (r.next (.record kind name)) (Call.Records (.record kind name)) :=
  .recordsNext_bump (b := false) fun _ => braces (h (.fields name)) (fun _ => .record) fun _ => rfl

theorem declaration : Relates text (r.next .declaration) (Call.Records .declaration) := by
  refine Relates.bump.bind fun name => Relates.bump.bind fun _ => ?_
  refine .mono (P := Recording false fun s ws => s.Whole ∧ s.words = name :: ws) ?_ ?_
  · refine .records_peek fun t => ?_
    split
    next hk => exact (h (.record .struct name)).recordsAt_next hk rfl
    next hk => exact (h (.record .union name)).recordsAt_next hk rfl
    next hk => exact (h.enumeration name).recordsAt_next hk rfl
    next hk =>
      refine .recordsAt_other hk rfl (.records_bind (h .typeExpr) fun ty => ?_)
      refine .records_weaken (b := true) (.records_semicolon ?_)
      rintro _ ⟨hty, rfl⟩
      exact ⟨.external hty, by rw [List.append_nil]; rfl⟩
    · exact (h.typedDeclaration name).recordsAt_of
  · rintro _ s ts' hrecords _ ⟨-, rfl⟩ ts ⟨hname, rfl⟩ name' colon more rfl
    rwa [hname.eq] at hrecords

/-! ### Statements and items -/

theorem ifStatement : Relates text (r.next .ifStatement) (Call.Records .ifStatement) := by
  refine .recordsNext_bump (b := false) fun t => .records_bind (h (.expr 0)) fun condition => ?_
  refine .records_isRecovering (.pure fun _ => trivial) ?_
  refine .records_bind (h .statement).records_weaken fun yes => .records_eat rfl ?_ ?_
  · refine .records_bind (h .statement).records_weaken fun no => .records_pure ?_
    rintro _ ⟨hno, rfl⟩ _ ⟨hyes, rfl⟩ _ ⟨hc, rfl⟩
    exact ⟨.ifElse hc hyes hno, by simp [Stmt.words]⟩
  · refine .records_pure ?_
    rintro _ ⟨hyes, rfl⟩ _ ⟨hc, rfl⟩
    exact ⟨.ifThen hc hyes, by simp [Stmt.words]⟩

theorem whileStatement : Relates text (r.next .whileStatement) (Call.Records .whileStatement) := by
  refine .recordsNext_bump (b := false) fun t => .records_bind (h (.expr 0)) fun condition => ?_
  refine .records_isRecovering (.pure fun _ => trivial) ?_
  refine .records_bind (h .statement).records_weaken fun body => .records_pure ?_
  rintro _ ⟨hbody, rfl⟩ _ ⟨hc, rfl⟩
  exact ⟨.while hc hbody, by simp [Stmt.words]⟩

omit h in
/-- A name and a colon come up. -/
theorem recording_declaration {b : Bool} {t colon : Token} {ts ts' : List Token} {s : Stmt} (ht : t.Heads ts)
    (hident : t.kind = .ident) (hcolon : colon.Heads ts.tail) (hk : colon.isSymbol .colon = true)
    (hrecords : Call.Records .declaration ts s ts') : Recording b (fun s ws => s.Whole ∧ s.words = ws) ts s ts' := by
  have hkind : colon.kind = .symbol .colon := eq_of_beq hk
  have hts := ht.cons (by simp [hident])
  have htail := hcolon.cons (by simp [hkind])
  rw [htail] at hts
  obtain ⟨ws, htook, hs⟩ := hrecords t colon ts.tail.tail hts
  have hword : t.isWord = true := by rw [Token.isWord, hident]; rfl
  have hother : colon.isWord = false := by rw [Token.isWord, hkind]; rfl
  have hall := (Took.word (b := b) hword _).trans ((Took.other (b := false) hother _).trans htook)
  rw [← hts, Bool.or_false, Bool.or_false] at hall
  exact ⟨t :: ws, hall, hs⟩

theorem statementForm : Relates text (r.next .statementForm) (Call.Records .statementForm) := by
  refine .records_peek fun t => ?_
  split
  next hk =>
    refine .recordsAt_other hk rfl (.records_bind (h (.blockBody t)) fun body => .records_pure ?_)
    rintro _ ⟨hbody, rfl⟩
    exact ⟨.block hbody, (List.append_nil _).symm⟩
  next hk => exact .recordsAt_other hk rfl (.records_pure ⟨.block .nil, rfl⟩)
  next hk => exact h.useDeclaration.recordsAt_next hk rfl
  next hk => exact (h .ifStatement).recordsAt_next hk rfl
  next hk => exact (h .whileStatement).recordsAt_next hk rfl
  next hk => exact h.returnStatement.recordsAt_next hk rfl
  next hk => exact (loopExit _).recordsAt_next hk rfl
  next hk => exact (loopExit _).recordsAt_next hk rfl
  next hk =>
    refine Relates.peekSecond.bind fun colon => ?_
    split
    next hcolon =>
      refine (h .declaration).mono ?_
      rintro _ s ts' hrecords ts ⟨rfl, hsecond⟩ - ht
      exact recording_declaration ht hk hsecond hcolon hrecords
    next =>
      refine Relates.get.bind fun state => ?_
      split
      next hmany =>
        refine h.manyDeclaration.mono ?_
        rintro _ s ts' hrecords _ ⟨rfl, rfl⟩ ts ⟨rfl, -⟩ - -
        exact hrecords hmany
      next =>
        refine h.expression.mono ?_
        rintro _ s ts' hrecords _ ⟨rfl, -⟩ ts ⟨rfl, -⟩ - -
        exact hrecords
  · exact h.expression.recordsAt_of

omit h in
theorem orSkip {b : Bool} {x : Rule Stmt} {W : Stmt → List Token → Prop} (hx : Relates text x (Recording b W)) :
    Relates text (do
      let s ← x
      if ← isRecovering then skipStatement
      return s) (Recording b W) := by
  refine hx.bind fun s => Relates.isRecovering.bind fun v => (Relates.skipIf v).mono ?_
  rintro _ s' ts' hs _ ⟨rfl, rfl⟩ ts hrecords
  obtain ⟨rfl, rfl⟩ := hs rfl
  exact hrecords

omit h in
/-- A rule that takes something is not helped on. -/
theorem advancing {α : Type} {x : Rule α} {W : α → List Token → Prop} (hx : Relates text x (Recording true W)) :
    Relates text (Rule.advancing x) (Recording true W) := by
  refine hx.advancing (fun _ _ _ hrecords _ => hrecords) fun ts a ts' hrecords hlength => ?_
  obtain ⟨ws, htook, -⟩ := hrecords
  exact absurd hlength (Nat.ne_of_lt htook.shorter)

theorem blockBody (start : Token) : Relates text (r.next (.blockBody start)) (Call.Records (.blockBody start)) := by
  refine .records_peek fun t => ?_
  split
  next hk => exact .recordsAt_other hk rfl (.records_pure ⟨.nil, rfl⟩)
  · exact .fails (.report rfl) _
  · refine .recordsAt_of (.records_bind (advancing (h .statement)).records_weaken fun s => ?_)
    refine .records_bind (h (.blockBody start)) fun rest => .records_pure ?_
    rintro _ ⟨hrest, rfl⟩ _ ⟨hs, rfl⟩
    exact ⟨.cons hs hrest, by rw [List.append_nil]; rfl⟩

theorem furtherFields (name t : Token) : Relates text (r.furtherFields name t)
    (RecordingAt t false fun ss ws => Stmt.WholeAll ss ∧ Stmt.wordsAll ss = ws) := by
  refine Relates.peekSecond.bind fun colon => ?_
  split
  next hcolon =>
    obtain ⟨hident, hcolon⟩ := Bool.and_eq_true_iff.mp hcolon
    have hident : t.kind = .ident := eq_of_beq hident
    refine (h .declaration).bind fun field => Relates.isRecovering.bind fun v => ?_
    cases v with
    | true => exact Relates.skipStatement.bind fun _ => (h (.fields name)).bind fun _ => .pure fun _ _ _ _ _ _ hv => nomatch hv.2
    | false =>
      refine (h (.fields name)).bind fun rest => .pure ?_
      rintro ts' _ ⟨_, hrest, hwhole, rfl⟩ _ ⟨rfl, -⟩ _ hrecords ts ⟨rfl, hsecond⟩ - ht
      obtain ⟨_, htook, hfield, rfl⟩ := recording_declaration (b := false) ht hident hsecond hcolon hrecords
      exact ⟨_, htook.trans hrest, .cons hfield hwhole, rfl⟩
  next =>
    refine .of_false ((Relates.unexpected _).bind fun _ => Relates.bind (P := fun _ _ _ => True) ?_ fun _ =>
      (h (.fields name)).bind fun _ => .pure fun _ _ _ _ _ _ hfalse => hfalse)
    exact Relates.skipStatement.advancing (fun _ _ _ _ _ => trivial) fun _ _ _ _ _ => trivial

theorem fields (name : Token) : Relates text (r.next (.fields name)) (Call.Records (.fields name)) := by
  refine .records_peek fun t => ?_
  split
  next hk => exact .recordsAt_other hk rfl (.records_pure ⟨.nil, rfl⟩)
  · exact .fails (.report rfl) _
  · exact h.furtherFields name t

theorem item : Relates text r.item (Recording true fun s ws => s.Whole ∧ s.words = ws) := by
  refine .records_peek fun t => ?_
  split
  next hk => exact h.useDeclaration.recordsAt_next hk rfl
  next hk =>
    refine Relates.peekSecond.bind fun next => ?_
    split
    next hcolon =>
      refine (h .declaration).mono ?_
      rintro _ s ts' hrecords ts ⟨rfl, hsecond⟩ - ht
      exact recording_declaration ht hk hsecond hcolon hrecords
    split
    · refine Relates.get.bind fun state => ?_
      split
      next hmany =>
        refine h.manyDeclaration.mono ?_
        rintro _ s ts' hrecords _ ⟨rfl, rfl⟩ ts ⟨rfl, -⟩ - -
        exact hrecords hmany
      next =>
        refine h.expression.bind fun s => ?_
        split
        · refine .pure ?_
          rintro ts' ts hrecords _ ⟨rfl, -⟩ _ ⟨rfl, -⟩ - -
          exact hrecords
        · exact .fails (.report rfl) _
    · exact .missingDeclaration
  · exact .missingDeclaration

theorem items : Relates text (r.next .items) (Call.Records .items) := by
  refine Relates.left.bind fun n => ?_
  split
  · refine .pure ?_
    rintro ts' ts ⟨rfl, -⟩
    exact ⟨[], .refl _, .nil, rfl⟩
  · have hmore : Relates text (do
        let s ← Rule.advancing r.itemOrSkip
        let rest ← r .items
        return s :: rest) (Recording false fun ss ws => Stmt.WholeAll ss ∧ Stmt.wordsAll ss = ws) := by
      refine .records_bind (advancing (orSkip h.item)).records_weaken fun s => ?_
      refine .records_bind (h .items) fun rest => .records_pure ?_
      rintro _ ⟨hrest, rfl⟩ _ ⟨hs, rfl⟩
      exact ⟨.cons hs hrest, by rw [List.append_nil]; rfl⟩
    refine hmore.mono ?_
    rintro _ ss ts' hrecords ts ⟨rfl, -⟩
    exact hrecords

theorem next : r.next.Record text := by
  intro α c
  cases c with
  | expr power => exact h.expr power
  | operators power left => exact h.operators power left
  | operand => exact h.operand
  | arguments start close => exact h.arguments start close
  | indices start => exact h.indices start
  | members start close => exact h.members start close
  | typeExpr => exact h.typeExpr
  | parameters start => exact h.parameters start
  | parameterList => exact list (h .parameter) (h .parameterList) ⟨.nil, rfl⟩ fun _ _ => ⟨.cons, rfl⟩
  | parameter => exact h.parameter
  | types => exact list (h .typeExpr) (h .types) ⟨.nil, rfl⟩ fun _ _ => ⟨.cons, rfl⟩
  | exprs power => exact list (h (.expr power)) (h (.exprs power)) ⟨.nil, rfl⟩ fun _ _ => ⟨.cons, rfl⟩
  | path start => exact h.path start
  | names => exact h.names
  | variants name => exact h.variants name
  | furtherMembers => exact h.furtherMembers
  | statement => exact orSkip (h .statementForm)
  | statementForm => exact h.statementForm
  | ifStatement => exact h.ifStatement
  | whileStatement => exact h.whileStatement
  | blockBody start => exact h.blockBody start
  | declaration => exact h.declaration
  | record kind name => exact h.record kind name
  | fields name => exact h.fields name
  | items => exact h.items

end Rules.Record

/-! ## Whole texts -/

namespace Rules

variable {text : List Token}

/-- Rules that report an error. Beyond the depth of a text any would do; these relate whatever is asked for. -/
def refusing : Rules where
  call c s := ((exhausted c s).1, (unexpected .expression s).2)

/-- What one step of the rules keeps, the rules keep. -/
theorem relates_whole {Q : ∀ {α : Type}, Call α → List Token → α → List Token → Prop}
    (step : ∀ r : Rules, r.Record text → (∀ {α : Type} (c : Call α), Relates text (r c) (Q c)) →
      ∀ {α : Type} (c : Call α), Relates text (r.next c) (Q c)) {α : Type} (c : Call α) : Relates text (whole c) (Q c) := by
  have hrefuse : ∀ {β : Type} (c : Call β), Relates text (refusing c) fun _ _ _ => False := fun _ =>
    ⟨(Relates.unexpected _).inv, (Relates.unexpected _).clean⟩
  have hdepth : ∀ n, (ofDepth refusing n).Record text ∧
      ∀ {β : Type} (c : Call β), Relates text (ofDepth refusing n c) (Q c) := by
    intro n
    induction n with
    | zero => exact ⟨fun c => .of_false (hrefuse c), fun c => .of_false (hrefuse c)⟩
    | succ n ih => exact ⟨Record.next ih.1, step _ ih.1 ih.2⟩
  constructor
  · intro s hs
    rw [← whole_eq refusing c s hs.stop (Nat.le_refl _)]
    exact ((hdepth _).2 c).inv s hs
  · intro s hs
    rw [← whole_eq refusing c s hs.stop (Nat.le_refl _)]
    exact ((hdepth _).2 c).clean s hs

theorem whole_records {α : Type} (c : Call α) : Relates text (whole c) c.Records :=
  relates_whole (fun _ _ h _ c => Record.next h c) c

end Rules

/-- What the loop over the items relates holds of a text without errors. -/
theorem Relates.of_parse {source : String} {Q : List Token → List Stmt → List Token → Prop}
    (hx : Relates (scan source).tokens (Rules.whole .items) Q) (h : (parse source).errors = []) :
    Q (scan source).tokens (parse source).roots [] := by
  have hsound := ParseState.sound_start source
  have hparse : parse source = _ := Rules.parse_eq hsound.stop
  have hrest : (Rules.whole .items (.start (scan source))).2.rest = [] :=
    (Rules.whole_keeps Span.steady_id .items (.start (scan source)) hsound.stop).2.2
  rw [hparse] at h ⊢
  have hq := (hx.clean _ hsound h).2
  rw [hrest] at hq
  exact hq
/-- A text without errors is read as whole trees. -/
theorem whole_of_parse {source : String} (h : (parse source).errors = []) : Stmt.WholeAll (parse source).roots := by
  obtain ⟨ws, -, hwhole, -⟩ := Relates.of_parse (Rules.whole_records .items) h
  exact hwhole

/-- **Every lexical error is reported once.** Whatever else is wrong with a text and however much of it is skipped, the
lexical errors among its reports are those of its tokens, in their order and at their places. -/
theorem lexical_errors_complete (source : String) :
    (parse source).errors.filterMap ParseError.lexical? = (scan source).tokens.filterMap Token.lexError? := by
  have hsound := ParseState.sound_start source
  have hparse : parse source = _ := Rules.parse_eq hsound.stop
  have hend : (Rules.whole .items (.start (scan source))).2.Sound (scan source).tokens :=
    (Rules.whole_records .items).inv _ hsound
  have hrest : (Rules.whole .items (.start (scan source))).2.rest = [] :=
    (Rules.whole_keeps Span.steady_id .items (.start (scan source)) hsound.stop).2.2
  rw [hparse, ← hend.lexical, hrest, List.filterMap_nil, List.append_nil]
/-- The words of a text without errors are those of its trees, in their order. -/
theorem words_parse {source : String} (h : (parse source).errors = []) :
    Stmt.wordsAll (parse source).roots = (scan source).tokens.filter Token.isWord := by
  obtain ⟨ws, ⟨us, hus, hws, -⟩, -, hwords⟩ := Relates.of_parse (Rules.whole_records .items) h
  rw [List.append_nil] at hus
  rw [hwords, ← hws, hus]

/-- **No word is lost, and none is read twice.** If a text has no errors, the tokens of those nodes that are made for a word
are, in the order of the text, its names, literals and primitive types, which stand one behind the other. -/
theorem words_recorded_once {source : String} (h : (parse source).errors = []) :
    inTextOrder (Outline.rowWords (parse source).rows) = (scan source).tokens.filter Token.isWord ∧
      ((scan source).tokens.filter Token.isWord).Pairwise fun t t' => t.span.start.offset < t'.span.start.offset := by
  have hstarts := (starts_scan source).filter Token.isWord
  have hperm := (parse source).rowWords_rows
  rw [words_parse h] at hperm
  exact ⟨inTextOrder_eq hperm hstarts, hstarts⟩

/-- A text with words in many places: a path and its alias, a length, a comma at the end of a list, names that are
declared together. -/
def wordySource : String :=
  "use a.b as c; E : enum = \x7b p, q, \x7d; f : (x : [2]u64) -> u64, bool = \x7b y, z : u64, bool = 1, true; return y, z; \x7d"

theorem words_recorded_once_wordy :
    (parse wordySource).errors = [] ∧ ((scan wordySource).tokens.filter Token.isWord).length = 20 ∧
      inTextOrder (Outline.rowWords (parse wordySource).rows) = (scan wordySource).tokens.filter Token.isWord ∧
      ((scan wordySource).tokens.filter Token.isWord).Pairwise fun t t' => t.span.start.offset < t'.span.start.offset := by
  have h : (parse wordySource).errors = [] := by decide +kernel
  exact ⟨h, by decide +kernel, words_recorded_once h⟩

end Wordstack
