/-
A broken statement does no harm to the statements around it. In a block, whatever tokens stand
where a statement should be, reading goes on behind the next semicolon as if
nothing had happened: the statements before are the same, those behind are
those of a block on their own, and one error at most is reported for what is between.
-/
import Wordstack.Proofs.Statements
import Wordstack.Proofs.Printing

namespace Wordstack

open Rule

variable {as : List Stmt} {g ts : List Token} {s : ParseState} {stop : Token}

/-! ## Statements that are settled -/

namespace Settled

variable {α : Type} {w : Bool} {stop t : Token} {ts : List Token} {x : Rule α}

/-- A statement without errors is read so wherever nothing follows with which it could go on. -/
theorem clean (hx : Settled w stop ts x) {a : α} (htext : Text ts stop) (e : List ParseError)
    (hs : x ⟨ts, stop, e, false⟩ = (a, s)) (herrors : s.errors = e) :
    ∃ q, ts = q ++ s.rest ∧ q ≠ [] ∧ s = ⟨s.rest, stop, e, false⟩ ∧
      ∀ us stop' e', Text us stop' → (us.headD stop' = s.rest.headD stop ∨ (us.headD stop').kind.continues w = false) →
        x ⟨q ++ us, stop', e', false⟩ = (a, ⟨us, stop', e', false⟩) := by
  obtain ⟨a', o, hts, hallows, hrun, hform, hrec⟩ := hx htext
  have hthere := hrun o.left stop e (hts ▸ htext).right hallows
  rw [← hts] at hthere
  obtain ⟨rfl, rfl⟩ := Prod.mk.inj (hs.symm.trans hthere)
  have hnil : o.errors = [] := by simpa using herrors
  refine ⟨o.taken, hts, fun h => hform.not_endless hnil (h ▸ .nil), ?_, fun us stop' e' hus hnext => ?_⟩
  · rw [hrec, hnil, List.append_nil]
  · rw [hrun us stop' e' hus ?_, hrec, hnil, List.append_nil]
    rcases hnext with hhead | hcontinues
    · exact hform.lookahead us stop' hhead
    · exact hform.clean rfl hnil hrec us stop' hcontinues

/-- A statement that is settled goes on up to the first semicolon at least. -/
theorem taken_eq {o : Outcome} (hform : o.Form w stop false) (hrec : o.recovering = false)
    (hts : g ++ [t] = o.taken ++ o.left) (hg : Endless g) (ht : t.kind = .symbol .semicolon) : o.taken = g ++ [t] := by
  have hends := TokenKind.ends_semicolon ht
  rcases Endless.or_end o.taken with hendless | ⟨g', u, q, htaken, hg', hu⟩
  · obtain ⟨g', rfl, hleft⟩ := hendless.before_end hends hts.symm
    rcases (hform.endless hendless).2 with hrec' | hcloses
    · exact absurd (hrec.symm.trans hrec') (by decide)
    · rw [hleft] at hcloses
      cases g' with
      | nil => simp [ht, TokenKind.closes] at hcloses
      | cons u g' =>
        have hu : u.kind.ends = true := TokenKind.ends_of_closes hcloses
        exact absurd (hu.symm.trans hg.right.head) (by decide)
  · rw [htaken, List.append_assoc, List.cons_append] at hts
    obtain ⟨rfl, rfl, hq⟩ := hg'.end_inj hg hu hends hts.symm
    rw [htaken, (List.append_eq_nil_iff.mp hq).1]

/-- Tokens with no end in them and a semicolon are one statement, and at most one error is reported. -/
theorem broken (hx : Settled w stop (g ++ [t]) x) (hg : Endless g) (hlexical : lexicalErrors g = [])
    (ht : t.kind = .symbol .semicolon) (htext : Text (g ++ [t]) stop) :
    ∃ a errors, errors.length ≤ 1 ∧ ∀ us stop' e, Text us stop' → (w = true → (us.headD stop').kind ≠ .keyword .elseWord) →
      x ⟨g ++ t :: us, stop', e, false⟩ = (a, ⟨us, stop', e ++ errors, false⟩) := by
  obtain ⟨a, o, hts, -, hrun, hform, hrec⟩ := hx htext
  have htaken := taken_eq hform hrec hts hg ht
  rcases (hform.first g t [] htaken hg ht).2 with ⟨_, _, _, h, -⟩ | ⟨-, hcount, hall⟩
  · cases h
  · refine ⟨a, o.errors, ?_, fun us stop' e hus hnext => ?_⟩
    · have hsymbol : lexicalErrors [t] = [] := by simp [lexicalErrors, ht]
      rw [htaken, lexicalErrors_append, hlexical, hsymbol] at hcount
      simpa using hcount
    · have hrun := hrun us stop' e hus (hall us stop' hnext)
      rw [htaken, List.append_assoc, hrec] at hrun
      exact hrun

end Settled

theorem Endless.text {g : List Token} {t stop : Token} (hg : Endless g) (ht : t.kind ≠ .eof) (hstop : stop.kind = .eof) :
    Text (g ++ [t]) stop := by
  refine .append (fun u hu heof => ?_) ⟨List.forall_mem_singleton.mpr ht, hstop⟩
  have := hg u hu
  simp [heof, TokenKind.ends] at this

namespace Rules

variable {α : Type} {stop t : Token} {b : Bool} {ts : List Token}

/-! ## What comes of a rule at any depth -/

/-- What is so at any depth is so for the rules as they are. -/
theorem whole_local {c : Call α} {Q : α → Outcome → Prop} (h : ∀ n, Local stop b ts (ofDepth givingUp n c) Q)
    (htext : Text ts stop) : ∃ (a : α) (o : Outcome), ts = o.taken ++ o.left ∧ Q a o ∧
      (∀ e, whole c ⟨ts, stop, e, b⟩ = (a, ⟨o.left, stop, e ++ o.errors, o.recovering⟩)) ∧
      ∀ us stop' e, Text us stop' → (∀ allows, Q a { o with allows := allows } → allows us stop') →
        whole c ⟨o.taken ++ us, stop', e, b⟩ = (a, ⟨us, stop', e ++ o.errors, o.recovering⟩) := by
  have hwhole : ∀ n, c.steps ⟨ts, stop, [], b⟩ ≤ n → ∀ {a : α} {o : Outcome},
      ts = o.taken ++ o.left → o.allows o.left stop →
      (∀ us stop' e, Text us stop' → o.allows us stop' →
        ofDepth givingUp n c ⟨o.taken ++ us, stop', e, b⟩ = (a, ⟨us, stop', e ++ o.errors, o.recovering⟩)) →
      ∀ e, whole c ⟨ts, stop, e, b⟩ = (a, ⟨o.left, stop, e ++ o.errors, o.recovering⟩) := by
    intro n hn a o hts hallows hrun e
    rw [← whole_eq givingUp c ⟨ts, stop, e, b⟩ htext.stop hn]
    have hrun := hrun o.left stop e (hts ▸ htext).right hallows
    rwa [← hts] at hrun
  obtain ⟨a, o, hts, hallows, hrun, hq⟩ := h (c.steps ⟨ts, stop, [], b⟩) htext
  have hthere := hwhole _ (Nat.le_refl _) hts hallows hrun
  refine ⟨a, o, hts, hq, hthere, fun us stop' e hus hall => ?_⟩
  -- deep enough for both texts, the outcome is the same one
  obtain ⟨a', o', hts', hallows', hrun', hq'⟩ := h (c.steps ⟨ts, stop, [], b⟩ + c.steps ⟨o.taken ++ us, stop', e, b⟩) htext
  have hthere' := hwhole _ (Nat.le_add_right _ _) hts' hallows' hrun'
  obtain ⟨q', left', errors', recovering', allows'⟩ := o'
  obtain ⟨rfl, hstate⟩ := Prod.mk.inj ((hthere []).symm.trans (hthere' []))
  obtain ⟨rfl, -, herrors, rfl⟩ := ParseState.mk.inj hstate
  obtain rfl : o.errors = errors' := herrors
  obtain rfl : o.taken = q' := List.append_cancel_right (hts.symm.trans hts')
  rw [← whole_eq givingUp c _ hus.stop (Nat.le_add_left _ _)]
  exact hrun' us stop' e hus (hall allows' hq')

/-- What is said of outcomes that differ in the texts they allow is said of the one that allows what all of them do. -/
structure Shared (stop : Token) (Q : Outcome → Prop) : Prop where
  left (o : Outcome) (h : Q o) : o.allows o.left stop
  meet (o : Outcome) (h : Q o) :
    Q { o with allows := fun us stop' => ∀ allows, Q { o with allows := allows } → allows us stop' }

theorem shared_inner : Shared stop (Outcome.Inner stop b) where
  left _ h := h.next _ _ rfl
  meet _ h := ⟨h.endless, h.count, fun us stop' hus _ h' => h'.next us stop' hus⟩

theorem shared_form {w : Bool} : Shared stop (Outcome.Form w stop b) where
  left _ h := h.lookahead _ _ rfl
  meet o h := by
    refine ⟨h.balanced, fun us stop' hus _ h' => h'.lookahead us stop' hus, h.reported,
      fun hb hnil hrec us stop' hus _ h' => h'.clean hb hnil hrec us stop' hus, h.endless, fun g s q htaken hg hs => ?_⟩
    obtain ⟨hrec, helse | ⟨rfl, hcount, -⟩⟩ := h.first g s q htaken hg hs
    · exact ⟨hrec, .inl helse⟩
    · refine ⟨hrec, .inr ⟨rfl, hcount, fun us stop' hus allows h' => ?_⟩⟩
      rcases (h'.first g s [] htaken hg hs).2 with ⟨_, _, -, h, -⟩ | ⟨-, -, hall⟩
      · cases h
      · exact hall us stop' hus

theorem Shared.and {Q : Outcome → Prop} {P : Outcome → Prop} (h : Shared stop Q)
    (hP : ∀ o allows, P o → P { o with allows := allows }) : Shared stop fun o => Q o ∧ P o where
  left o ho := h.left o ho.1
  meet o ho := by
    have hiff : ∀ allows, (Q { o with allows := allows } ∧ P { o with allows := allows }) ↔ Q { o with allows := allows } :=
      fun allows => and_iff_left (hP o allows ho.2)
    simp only [hiff]
    exact h.meet o ho.1

theorem local_whole {c : Call α} {Q : Outcome → Prop} (hQ : Shared stop Q)
    (h : ∀ n, Local stop b ts (ofDepth givingUp n c) fun _ o => Q o) : Local stop b ts (whole c) fun _ o => Q o := by
  intro htext
  obtain ⟨a, o, hts, hq, -, hother⟩ := whole_local h htext
  have hmeet := hQ.meet o hq
  exact ⟨a, { o with allows := fun us stop' => ∀ allows, Q { o with allows := allows } → allows us stop' }, hts,
    hQ.left _ hmeet, fun us stop' e hus hall => hother us stop' e hus hall, hmeet⟩

/-- The rules as they are keep to the inside of statements. -/
theorem whole_inner : whole.Inner where
  inside c hc := local_whole shared_inner fun n => (stated_ofDepth n).inner.inside c hc
  names hmany := local_whole (shared_inner.and fun _ _ h => h) fun n => (stated_ofDepth n).inner.names hmany

theorem settled_statement : Settled true stop ts (whole .statement) :=
  local_whole (shared_form.and fun _ _ h => h) fun n => (stated_ofDepth n).statement

theorem formed_declaration_whole (h : declaresOne ts = true) : Formed false stop false ts (whole .declaration) :=
  local_whole shared_form fun n => (stated_ofDepth n).declaration h

/-! ## Blocks -/

theorem peek_bind {f : Token → Rule α} : (peek >>= f) s = f (s.rest.headD s.stop) s := rfl

theorem lexicalErrors_symbol {k : Symbol} (ht : t.kind = .symbol k) : lexicalErrors [t] = [] := by
  simp [lexicalErrors, ht]

theorem whole_blockBody_close (start : Token) (hstop : stop.kind = .eof) (ht : t.kind = .symbol .curlyClose)
    (e : List ParseError) : whole (.blockBody start) ⟨t :: ts, stop, e, b⟩ = ([], ⟨ts, stop, e, b⟩) := by
  rw [whole_next _ hstop]
  simp only [next]
  rw [peek_bind]
  simp only [List.headD_cons, ht]
  show ([], ParseState.mk ts stop (e ++ lexicalErrors [t]) b) = _
  rw [lexicalErrors_symbol ht, List.append_nil]

theorem whole_blockBody_nil (start : Token) (hstop : stop.kind = .eof) (e : List ParseError) :
    whole (.blockBody start) ⟨[], stop, e, false⟩ =
      ([.missing stop], ⟨[], stop, e ++ [.unclosedBrace start.span], true⟩) := by
  rw [whole_next _ hstop]
  simp only [next]
  rw [peek_bind]
  simp only [List.headD_nil, hstop]
  rfl

theorem run_cons {α : Type} {x : Rule α} {y : Rule (List α)} {a : α} {s' : ParseState} (hx : x s = (a, s')) :
    (do let a ← x; let as ← y; return a :: as : Rule (List α)) s = (a :: (y s').1, (y s').2) := by
  show ((x s).1 :: (y (x s).2).1, (y (x s).2).2) = _
  rw [hx]

/-- A statement that takes something, and those behind it. -/
theorem whole_blockBody_cons (start : Token) {a : Stmt} {s' : ParseState} (hstop : s.stop.kind = .eof)
    (hcloses : (s.rest.headD s.stop).kind.closes = false) (hs : whole .statement s = (a, s'))
    (hlength : s'.rest.length ≠ s.rest.length) :
    whole (.blockBody start) s = (a :: (whole (.blockBody start) s').1, (whole (.blockBody start) s').2) := by
  have hmore : (do
      let a ← advancing (whole .statement)
      let as ← whole (.blockBody start)
      return a :: as : Rule (List Stmt)) s = (a :: (whole (.blockBody start) s').1, (whole (.blockBody start) s').2) :=
    run_cons (advancing_eq hs hlength)
  rw [whole_next _ hstop]
  simp only [next]
  rw [peek_bind]
  cases hk : (s.rest.headD s.stop).kind with
  | eof =>
    rw [hk] at hcloses
    cases hcloses
  | symbol k =>
    cases k
    case curlyClose =>
      rw [hk] at hcloses
      cases hcloses
    all_goals exact hmore
  | _ => exact hmore

/-! ## Statements in a block -/

/-- Tokens with no end in them and a semicolon are one statement, and at most one error is reported. -/
theorem whole_statement_broken (hg : Endless g) (hlexical : lexicalErrors g = [])
    (ht : t.kind = .symbol .semicolon) (hstop : stop.kind = .eof) :
    ∃ a errors, errors.length ≤ 1 ∧ ∀ us stop' e, Text us stop' → (us.headD stop').kind ≠ .keyword .elseWord →
      whole .statement ⟨g ++ t :: us, stop', e, false⟩ = (a, ⟨us, stop', e ++ errors, false⟩) := by
  have htext : Text (g ++ [t]) stop := hg.text (by simp [ht]) hstop
  obtain ⟨a, errors, hcount, hrun⟩ := settled_statement.broken hg hlexical ht htext
  exact ⟨a, errors, hcount, fun us stop' e hus hnext => hrun us stop' e hus fun _ => hnext⟩

/-- What is left in front of the end, of which something is left. -/
theorem append_of_concat {q left : List Token} (h : ts ++ [t] = q ++ left) (hne : left ≠ []) :
    ∃ ts', left = ts' ++ [t] ∧ ts = q ++ ts' := by
  obtain ⟨ts', c, rfl⟩ := (List.eq_nil_or_concat left).resolve_left hne
  rw [List.concat_eq_append, ← List.append_assoc] at h
  obtain ⟨hts, hc⟩ := List.append_inj' h rfl
  obtain rfl : t = c := by simpa using hc
  exact ⟨ts', List.concat_eq_append, hts⟩

/-- Where a block is not over a statement takes something. -/
theorem whole_statement_takes (htext : Text ts stop) (hcloses : (ts.headD stop).kind.closes = false) :
    ∃ a q left errors, ts = q ++ left ∧ q ≠ [] ∧
      ∀ e, whole .statement ⟨ts, stop, e, false⟩ = (a, ⟨left, stop, e ++ errors, false⟩) := by
  obtain ⟨a, o, hts, ⟨hform, hrec⟩, hthere, -⟩ := whole_local (fun n => (stated_ofDepth n).statement) htext
  refine ⟨a, o.taken, o.left, o.errors, hts, fun hnil => ?_, hrec ▸ hthere⟩
  rcases (hform.endless (hnil ▸ .nil)).2 with hrec' | hclosed
  · exact absurd (hrec.symm.trans hrec') (by decide)
  · rw [hnil, List.nil_append] at hts
    rw [← hts] at hclosed
    exact absurd (hclosed.symm.trans hcloses) (by decide)

/-- Errors stay. -/
theorem whole_blockBody_errors (start : Token) (htext : Text ts stop) (e : List ParseError) :
    ∃ errors, (whole (.blockBody start) ⟨ts, stop, e, false⟩).2.errors = e ++ errors := by
  obtain ⟨as, o, -, -, hthere, -⟩ := whole_local (fun n => (stated_ofDepth n).blockBody start) htext
  exact ⟨o.errors, by rw [hthere e]⟩

/-- A block without errors is empty or begins with a statement without errors. -/
theorem whole_blockBody_cases {start close : Token} {e : List ParseError} (htext : Text (ts ++ [close]) stop)
    (h : whole (.blockBody start) ⟨ts ++ [close], stop, e, false⟩ = (as, ⟨[], stop, e, b⟩)) :
    ts = [] ∨ ∃ a as' q ts', as = a :: as' ∧ ts = q ++ ts' ∧ q ≠ [] ∧ (ts.headD stop).kind.closes = false ∧
      whole (.blockBody start) ⟨ts' ++ [close], stop, e, false⟩ = (as', ⟨[], stop, e, b⟩) ∧ ∀ us stop' e', Text us stop' →
        (us.headD stop' = (ts' ++ [close]).headD stop ∨ (us.headD stop').kind.continues true = false) →
        whole .statement ⟨q ++ us, stop', e', false⟩ = (a, ⟨us, stop', e', false⟩) := by
  cases ts with
  | nil => exact .inl rfl
  | cons t ts =>
    have hcloses : t.kind.closes = false := by
      refine TokenKind.not_closes (fun ht => ?_) (htext.tokens t (by simp))
      rw [List.cons_append, whole_blockBody_close start htext.stop ht] at h
      exact absurd (congrArg (·.2.rest) h) (by simp)
    obtain ⟨a, q, left, errors, hts, hq, hstatement⟩ := whole_statement_takes htext hcloses
    have hleft : Text left stop := (hts ▸ htext).right
    have hlength : left.length ≠ (t :: ts ++ [close]).length := by
      have := List.length_pos_iff.mpr hq
      rw [hts, List.length_append]
      omega
    rw [whole_blockBody_cons (s := ⟨t :: ts ++ [close], stop, e, false⟩) start htext.stop hcloses (hstatement e)
      hlength] at h
    obtain ⟨rfl, hs⟩ := Prod.mk.inj h
    obtain ⟨errors', herrors⟩ := whole_blockBody_errors start hleft (e ++ errors)
    obtain rfl : errors = [] := by
      rw [hs, List.append_assoc] at herrors
      exact (List.append_eq_nil_iff.mp (List.self_eq_append_right.mp herrors)).1
    rw [List.append_nil] at hs
    have hne : left ≠ [] := by
      rintro rfl
      rw [whole_blockBody_nil start htext.stop] at hs
      simp at hs
    obtain ⟨q', hq', -, -, hother⟩ := settled_statement.clean htext e (hstatement e) (List.append_nil e)
    obtain rfl : q = q' := List.append_cancel_right (hts.symm.trans hq')
    obtain ⟨ts', rfl, hts'⟩ := append_of_concat hts hne
    refine .inr ⟨a, _, q, ts', rfl, hts', hq, hcloses, ?_, hother⟩
    rw [List.append_nil]
    exact Prod.ext rfl hs

/-- A block without errors is read as the first part of a longer one. -/
theorem whole_blockBody_append {start₀ close stop₀ : Token} {e₀ : List ParseError} {b₀ : Bool}
    (hclose : close.kind = .symbol .curlyClose) (htext : Text (ts ++ [close]) stop₀)
    (h : whole (.blockBody start₀) ⟨ts ++ [close], stop₀, e₀, false⟩ = (as, ⟨[], stop₀, e₀, b₀⟩))
    (start : Token) {us : List Token} (hus : Text us stop) (hnext : (us.headD stop).kind.continues true = false)
    (e : List ParseError) : whole (.blockBody start) ⟨ts ++ us, stop, e, false⟩ =
      (as ++ (whole (.blockBody start) ⟨us, stop, e, false⟩).1, (whole (.blockBody start) ⟨us, stop, e, false⟩).2) := by
  induction as generalizing ts with
  | nil =>
    rcases whole_blockBody_cases htext h with rfl | ⟨_, _, _, _, has, -⟩
    · rfl
    · cases has
  | cons a as ih =>
    rcases whole_blockBody_cases htext h with rfl | ⟨a', as', q, ts', has, rfl, hq, hcloses, hrest, hstatement⟩
    · rw [List.nil_append, whole_blockBody_close start₀ htext.stop hclose] at h
      cases h
    · obtain ⟨rfl, rfl⟩ := List.cons.inj has
      have htext' : Text (ts' ++ [close]) stop₀ := (List.append_assoc q ts' [close] ▸ htext).right
      have hus' : Text (ts' ++ us) stop := .append (fun t ht => htext'.tokens t (List.mem_append_left _ ht)) hus
      -- behind the last statement comes `us`, behind any other the next statement
      have hfollows : (ts' ++ us).headD stop = (ts' ++ [close]).headD stop₀ ∨
          ((ts' ++ us).headD stop).kind.continues true = false := by
        by_cases hnil : ts' = []
        · exact .inr (by rw [hnil]; exact hnext)
        · exact .inl (headD_append_of_ne_nil hnil)
      have hlength : (ts' ++ us).length ≠ (q ++ (ts' ++ us)).length := by
        have := List.length_pos_iff.mpr hq
        simp only [List.length_append]
        omega
      have hhead : ((q ++ (ts' ++ us)).headD stop).kind.closes = false := by
        have hsame : (q ++ (ts' ++ us)).headD stop = (q ++ ts').headD stop₀ := headD_append_of_ne_nil hq
        rw [hsame]
        exact hcloses
      rw [List.append_assoc, whole_blockBody_cons (s := ⟨q ++ (ts' ++ us), stop, e, false⟩) start hus.stop hhead
        (hstatement (ts' ++ us) stop e hus' hfollows) hlength, ih htext' hrest]
      rfl

end Rules

/-! ## Braces in pairs -/

/-- How many braces are open behind the tokens, of which `d` are open in front of them; none if one is closed that is
not open. -/
def openBraces : Nat → List Token → Option Nat
  | d, [] => some d
  | d, t :: ts =>
    if t.kind = .symbol .curlyOpen then openBraces (d + 1) ts
    else if t.kind = .symbol .curlyClose then if d = 0 then none else openBraces (d - 1) ts
    else openBraces d ts

/-- The braces come in pairs. -/
def Paired (ts : List Token) : Prop := openBraces 0 ts = some 0

instance (ts : List Token) : Decidable (Paired ts) := inferInstanceAs (Decidable (_ = _))

theorem unopened_openBraces {d d' : Nat} (h : openBraces d ts = some d') (us : List Token) :
    unopened (ts ++ us) - d = unopened us - d' := by
  induction ts generalizing d with
  | nil =>
    obtain rfl : d = d' := Option.some.inj h
    rfl
  | cons t ts ih =>
    rw [openBraces] at h
    simp only [List.cons_append, unopened]
    split at h
    next hopen =>
      have := ih h
      rw [if_pos hopen]
      omega
    next hopen =>
      rw [if_neg hopen]
      split at h
      next hclose =>
        rw [if_pos hclose]
        split at h
        next => cases h
        next hd =>
          have := ih h
          omega
      next hclose =>
        rw [if_neg hclose]
        exact ih h

theorem Paired.unopened_append (h : Paired ts) (us : List Token) : unopened (ts ++ us) = unopened us := by
  simpa using unopened_openBraces h us

theorem openBraces_move (f : Span → Span) (d : Nat) (ts : List Token) : openBraces d (move f ts) = openBraces d ts := by
  induction ts generalizing d with
  | nil => rfl
  | cons t ts ih =>
    simp only [move_cons, openBraces, ih]
    rfl

namespace Rules

variable {stop t : Token} {ts : List Token}

/-- A block whose braces come in pairs is read the same whatever stands behind it. -/
theorem whole_blockBody_paired (start : Token) (hts : Paired ts) (htext : Text (ts ++ [t]) stop)
    (ht : t.kind = .symbol .curlyClose) : ∃ as errors left b, ∀ us stop' e, Text us stop' →
      whole (.blockBody start) ⟨ts ++ t :: us, stop', e, false⟩ = (as, ⟨left ++ us, stop', e ++ errors, b⟩) := by
  obtain ⟨as, o, htaken, hbody, -, hother⟩ := whole_local (fun n => (stated_ofDepth n).blockBody start) htext
  refine ⟨as, o.errors, o.left, o.recovering, fun us stop' e hus => ?_⟩
  have hleft : Text (o.left ++ us) stop' := .append (fun u hu => (htaken ▸ htext).right.tokens u hu) hus
  have hrun := hother (o.left ++ us) stop' e hleft fun allows h => ?_
  · rw [← List.append_assoc, ← htaken, List.append_assoc] at hrun
    exact hrun
  · rcases h.closes with hzero | ⟨_, _, _, _, hall⟩
    · -- the brace that closes the block is not among what was taken
      refine h.lookahead _ _ ?_
      by_cases hnil : o.left = []
      · rw [hnil, List.append_nil] at htaken
        have hone : unopened (ts ++ [t]) = 1 := by rw [hts.unopened_append, unopened_close ht, unopened]
        rw [htaken] at hone
        exact absurd (hzero.symm.trans hone) (by decide)
      · have hhead : (o.left ++ us).headD stop' = (o.left ++ []).headD stop := headD_append_of_ne_nil hnil
        rwa [List.append_nil] at hhead
    · exact hall _ _

end Rules

/-! ## Broken statements -/

/-- The end of a text that stands nowhere. -/
def Token.endOfText : Token := ⟨.eof, "", .nowhere, .none⟩

/-- What the block is read as that has the tokens between its braces, and nothing behind it. -/
def readBlock (ts : List Token) : List Stmt × ParseState :=
  Rule.blockBody (budget (ts.length + 1)) (Symbol.token .curlyOpen)
    ⟨ts ++ [Symbol.token .curlyClose], .endOfText, [], false⟩

theorem Rules.atDepth_eq_whole {α : Type} (c : Call α) (hstop : s.stop.kind = .eof) {n : Nat}
    (hn : budget s.rest.length ≤ n) : atDepth n c s = whole c s := by
  have hlevel := c.level_lt
  rw [atDepth, whole_eq exhausted c s hstop]
  unfold Call.steps
  unfold budget at hn
  omega

theorem readBlock_eq (ts : List Token) : readBlock ts =
    Rules.whole (.blockBody (Symbol.token .curlyOpen)) ⟨ts ++ [Symbol.token .curlyClose], .endOfText, [], false⟩ := by
  have hstop : Token.endOfText.kind = .eof := rfl
  rw [← Rules.atDepth_eq_whole (.blockBody (Symbol.token .curlyOpen)) hstop (Nat.le_refl _)]
  simp only [List.length_append, List.length_singleton]
  rfl

theorem Text.move (h : Text ts stop) (f : Span → Span) : Text (move f ts) (move f stop) := by
  refine ⟨fun t ht => ?_, h.stop⟩
  obtain ⟨u, hu, rfl⟩ := List.mem_map.mp ht
  exact h.tokens u hu

/-- Statements without errors are read as the first ones of a longer block. -/
theorem whole_blockBody_readBlock {us : List Token} (hts : ∀ t ∈ ts, t.kind ≠ .eof)
    (hread : (readBlock ts).2.rest = [] ∧ (readBlock ts).2.errors = []) (start : Token) (hus : Text us stop)
    (hnext : (us.headD stop).kind.continues true = false) (e : List ParseError) :
    Rules.whole (.blockBody start) ⟨ts ++ us, stop, e, false⟩ =
      ((readBlock ts).1 ++ (Rules.whole (.blockBody start) ⟨us, stop, e, false⟩).1,
        (Rules.whole (.blockBody start) ⟨us, stop, e, false⟩).2) := by
  have htext : Text (ts ++ [Symbol.token .curlyClose]) .endOfText := .append hts ⟨by simp [Symbol.token], rfl⟩
  obtain ⟨as, o, -, -, hthere, -⟩ :=
    Rules.whole_local (fun n => (Rules.stated_ofDepth n).blockBody (Symbol.token .curlyOpen)) htext
  have hthere := hthere []
  rw [readBlock_eq, hthere] at hread ⊢
  obtain ⟨hleft, herrors⟩ : o.left = [] ∧ [] ++ o.errors = [] := hread
  rw [hleft, herrors] at hthere
  exact Rules.whole_blockBody_append rfl htext hthere start hus hnext e

/-- A block in a text is read as it is on its own, up to places. -/
theorem unplaced_readBlock {ts' : List Token} {start close : Token} {errors : List ParseError}
    {left : List Token} {b : Bool} (hts : Paired ts) (htext : Text (ts ++ [close]) stop)
    (hstart : unplaced start = unplaced (Symbol.token .curlyOpen))
    (hclose : unplaced close = unplaced (Symbol.token .curlyClose))
    (h : Rules.whole (.blockBody start) ⟨ts ++ [close], stop, [], false⟩ = (as, ⟨left, stop, errors, b⟩))
    (hts' : unplaced ts' = unplaced ts) :
    unplaced (readBlock ts').1 = unplaced as ∧ unplaced (readBlock ts').2.errors = unplaced errors := by
  have hpaired : Paired (unplaced ts) := (openBraces_move _ 0 ts).trans hts
  have hkind : (unplaced close).kind = .symbol .curlyClose := by rw [hclose]; rfl
  have htext' : Text (unplaced ts ++ [unplaced close]) (unplaced stop) :=
    move_append (fun _ => .nowhere) ts [close] ▸ htext.move _
  obtain ⟨as₀, errors₀, left₀, b₀, hread⟩ := Rules.whole_blockBody_paired (unplaced start) hpaired htext' hkind
  -- both blocks come to this one when their places are taken away
  have hfrom : ∀ (start' close' stop' : Token) (ts' : List Token) (r : List Stmt × ParseState), stop'.kind = .eof →
      unplaced start' = unplaced start → unplaced close' = unplaced close → unplaced ts' = unplaced ts →
      Rules.whole (.blockBody start') ⟨ts' ++ [close'], stop', [], false⟩ = r →
      unplaced r.1 = as₀ ∧ unplaced r.2.errors = errors₀ := by
    intro start' close' stop' ts' r hstop' hstart' hclose' hts' hr
    have hkeeps :=
      (Rules.whole_keeps (Span.steady_const .nowhere) (.blockBody start') ⟨ts' ++ [close'], stop', [], false⟩ hstop').1
    rw [hr] at hkeeps
    have hstate : unplaced (ParseState.mk (ts' ++ [close']) stop' [] false) =
        ⟨unplaced ts ++ [unplaced close], unplaced stop', [], false⟩ := by
      rw [← hts', ← hclose']
      exact congrArg (ParseState.mk · (unplaced stop') [] false) (move_append _ ts' [close'])
    have hread := hread [] (unplaced stop') [] (.nil hstop')
    rw [← hstart', ← hstate] at hread
    obtain ⟨has, hs⟩ := Prod.mk.inj (hkeeps.symm.trans hread)
    exact ⟨has, congrArg ParseState.errors hs⟩
  have hhere := hfrom start close stop ts _ htext.stop rfl rfl rfl h
  have halone := hfrom _ _ _ ts' _ rfl hstart.symm hclose.symm hts' (readBlock_eq ts').symm
  exact ⟨halone.1.trans hhere.1.symm, halone.2.trans hhere.2.symm⟩

/-- **A broken statement stays where it is.** In a block come the tokens `before`, which are statements without errors;
then `broken`, any tokens up to the next semicolon that cannot go on with the statement before; then `behind`, with
braces in pairs. It is read as the statements of `before`, one statement for `broken`, with one error at most, and
what the block of `behind` alone is read as, with its errors. -/
theorem broken_statement_local {before broken behind rest : List Token} {start semicolon close stop : Token}
    (htext : Text (before ++ (broken ++ semicolon :: (behind ++ close :: rest))) stop)
    (hstart : unplaced start = unplaced (Symbol.token .curlyOpen)) (hsemicolon : semicolon.kind = .symbol .semicolon)
    (hclose : unplaced close = unplaced (Symbol.token .curlyClose))
    (hbefore : (readBlock before).2.rest = [] ∧ (readBlock before).2.errors = [])
    (hne : broken ≠ []) (hendless : Endless broken) (hlexical : lexicalErrors broken = [])
    (helse : (broken.headD semicolon).kind ≠ .keyword .elseWord)
    (hpaired : Paired behind) (helse' : (behind.headD close).kind ≠ .keyword .elseWord)
    {n : Nat} (hn : budget (before ++ (broken ++ semicolon :: (behind ++ close :: rest))).length ≤ n) (e : List ParseError) :
    ∃ stmt error stmts errors s, error.length ≤ 1 ∧
      Rule.blockBody n start ⟨before ++ (broken ++ semicolon :: (behind ++ close :: rest)), stop, e, false⟩ =
        ((readBlock before).1 ++ stmt :: stmts, s) ∧ s.errors = e ++ error ++ errors ∧
      Rule.statement n ⟨broken ++ [semicolon], stop, e, false⟩ = (stmt, ⟨[], stop, e ++ error, false⟩) ∧
      ∀ behind', unplaced behind' = unplaced behind →
        unplaced (readBlock behind').1 = unplaced stmts ∧ unplaced (readBlock behind').2.errors = unplaced errors := by
  have hkind : close.kind = .symbol .curlyClose := congrArg (·.kind) hclose
  have hbroken := htext.right
  have hbehind : Text (behind ++ close :: rest) stop := (List.append_cons broken semicolon _ ▸ hbroken).right
  have hblock : Text (behind ++ [close]) stop := (List.append_cons behind close rest ▸ hbehind).left
  have hrest : Text rest stop := (List.append_cons behind close rest ▸ hbehind).right
  obtain ⟨stmt, error, hcount, hstatement⟩ := Rules.whole_statement_broken hendless hlexical hsemicolon htext.stop
  obtain ⟨stmts, errors, left, b, hread⟩ := Rules.whole_blockBody_paired start hpaired hblock hkind
  refine ⟨stmt, error, stmts, errors, ⟨left ++ rest, stop, e ++ error ++ errors, b⟩, hcount, ?_, rfl, ?_,
    fun behind' hbehind' => ?_⟩
  · show Rules.atDepth n (.blockBody start) _ = _
    have hnext : ((broken ++ semicolon :: (behind ++ close :: rest)).headD stop).kind.continues true = false ∧
        ((broken ++ semicolon :: (behind ++ close :: rest)).headD stop).kind.closes = false := by
      cases broken with
      | nil => exact absurd rfl hne
      | cons t broken =>
        refine ⟨TokenKind.not_continues hendless.head fun _ => helse, Bool.eq_false_iff.mpr fun hcloses => ?_⟩
        exact absurd ((TokenKind.ends_of_closes hcloses).symm.trans hendless.head) (by decide)
    have hother : ((behind ++ close :: rest).headD stop).kind ≠ .keyword .elseWord := by
      cases behind <;> exact helse'
    have hlength : (behind ++ close :: rest).length ≠ (broken ++ semicolon :: (behind ++ close :: rest)).length := by
      simp only [List.length_append, List.length_cons]
      omega
    have htokens : ∀ t ∈ before, t.kind ≠ .eof := fun t ht => htext.tokens t (List.mem_append_left _ ht)
    rw [Rules.atDepth_eq_whole _ htext.stop hn, whole_blockBody_readBlock htokens hbefore start hbroken hnext.1,
      Rules.whole_blockBody_cons (s := ⟨broken ++ semicolon :: (behind ++ close :: rest), stop, e, false⟩) start
        htext.stop hnext.2 (hstatement _ stop e hbehind hother) hlength, hread rest stop _ hrest]
  · show Rules.atDepth n .statement _ = _
    rw [Rules.atDepth_eq_whole .statement htext.stop]
    · exact hstatement [] stop e (.nil htext.stop) (by simp [htext.stop])
    · refine Nat.le_trans ?_ hn
      simp only [budget, List.length_append, List.length_cons, List.length_nil]
      omega
  · have halone := hread [] stop [] (.nil htext.stop)
    exact unplaced_readBlock hpaired hblock hstart hclose halone hbehind'

/-- `if x { y; }`, behind which an `else` or a semicolon would belong to it. -/
def branchTokens : List Token :=
  [Keyword.ifWord.token, .ofName "x", Symbol.curlyOpen.token, .ofName "y", Symbol.semicolon.token,
    Symbol.curlyClose.token]

/-- `while (y : [`, with nothing closed. -/
def brokenTokens : List Token :=
  [Keyword.whileWord.token, Symbol.parenOpen.token, .ofName "y", Symbol.colon.token, Symbol.bracketOpen.token]

/-- `z; { x }`, which is broken, too. -/
def behindTokens : List Token :=
  [.ofName "z", Symbol.semicolon.token, Symbol.curlyOpen.token, .ofName "x", Symbol.curlyClose.token]

theorem broken_statement_local_branch :
    (readBlock branchTokens).2.rest = [] ∧ (readBlock branchTokens).2.errors = [] ∧ Endless brokenTokens ∧
      Paired behindTokens ∧
      ∃ stmt error stmts errors s, error.length ≤ 1 ∧
        Rule.blockBody 168 Symbol.curlyOpen.token
            ⟨branchTokens ++ (brokenTokens ++ Symbol.semicolon.token :: (behindTokens ++ [Symbol.curlyClose.token])),
              .endOfText, [], false⟩ =
          ((readBlock branchTokens).1 ++ stmt :: stmts, s) ∧ s.errors = [] ++ error ++ errors ∧
        Rule.statement 168 ⟨brokenTokens ++ [Symbol.semicolon.token], .endOfText, [], false⟩ =
          (stmt, ⟨[], .endOfText, [] ++ error, false⟩) ∧
        ∀ behind', unplaced behind' = unplaced behindTokens →
          unplaced (readBlock behind').1 = unplaced stmts ∧ unplaced (readBlock behind').2.errors = unplaced errors := by
  have hrest : (readBlock branchTokens).2.rest = [] := by decide +kernel
  have herrors : (readBlock branchTokens).2.errors = [] := by rfl
  have hendless : Endless brokenTokens := by unfold Endless; decide
  have hpaired : Paired behindTokens := by decide
  refine ⟨hrest, herrors, hendless, hpaired, ?_⟩
  exact broken_statement_local ⟨by decide, rfl⟩ rfl rfl rfl ⟨hrest, herrors⟩ (by decide) hendless (by decide)
    (by decide) hpaired (by decide) (by decide) []

end Wordstack
