/-
What comes of the rules for statements. A statement takes whole pairs of braces, and if it has a
semicolon in front of all braces, that is where it ends, broken or not: the rest of a
broken statement is skipped. What stands behind a statement that ends so, is
looked at only for another branch.
-/
import Wordstack.Proofs.Braces

namespace Wordstack

open Rule

/-- Whether a statement that is complete goes on at the token; with another branch if `w` says so. -/
def TokenKind.continues (w : Bool) : TokenKind → Bool
  | .keyword .elseWord => w
  | .symbol .semicolon => true
  | _ => false

theorem TokenKind.not_continues {w : Bool} {kind : TokenKind} (hends : kind.ends = false)
    (helse : w = true → kind ≠ .keyword .elseWord) : kind.continues w = false := by
  unfold continues
  split
  · exact Bool.eq_false_iff.mpr fun hw => helse hw rfl
  · cases hends
  · rfl

theorem TokenKind.ne_else {w : Bool} {kind : TokenKind} (h : kind.continues w = false) (hw : w = true) :
    kind ≠ .keyword .elseWord := by
  rintro rfl
  exact absurd (hw.symm.trans h) (by decide)

theorem TokenKind.continues_weaken {w : Bool} {kind : TokenKind} (h : kind.continues w = false) :
    kind.continues false = false := by
  unfold continues at h ⊢
  split
  · rfl
  · cases h
  · rfl

theorem TokenKind.ends_semicolon {t : Token} (h : t.kind = .symbol .semicolon) : t.kind.ends = true := by
  rw [h]
  rfl

/-- Behind tokens that are there, the front does not change. -/
theorem headD_append_of_ne_nil {q us left : List Token} {stop stop' : Token} (h : q ≠ []) :
    (q ++ us).headD stop' = (q ++ left).headD stop := by
  cases q with
  | nil => exact absurd rfl h
  | cons t q => rfl

/-- A token is missing and is reported. -/
def Outcome.miss (stop : Token) (ts : List Token) (error : ParseError) : Outcome :=
  ⟨[], ts, [error], true, fun us stop' => us.headD stop' = ts.headD stop⟩

theorem Outcome.Inner.miss {stop : Token} (ts : List Token) (error : ParseError) :
    (Outcome.miss stop ts error).Inner stop false :=
  ⟨.nil, rfl, fun _ _ hus => hus⟩

/-! ## Statements -/

/-- What comes of a rule for a statement or the rest of one, which another branch may follow if `w` says so. -/
structure Outcome.Form (w : Bool) (stop : Token) (b : Bool) (o : Outcome) : Prop where
  balanced : unopened o.taken = 0
  lookahead : ∀ us stop', us.headD stop' = o.left.headD stop → o.allows us stop'
  reported : b = false → o.recovering = true → o.errors ≠ []
  clean : b = false → o.errors = [] → o.recovering = false →
    ∀ us stop', (us.headD stop').kind.continues w = false → o.allows us stop'
  /-- Without an end a statement is broken, and goes as far as it can. -/
  endless : Endless o.taken → o.errors.length + b.toNat = 1 + (lexicalErrors o.taken).length ∧
    (o.recovering = true ∨ (o.left.headD stop).kind.closes = true)
  /-- A semicolon in front of all braces is the end, if there is no other branch behind it. -/
  first : ∀ g s q, o.taken = g ++ s :: q → Endless g → s.kind = .symbol .semicolon →
    o.recovering = false ∧ ((∃ t r, w = true ∧ q = t :: r ∧ t.kind = .keyword .elseWord) ∨
      q = [] ∧ o.errors.length + b.toNat ≤ 1 + (lexicalErrors o.taken).length ∧
        ∀ us stop', (w = true → (us.headD stop').kind ≠ .keyword .elseWord) → o.allows us stop')

namespace Outcome

variable {w : Bool} {stop t : Token} {b : Bool} {o o' : Outcome} {ts : List Token}

/-- A statement without errors has an end. -/
theorem Form.not_endless (h : o.Form w stop false) (herrors : o.errors = []) : ¬ Endless o.taken := by
  intro hendless
  have hcount := (h.endless hendless).1
  simp only [herrors, List.length_nil, Bool.toNat_false] at hcount
  omega

/-- What is inside of a statement, and the rest of the statement. -/
theorem Inner.form (h : o.Inner stop b) (h' : o'.Form w stop o.recovering) (hleft : o.left = o'.taken ++ o'.left) :
    (o.andThen o').Form w stop b := by
  have hcount := h.count
  have hallows : ∀ us stop', o'.taken ≠ [] → o.allows (o'.taken ++ us) stop' := by
    intro us stop' hne
    refine h.next _ _ ?_
    rw [hleft]
    exact headD_append_of_ne_nil hne
  constructor
  case balanced => exact h.endless.unopened_append.trans h'.balanced
  case lookahead =>
    intro us stop' hus
    refine ⟨h.next _ _ ?_, h'.lookahead us stop' hus⟩
    rw [hleft]
    exact headD_append hus
  case reported =>
    intro hb hrec herrors
    obtain ⟨hnil, hnil'⟩ := List.append_eq_nil_iff.mp herrors
    cases hmid : o.recovering with
    | true =>
      rw [hb, hmid, hnil] at hcount
      simp only [List.length_nil, Bool.toNat_false, Bool.toNat_true] at hcount
      omega
    | false => exact h'.reported hmid hrec hnil'
  case clean =>
    intro hb herrors hrec us stop' hus
    obtain ⟨hnil, hnil'⟩ := List.append_eq_nil_iff.mp herrors
    have hmid : o.recovering = false := by
      rw [hb, hnil] at hcount
      cases hmid : o.recovering with
      | false => rfl
      | true =>
        simp only [hmid, List.length_nil, Bool.toNat_false, Bool.toNat_true] at hcount
        omega
    have hne : o'.taken ≠ [] := by
      intro hnil
      rw [hmid] at h'
      exact h'.not_endless hnil' (hnil ▸ .nil)
    exact ⟨hallows us stop' hne, h'.clean hmid hnil' hrec us stop' hus⟩
  case endless =>
    intro hendless
    obtain ⟨hcount', hend⟩ := h'.endless hendless.right
    refine ⟨?_, hend⟩
    simp only [Outcome.andThen, List.length_append, lexicalErrors_append]
    omega
  case first =>
    intro g s q htaken hg hs
    obtain ⟨g', rfl, htaken'⟩ := h.endless.before_end (TokenKind.ends_semicolon hs) htaken
    obtain ⟨hrec, helse | ⟨hq, hcount', hus⟩⟩ := h'.first g' s q htaken' hg.right hs
    · exact ⟨hrec, .inl helse⟩
    · have hne : o'.taken ≠ [] := by simp [htaken']
      refine ⟨hrec, .inr ⟨hq, ?_, fun us stop' hnext => ⟨hallows us stop' hne, hus us stop' hnext⟩⟩⟩
      simp only [Outcome.andThen, List.length_append, lexicalErrors_append]
      omega

/-- In recovery the statement is left as it is. -/
theorem Form.broken (ts : List Token) : (Outcome.none true ts).Form w stop true where
  balanced := rfl
  lookahead _ _ _ := trivial
  reported h := by cases h
  clean h := by cases h
  endless _ := ⟨rfl, .inl rfl⟩
  first g s q h := by simp [none] at h

/-- Another branch may follow what none follows. -/
theorem Form.weaken (h : o.Form false stop b) : o.Form w stop b where
  balanced := h.balanced
  lookahead := h.lookahead
  reported := h.reported
  clean hb hnil hrec us stop' hus := h.clean hb hnil hrec us stop' (TokenKind.continues_weaken hus)
  endless := h.endless
  first g s q htaken hg hs := by
    obtain ⟨hrec, ⟨_, _, hw, -⟩ | ⟨hq, hcount, hus⟩⟩ := h.first g s q htaken hg hs
    · cases hw
    · exact ⟨hrec, .inr ⟨hq, hcount, fun us stop' _ => hus us stop' nofun⟩⟩

/-- A token that no statement begins with. -/
theorem Form.missed (ts : List Token) (error : ParseError) : (Outcome.miss stop ts error).Form w stop false := by
  have heq : (Outcome.miss stop ts error).andThen (.none true ts) = .miss stop ts error := andThen_none _
  rw [← heq]
  exact (Inner.miss ts error).form (.broken ts) rfl

/-- A semicolon and nothing behind it. -/
theorem Form.ended (ht : t.kind = .symbol .semicolon) (ts : List Token) : (one false t ts).Form w stop false where
  balanced := by
    show unopened [t] = 0
    rw [unopened_semicolon ht, unopened]
  lookahead _ _ _ := trivial
  reported _ h := by cases h
  clean _ _ _ _ _ _ := trivial
  endless h := by
    have := h.head
    simp [TokenKind.ends_semicolon ht] at this
  first g s q htaken hg hs := by
    have htaken : [] ++ t :: [] = g ++ s :: q := htaken
    obtain ⟨-, -, rfl⟩ := Endless.nil.end_inj hg (TokenKind.ends_semicolon ht) (TokenKind.ends_semicolon hs) htaken
    exact ⟨rfl, .inr ⟨rfl, by simp [one, lexicalErrors, ht], fun _ _ _ => trivial⟩⟩

/-- A statement whose first end is an opening brace. -/
theorem Form.ofBrace {q : List Token} (ht : t.kind = .symbol .curlyOpen) (htaken : o.taken = t :: q)
    (hclosed : unopened q ≤ 1) (hlookahead : ∀ us stop', us.headD stop' = o.left.headD stop → o.allows us stop')
    (hreported : o.recovering = true → o.errors ≠ []) (hclean : o.errors = [] → o.recovering = false →
      ∀ us stop', (us.headD stop').kind.continues w = false → o.allows us stop') : o.Form w stop false := by
  have hends : t.kind.ends = true := by rw [ht]; rfl
  refine ⟨?_, hlookahead, fun _ => hreported, fun _ => hclean, fun h => ?_, fun g s q' h hg hs => ?_⟩
  · rw [htaken, unopened_open ht]
    omega
  · have := (htaken ▸ h).head
    simp [hends] at this
  · have htaken : [] ++ t :: q = g ++ s :: q' := htaken.symm.trans h
    obtain ⟨-, rfl, -⟩ := Endless.nil.end_inj hg hends (TokenKind.ends_semicolon hs) htaken
    rw [ht] at hs
    cases hs

/-- A broken statement and the rest of it, which is skipped. -/
theorem Form.skip (h : o.Form w stop false) (hrec : o.recovering = true) (h' : o'.Skip stop)
    (hleft : o.left = o'.taken ++ o'.left) : (o.andThen o').Form w stop false := by
  have hbalanced : unopened o'.taken = 0 := Nat.le_zero.mp h'.skipped.unopened
  constructor
  case balanced => exact unopened_append_eq_zero h.balanced hbalanced
  case lookahead =>
    intro us stop' hus
    refine ⟨h.lookahead _ _ ?_, h'.allows us stop' fun htext => h'.skipped.length us stop' htext hus⟩
    rw [hleft]
    exact headD_append hus
  case reported =>
    intro _ hrec'
    exact absurd (h'.recovering.symm.trans hrec') (by decide)
  case clean =>
    intro _ herrors
    exact absurd (List.append_eq_nil_iff.mp herrors).1 (h.reported rfl hrec)
  case endless =>
    intro hendless
    have hcount := (h.endless hendless.left).1
    refine ⟨?_, .inr (h'.skipped.closes hendless.right)⟩
    simp only [andThen, h'.errors, List.length_append, lexicalErrors_append]
    omega
  case first =>
    intro g s q htaken hg hs
    have hendless : Endless o.taken := by
      -- an end within what is taken first would be this semicolon, and leave nothing to skip
      rcases Endless.or_end o.taken with hendless | ⟨g', t, w, htaken', hg', ht⟩
      · exact hendless
      · have htaken : g' ++ t :: (w ++ o'.taken) = g ++ s :: q := by
          rw [← htaken]
          show _ = o.taken ++ o'.taken
          simp [htaken']
        obtain ⟨rfl, rfl, -⟩ := hg'.end_inj hg ht (TokenKind.ends_semicolon hs) htaken
        exact absurd (hrec.symm.trans (h.first g' t w htaken' hg' hs).1) (by decide)
    have hcount := (h.endless hendless).1
    obtain ⟨g', rfl, htaken'⟩ := hendless.before_end (TokenKind.ends_semicolon hs) htaken
    obtain ⟨rfl, hlength⟩ := h'.skipped.first rfl g' s q htaken' hg.right hs
    refine ⟨h'.recovering, .inr ⟨rfl, ?_, fun us stop' _ => ⟨h.lookahead _ _ ?_, h'.allows us stop' fun _ => hlength us⟩⟩⟩
    · simp only [andThen, h'.errors, List.length_append, lexicalErrors_append]
      omega
    · rw [hleft]
      exact headD_append_of_ne_nil (by simp [htaken'])

/-! ## Branches -/

/-- Something more is looked at, which is the same in front of the same token, and known behind an end. -/
theorem Form.restrict {P : List Token → Token → Prop} (h : o.Form w stop false)
    (hhead : ∀ us stop', us.headD stop' = o.left.headD stop → P us stop')
    (hend : ¬ Endless o.taken → ∀ us stop', (w = true → (us.headD stop').kind ≠ .keyword .elseWord) → P us stop') :
    Form w stop false { o with allows := fun us stop' => P us stop' ∧ o.allows us stop' } where
  balanced := h.balanced
  lookahead us stop' hus := ⟨hhead us stop' hus, h.lookahead us stop' hus⟩
  reported := h.reported
  clean hb hnil hrec us stop' hus :=
    ⟨hend (h.not_endless hnil) us stop' (TokenKind.ne_else hus), h.clean hb hnil hrec us stop' hus⟩
  endless := h.endless
  first g s q htaken hg hs := by
    have hends : ¬ Endless o.taken := htaken ▸ Endless.not_end (TokenKind.ends_semicolon hs)
    obtain ⟨hrec, helse | ⟨hq, hcount, hus⟩⟩ := h.first g s q htaken hg hs
    · exact ⟨hrec, .inl helse⟩
    · exact ⟨hrec, .inr ⟨hq, hcount, fun us stop' hne => ⟨hend hends us stop' hne, hus us stop' hne⟩⟩⟩

/-- The other branch behind a statement. -/
theorem Form.orElse (h : o.Form true stop false) (hrec : o.recovering = false) (ht : t.kind = .keyword .elseWord)
    (hleft : o.left = t :: ts) (h' : o'.Form true stop false) (hrec' : o'.recovering = false) :
    (o.andThen ((one false t ts).andThen o')).Form true stop false := by
  have hends : ¬ Endless o.taken := by
    intro hendless
    rcases (h.endless hendless).2 with hrec' | hcloses
    · exact absurd (hrec.symm.trans hrec') (by decide)
    · rw [hleft, List.headD_cons, ht] at hcloses
      cases hcloses
  have hallows : ∀ us stop', o.allows ([t] ++ o'.taken ++ us) stop' := by
    intro us stop'
    refine h.lookahead _ _ ?_
    rw [hleft]
    rfl
  have hbalanced : unopened ([t] ++ o'.taken) = 0 := by
    rw [List.singleton_append, unopened_other (by simp [ht]) (by simp [ht])]
    exact h'.balanced
  constructor
  case balanced => exact unopened_append_eq_zero h.balanced hbalanced
  case lookahead => exact fun us stop' hus => ⟨hallows us stop', trivial, h'.lookahead us stop' hus⟩
  case reported => exact fun _ hrec => absurd (hrec'.symm.trans hrec) (by decide)
  case clean =>
    intro hb herrors hrec us stop' hus
    have herrors' : o'.errors = [] := (List.append_eq_nil_iff.mp (List.append_eq_nil_iff.mp herrors).2).2
    exact ⟨hallows us stop', trivial, h'.clean hb herrors' hrec us stop' hus⟩
  case endless => exact fun hendless => absurd hendless.left hends
  case first =>
    intro g s q htaken hg hs
    rcases Endless.or_end o.taken with hendless | ⟨g', u, w, htaken', hg', hu⟩
    · exact absurd hendless hends
    · have htaken : g' ++ u :: (w ++ ([t] ++ o'.taken)) = g ++ s :: q := by
        rw [← htaken]
        show _ = o.taken ++ ([t] ++ o'.taken)
        simp [htaken']
      obtain ⟨rfl, rfl, rfl⟩ := hg'.end_inj hg hu (TokenKind.ends_semicolon hs) htaken
      refine ⟨hrec', .inl ?_⟩
      rcases (h.first g' u w htaken' hg' hs).2 with ⟨t', r, -, rfl, ht'⟩ | ⟨rfl, -, -⟩
      · exact ⟨t', r ++ ([t] ++ o'.taken), rfl, rfl, ht'⟩
      · exact ⟨t, o'.taken, rfl, rfl, ht⟩

/-! ## What is between braces -/

/-- What comes of a rule for what is between braces, up to and with the closing one. -/
structure Body (stop : Token) (o : Outcome) : Prop where
  /-- The braces in it come in pairs, except for the last one. -/
  closes : unopened o.taken = 0 ∨ ∃ q c, o.taken = q ++ [c] ∧ unopened q = 0 ∧ ∀ us stop', o.allows us stop'
  lookahead : ∀ us stop', us.headD stop' = o.left.headD stop → o.allows us stop'
  reported : o.recovering = true → o.errors ≠ []
  clean : o.errors = [] → o.recovering = false → o.taken ≠ [] ∧ ∀ us stop', o.allows us stop'

theorem unopened_singleton_le (c : Token) : unopened [c] ≤ 1 := by
  simp only [unopened]
  split
  · omega
  · split <;> omega

theorem Body.unopened_le (h : o.Body stop) : unopened o.taken ≤ 1 := by
  rcases h.closes with hzero | ⟨q, c, htaken, hq, -⟩
  · omega
  · have := unopened_append_le q [c]
    have := unopened_singleton_le c
    rw [htaken]
    omega

/-- Something with its braces in pairs, and more behind it. -/
theorem Body.after (hbalanced : unopened o.taken = 0)
    (hlookahead : ∀ us stop', us.headD stop' = o.left.headD stop → o.allows us stop')
    (h' : o'.Body stop) (hleft : o.left = o'.taken ++ o'.left) : (o.andThen o').Body stop := by
  have hallows : ∀ us stop', o'.taken ≠ [] → o.allows (o'.taken ++ us) stop' := by
    intro us stop' hne
    refine hlookahead _ _ ?_
    rw [hleft]
    exact headD_append_of_ne_nil hne
  constructor
  case closes =>
    rcases h'.closes with hzero | ⟨q, c, htaken, hq, hus⟩
    · exact .inl (unopened_append_eq_zero hbalanced hzero)
    · have hne : o'.taken ≠ [] := by simp [htaken]
      refine .inr ⟨o.taken ++ q, c, ?_, unopened_append_eq_zero hbalanced hq, fun us stop' => ⟨hallows us stop' hne, hus us stop'⟩⟩
      show o.taken ++ o'.taken = _
      rw [htaken, List.append_assoc]
  case lookahead =>
    intro us stop' hus
    refine ⟨hlookahead _ _ ?_, h'.lookahead us stop' hus⟩
    rw [hleft]
    exact headD_append hus
  case reported => exact fun hrec herrors => h'.reported hrec (List.append_eq_nil_iff.mp herrors).2
  case clean =>
    intro herrors hrec
    obtain ⟨hne, hus⟩ := h'.clean (List.append_eq_nil_iff.mp herrors).2 hrec
    exact ⟨by simp [andThen, hne], fun us stop' => ⟨hallows us stop' hne, hus us stop'⟩⟩

theorem Inner.body (h : o.Inner stop b) (h' : o'.Body stop) (hleft : o.left = o'.taken ++ o'.left) :
    (o.andThen o').Body stop :=
  .after h.endless.unopened h.next h' hleft

/-- Nothing but the brace. -/
theorem Body.one (t : Token) (ts : List Token) : (one false t ts).Body stop where
  closes := .inr ⟨[], t, rfl, rfl, fun _ _ => trivial⟩
  lookahead _ _ _ := trivial
  reported h := by cases h
  clean _ _ := ⟨by simp [Outcome.one], fun _ _ => trivial⟩

/-- What is given up. -/
theorem Body.broken (herrors : o.errors ≠ [])
    (hcloses : Endless o.taken ∨ ∃ g c, o.taken = g ++ [c] ∧ Endless g ∧ ∀ us stop', o.allows us stop')
    (hlookahead : ∀ us stop', us.headD stop' = o.left.headD stop → o.allows us stop') : o.Body stop where
  closes := by
    rcases hcloses with hendless | ⟨g, c, htaken, hg, hus⟩
    · exact .inl hendless.unopened
    · exact .inr ⟨g, c, htaken, hg.unopened, hus⟩
  lookahead := hlookahead
  reported _ := herrors
  clean h := absurd h herrors

/-- Something between braces is a statement. -/
theorem Form.braced (ht : t.kind = .symbol .curlyOpen) (h : o.Body stop) (ts : List Token) :
    ((one false t ts).andThen o).Form w stop false := by
  refine .ofBrace ht rfl h.unopened_le (fun us stop' hus => ⟨trivial, h.lookahead us stop' hus⟩) ?_ ?_
  · exact fun hrec herrors => h.reported hrec (List.append_eq_nil_iff.mp herrors).2
  · exact fun herrors hrec us stop' _ => ⟨trivial, (h.clean (List.append_eq_nil_iff.mp herrors).2 hrec).2 us stop'⟩

/-- Something between braces, which a semicolon may follow. -/
theorem Form.bracedEat {v : Bool} (ht : t.kind = .symbol .curlyOpen) (h : o.Body stop) (ts : List Token)
    (h' : Eaten stop o.recovering (.symbol .semicolon) o.left v o') :
    ((one false t ts).andThen (o.andThen o')).Form w stop false := by
  have hnil : ((one false t ts).andThen (o.andThen o')).errors = [] → o.errors = [] := fun herrors =>
    (List.append_eq_nil_iff.mp (List.append_eq_nil_iff.mp herrors).2).1
  have hreported : o'.recovering = true → ((one false t ts).andThen (o.andThen o')).errors ≠ [] := by
    intro hrec herrors
    cases h' <;> exact h.reported hrec (hnil herrors)
  cases h' with
  | @yes s us hleft hs =>
    have hallows : ∀ us' stop', ((one false t ts).andThen (o.andThen (one o.recovering s us))).allows us' stop' := by
      intro us' stop'
      refine ⟨trivial, h.lookahead _ _ ?_, trivial⟩
      rw [hleft]
      rfl
    refine .ofBrace ht rfl ?_ (fun us' stop' _ => hallows us' stop') hreported fun _ _ us' stop' _ => hallows us' stop'
    have hle := unopened_append_le o.taken [s]
    have := h.unopened_le
    rw [unopened_semicolon hs, unopened] at hle
    show unopened (o.taken ++ [s]) ≤ 1
    omega
  | no hs =>
    refine .ofBrace ht rfl ?_ (fun us stop' hus => ⟨trivial, h.lookahead us stop' hus, fun heq => hs (hus ▸ heq)⟩) hreported ?_
    · show unopened (o.taken ++ []) ≤ 1
      rw [List.append_nil]
      exact h.unopened_le
    · intro herrors hrec us stop' hus
      refine ⟨trivial, (h.clean (hnil herrors) hrec).2 us stop', fun heq => ?_⟩
      rw [heq] at hus
      cases hus

end Outcome

end Wordstack
