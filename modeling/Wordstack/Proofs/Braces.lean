/-
Braces and the ends of statements. A statement that is given up is skipped up to a semicolon or
behind the braces that it opens, and never past a brace that closes one opened before it.
-/
import Wordstack.Proofs.Inside

namespace Wordstack

open Rule

/-! ## Braces that are not opened -/

/-- How many braces of these tokens close one that is opened before them. -/
def unopened : List Token → Nat
  | [] => 0
  | t :: ts =>
    if t.kind = .symbol .curlyOpen then unopened ts - 1
    else if t.kind = .symbol .curlyClose then unopened ts + 1
    else unopened ts

section

variable {t : Token} {g ts us : List Token}

theorem unopened_open (ht : t.kind = .symbol .curlyOpen) : unopened (t :: ts) = unopened ts - 1 := by
  rw [unopened, if_pos ht]

theorem unopened_close (ht : t.kind = .symbol .curlyClose) : unopened (t :: ts) = unopened ts + 1 := by
  rw [unopened, ht, if_neg (by simp), if_pos rfl]

theorem unopened_other (hopen : t.kind ≠ .symbol .curlyOpen) (hclose : t.kind ≠ .symbol .curlyClose) :
    unopened (t :: ts) = unopened ts := by
  rw [unopened, if_neg hopen, if_neg hclose]

theorem unopened_semicolon (ht : t.kind = .symbol .semicolon) : unopened (t :: ts) = unopened ts :=
  unopened_other (by simp [ht]) (by simp [ht])

theorem unopened_append_le (ts us : List Token) : unopened (ts ++ us) ≤ unopened ts + unopened us := by
  induction ts with
  | nil => simp
  | cons t ts ih =>
    simp only [List.cons_append, unopened]
    split
    · omega
    · split <;> omega

theorem unopened_append_eq_zero (hts : unopened ts = 0) (hus : unopened us = 0) : unopened (ts ++ us) = 0 := by
  have := unopened_append_le ts us
  omega

theorem Endless.unopened_append (h : Endless g) : unopened (g ++ ts) = unopened ts := by
  induction g with
  | nil => rfl
  | cons t g ih =>
    have ht : t.kind.ends = false := h t (List.mem_cons_self ..)
    rw [List.cons_append, unopened_other, ih fun u hu => h u (List.mem_cons_of_mem _ hu)]
    · rintro hk
      simp [hk, TokenKind.ends] at ht
    · rintro hk
      simp [hk, TokenKind.ends] at ht

theorem Endless.unopened (h : Endless g) : unopened g = 0 := by
  have hg : Wordstack.unopened (g ++ []) = Wordstack.unopened [] := h.unopened_append
  rwa [List.append_nil] at hg

end

/-! ## The first end -/

namespace Endless

variable {t t' : Token} {g g' q ts us w w' : List Token}

theorem left (h : Endless (ts ++ us)) : Endless ts := fun t ht => h t (List.mem_append_left _ ht)

theorem right (h : Endless (ts ++ us)) : Endless us := fun t ht => h t (List.mem_append_right _ ht)

theorem head (h : Endless (t :: ts)) : t.kind.ends = false := h t (List.mem_cons_self ..)

theorem tail (h : Endless (t :: ts)) : Endless ts := fun u hu => h u (List.mem_cons_of_mem _ hu)

theorem not_end (ht : t.kind.ends = true) : ¬ Endless (g ++ t :: w) := fun h => by
  have := h.right.head
  simp [ht] at this

theorem or_end (ts : List Token) : Endless ts ∨ ∃ g t w, ts = g ++ t :: w ∧ Endless g ∧ t.kind.ends = true := by
  induction ts with
  | nil => exact .inl .nil
  | cons t ts ih =>
    by_cases ht : t.kind.ends = true
    · exact .inr ⟨[], t, ts, rfl, .nil, ht⟩
    · have ht : t.kind.ends = false := by simpa using ht
      rcases ih with h | ⟨g, u, w, rfl, hg, hu⟩
      · exact .inl (h.cons ht)
      · exact .inr ⟨t :: g, u, w, rfl, hg.cons ht, hu⟩

/-- What has no end in it lies in front of the first one. -/
theorem before_end (hq : Endless q) (ht : t.kind.ends = true) (heq : q ++ ts = g ++ t :: w) :
    ∃ g', g = q ++ g' ∧ ts = g' ++ t :: w := by
  rcases List.append_eq_append_iff.mp heq with ⟨g', hg, hts⟩ | ⟨q', hq', hw⟩
  · exact ⟨g', hg, hts⟩
  · cases q' with
    | nil => exact ⟨[], by simpa using hq'.symm, by simpa using hw.symm⟩
    | cons u q' =>
      obtain ⟨rfl, -⟩ := List.cons.inj hw
      exact absurd (hq' ▸ hq) (not_end ht)

theorem end_inj (hg : Endless g) (hg' : Endless g') (ht : t.kind.ends = true) (ht' : t'.kind.ends = true)
    (heq : g ++ t :: w = g' ++ t' :: w') : g = g' ∧ t = t' ∧ w = w' := by
  obtain ⟨h, rfl, hw⟩ := hg.before_end ht' heq
  cases h with
  | nil =>
    obtain ⟨rfl, rfl⟩ := List.cons.inj hw
    exact ⟨(List.append_nil g).symm, rfl, rfl⟩
  | cons u h =>
    obtain ⟨rfl, -⟩ := List.cons.inj hw
    have := hg'.right.head
    simp [ht] at this

end Endless

/-- Whether the token ends what statements there are in front of it. -/
def TokenKind.closes : TokenKind → Bool
  | .symbol .curlyClose | .eof => true
  | _ => false

theorem TokenKind.ends_of_closes {kind : TokenKind} (h : kind.closes = true) : kind.ends = true := by
  unfold closes at h
  split at h
  · rfl
  · rfl
  · cases h

theorem TokenKind.not_closes {kind : TokenKind} (hclose : kind ≠ .symbol .curlyClose) (heof : kind ≠ .eof) :
    kind.closes = false := by
  unfold closes
  split
  · exact absurd rfl hclose
  · exact absurd rfl heof
  · rfl

/-! ## Skipping a statement -/

namespace Rule

variable {d : Nat} {stop t : Token} {ts q left : List Token}

theorem statementLength_open (ht : t.kind = .symbol .curlyOpen) :
    statementLength d (t :: ts) = statementLength (d + 1) ts + 1 := by
  simp only [statementLength, ht]

theorem statementLength_close (ht : t.kind = .symbol .curlyClose) :
    statementLength (d + 2) (t :: ts) = statementLength (d + 1) ts + 1 := by
  simp only [statementLength, ht]

theorem statementLength_last (ht : t.kind = .symbol .curlyClose) :
    statementLength 1 (t :: ts) = if ts.head?.any (·.isSymbol .semicolon) then 2 else 1 := by
  simp only [statementLength, ht]

theorem statementLength_outer (ht : t.kind = .symbol .curlyClose) : statementLength 0 (t :: ts) = 0 := by
  simp only [statementLength, ht]

theorem statementLength_semicolon (ht : t.kind = .symbol .semicolon) : statementLength 0 (t :: ts) = 1 := by
  simp only [statementLength, ht]

theorem statementLength_other (hopen : t.kind ≠ .symbol .curlyOpen) (hclose : t.kind ≠ .symbol .curlyClose)
    (hsemicolon : t.kind = .symbol .semicolon → d ≠ 0) : statementLength d (t :: ts) = statementLength d ts + 1 := by
  rw [statementLength.eq_def]
  dsimp only
  split
  next h => exact absurd rfl (hsemicolon h)
  next h => exact absurd h hopen
  next h => exact absurd h hclose
  next h => exact absurd h hclose
  next h => exact absurd h hclose
  next => rfl

/-- What skipping takes of the rest of a statement inside `d` braces, and what it leaves. -/
structure Skipped (stop : Token) (d : Nat) (q left : List Token) : Prop where
  length : ∀ us stop', Text us stop' → us.headD stop' = left.headD stop → statementLength d (q ++ us) = q.length
  unopened : unopened q ≤ d
  closes : Endless q → (left.headD stop).kind.closes = true
  /-- A semicolon in front of all braces is the end. -/
  first : d = 0 → ∀ g s r, q = g ++ s :: r → Endless g → s.kind = .symbol .semicolon →
    r = [] ∧ ∀ us, statementLength 0 (q ++ us) = q.length

/-- A token that is skipped, and the rest of the statement behind it. -/
theorem Skipped.cons {d' : Nat} (h : Skipped stop d' q left)
    (hcons : ∀ ts, statementLength d (t :: ts) = statementLength d' ts + 1) (hunopened : Wordstack.unopened (t :: q) ≤ d)
    (hd : t.kind.ends = false → d' = d) (hsemicolon : t.kind = .symbol .semicolon → d ≠ 0) :
    Skipped stop d (t :: q) left where
  length us stop' hus hhead := (hcons _).trans (congrArg (· + 1) (h.length us stop' hus hhead))
  unopened := hunopened
  closes hq := h.closes hq.tail
  first hzero g s r hq hg hs := by
    cases g with
    | nil =>
      obtain ⟨rfl, -⟩ := List.cons.inj hq
      exact absurd hzero (hsemicolon hs)
    | cons u g =>
      obtain ⟨rfl, rfl⟩ := List.cons.inj hq
      have hzero' : d' = 0 := (hd hg.head).trans hzero
      subst hzero hzero'
      obtain ⟨hr, hlength⟩ := h.first rfl g s r rfl hg.tail hs
      exact ⟨hr, fun us => (hcons _).trans (congrArg (· + 1) (hlength us))⟩

/-- The end of a text, or a token in front of which skipping stops. -/
theorem Skipped.nil (hlength : ∀ us stop', Text us stop' → us.headD stop' = left.headD stop → statementLength d us = 0)
    (hcloses : (left.headD stop).kind.closes = true) : Skipped stop d [] left where
  length := hlength
  unopened := Nat.zero_le d
  closes _ := hcloses
  first _ g s r hq := by simp at hq

/-- The last brace is skipped, and with it a semicolon behind it. -/
theorem skipped_last (ht : t.kind = .symbol .curlyClose) (hstop : stop.kind = .eof) :
    ∃ q left, t :: ts = q ++ left ∧ Skipped stop 1 q left := by
  have hends : t.kind.ends = true := by rw [ht]; rfl
  by_cases hnext : ts.head?.any (·.isSymbol .semicolon) = true
  · cases ts with
    | nil => simp at hnext
    | cons s ts =>
      have hs : s.kind = .symbol .semicolon := by simpa [Token.isSymbol] using hnext
      refine ⟨[t, s], ts, rfl, fun us stop' _ _ => ?_, ?_, fun h => absurd h (Endless.not_end (g := []) hends), ?_⟩
      · exact (statementLength_last ht).trans (if_pos hnext)
      · rw [unopened_close ht, unopened_semicolon hs]
        exact Nat.le_refl 1
      · exact fun h => absurd h (by decide)
  · refine ⟨[t], ts, rfl, fun us stop' hus hhead => ?_, ?_, fun h => absurd h (Endless.not_end (g := []) hends), ?_⟩
    · refine (statementLength_last ht).trans (if_neg fun hany => hnext ?_)
      cases us with
      | nil => simp at hany
      | cons u us =>
        have hu : u.kind = .symbol .semicolon := by simpa [Token.isSymbol] using hany
        cases ts with
        | nil => exact absurd (hu.symm.trans (congrArg Token.kind hhead)) (by simp [hstop])
        | cons s ts =>
          obtain rfl : u = s := hhead
          simp [Token.isSymbol, hu]
    · rw [unopened_close ht]
      exact Nat.le_refl 1
    · exact fun h => absurd h (by decide)

theorem statementLength_split (d : Nat) (htext : Text ts stop) : ∃ q left, ts = q ++ left ∧ Skipped stop d q left := by
  induction ts generalizing d with
  | nil =>
    refine ⟨[], [], rfl, .nil (fun us stop' hus hhead => ?_) ?_⟩
    · have heof : (us.headD stop').kind = .eof := by rw [hhead]; exact htext.stop
      rw [hus.eq_nil heof, statementLength]
    · rw [List.headD_nil, htext.stop]
      rfl
  | cons t ts ih =>
    have ih := fun d => ih d (show Text ([t] ++ ts) stop from htext).right
    by_cases hopen : t.kind = .symbol .curlyOpen
    · obtain ⟨q, left, rfl, h⟩ := ih (d + 1)
      have hunopened := h.unopened
      refine ⟨t :: q, left, rfl, h.cons (fun _ => statementLength_open hopen) ?_ ?_ ?_⟩
      · rw [unopened_open hopen]
        omega
      · simp [hopen, TokenKind.ends]
      · simp [hopen]
    by_cases hclose : t.kind = .symbol .curlyClose
    · rcases d with _ | _ | d
      · refine ⟨[], t :: ts, rfl, .nil (fun us stop' hus hhead => ?_) ?_⟩
        · cases us with
          | nil => exact absurd ((congrArg Token.kind hhead).symm.trans hus.stop) (by simp [hclose])
          | cons u us =>
            obtain rfl : u = t := hhead
            exact statementLength_outer hclose
        · rw [List.headD_cons, hclose]
          rfl
      · exact skipped_last hclose htext.stop
      · obtain ⟨q, left, rfl, h⟩ := ih (d + 1)
        have hunopened := h.unopened
        refine ⟨t :: q, left, rfl, h.cons (fun _ => statementLength_close hclose) ?_ ?_ ?_⟩
        · rw [unopened_close hclose]
          omega
        · simp [hclose, TokenKind.ends]
        · simp [hclose]
    by_cases hend : t.kind = .symbol .semicolon ∧ d = 0
    · obtain ⟨hs, rfl⟩ := hend
      have hends : t.kind.ends = true := by rw [hs]; rfl
      refine ⟨[t], ts, rfl, fun _ _ _ _ => statementLength_semicolon hs, ?_,
        fun h => absurd h (Endless.not_end (g := []) hends), fun _ g s r hq hg hk => ?_⟩
      · rw [unopened_semicolon hs]
        exact Nat.le_refl 0
      · obtain ⟨-, -, rfl⟩ := Endless.nil.end_inj hg hends (by rw [hk]; rfl) (show [] ++ t :: [] = g ++ s :: r from hq)
        exact ⟨rfl, fun _ => statementLength_semicolon hs⟩
    · have hsemicolon : t.kind = .symbol .semicolon → d ≠ 0 := fun hs hd => hend ⟨hs, hd⟩
      obtain ⟨q, left, rfl, h⟩ := ih d
      refine ⟨t :: q, left, rfl, h.cons (fun _ => statementLength_other hopen hclose hsemicolon) ?_ (fun _ => rfl) hsemicolon⟩
      rw [unopened_other hopen hclose]
      exact h.unopened

end Rule

/-- What comes of skipping a statement. -/
structure Outcome.Skip (stop : Token) (o : Outcome) : Prop where
  errors : o.errors = lexicalErrors o.taken
  recovering : o.recovering = false
  skipped : Skipped stop 0 o.taken o.left
  allows : ∀ us stop', (Text us stop' → statementLength 0 (o.taken ++ us) = o.taken.length) → o.allows us stop'

theorem Rule.local_skipStatement {stop : Token} {b : Bool} {ts : List Token} :
    Local stop b ts skipStatement fun _ o => o.Skip stop := by
  intro htext
  obtain ⟨q, left, rfl, h⟩ := statementLength_split 0 htext
  refine ⟨(), ⟨q, left, lexicalErrors q, false, fun us stop' => Text us stop' → statementLength 0 (q ++ us) = q.length⟩, rfl,
    fun hleft => h.length left stop hleft rfl, fun us stop' e hus hq => ?_, rfl, rfl, h, fun _ _ hq => hq⟩
  show ((), ParseState.mk ((q ++ us).drop (statementLength 0 (q ++ us))) stop'
    (e ++ lexicalErrors ((q ++ us).take (statementLength 0 (q ++ us)))) false) = _
  rw [hq hus, List.drop_left, List.take_left]

end Wordstack
