/-
Scanning a text that is put together from tokens. A token is read back from its own
text, whatever follows, as long as that does not start with a character that could go
on with the token; a space never does.
-/
import Wordstack.Token.Scan

namespace Wordstack

variable {c : Char} {cs : List Char}

/-! ## Tokens and their texts -/

/-- The token without its place. -/
def Token.bare (t : Token) : Token := { t with span := default }

def TokenKind.isError : TokenKind → Bool
  | .error _ => true
  | _ => false

/-- Whether the text of a token is read as that token. -/
def Token.spelled (t : Token) : Bool :=
  match t.text.toList with
  | [] => false
  | c :: cs =>
    let l := Lexeme.ofText c cs
    Gap.length .blank (c :: cs) == 0 && l.kind == t.kind && l.literal == t.literal && l.more == cs.length &&
      !t.kind.isError

/-- The text of the token is read as that token, whether it is in error or not. -/
def Token.Legible (t : Token) : Prop :=
  ∃ c cs, t.text.toList = c :: cs ∧ Gap.length .blank (c :: cs) = 0 ∧ Lexeme.ofText c cs = ⟨t.kind, t.literal, cs.length⟩

theorem Token.legible_of_spelled {t : Token} (h : t.spelled = true) : t.Legible ∧ t.kind ≠ .error .unterminatedString := by
  unfold Token.spelled at h
  split at h
  · cases h
  next c cs htext =>
    simp only [Bool.and_eq_true, beq_iff_eq, Bool.not_eq_true'] at h
    obtain ⟨⟨⟨⟨hgap, hkind⟩, hliteral⟩, hmore⟩, herror⟩ := h
    refine ⟨⟨c, cs, htext, hgap, ?_⟩, fun hopen => by rw [hopen] at herror; cases herror⟩
    rw [← hkind, ← hliteral, ← hmore]

/-- A character that goes on with no token and makes no comment. -/
def separates (c : Char) : Bool := !Lexeme.isWordPart c && !(['.', '/', '*', '>', '=', '<', '&', '|'].contains c)

/-- What follows a token starts with such a character, if there is anything. -/
def Separated (cs : List Char) : Prop := ∀ c ∈ cs.head?, separates c = true

theorem Separated.nil : Separated [] := by simp [Separated]

theorem Separated.cons {c : Char} {cs : List Char} (h : separates c = true) : Separated (c :: cs) := by simpa [Separated]

namespace Lexeme

variable {rest : List Char}

theorem takeWhile_append (h : Separated rest) (cs : List Char) :
    (cs ++ rest).takeWhile isWordPart = cs.takeWhile isWordPart := by
  induction cs with
  | nil =>
    cases rest with
    | nil => rfl
    | cons c rest =>
      have hc : isWordPart c = false := by
        have := h c rfl
        simp only [separates, Bool.and_eq_true, Bool.not_eq_true'] at this
        exact this.1
      simp [hc]
  | cons c cs ih => simp only [List.cons_append, List.takeWhile_cons, ih]

theorem word_append (h : Separated rest) (c : Char) (cs : List Char) : word c (cs ++ rest) = word c cs := by
  unfold word
  rw [takeWhile_append h]

theorem isWordPart_eq (c : Char) : isWordPart c =
      (decide ('A'.val ≤ c.val ∧ c.val ≤ 'Z'.val) || (decide ('a'.val ≤ c.val) && decide (c.val ≤ 'z'.val)) ||
        (decide ('0'.val ≤ c.val) && decide (c.val ≤ '9'.val)) || c == '_') :=
  rfl

theorem digit?_of_separates (h : separates c = true) (base : Nat) : Number.digit? base c = none := by
  have hword : isWordPart c = false := by
    simp only [separates, Bool.and_eq_true, Bool.not_eq_true'] at h
    exact h.1
  simp only [isWordPart_eq, Bool.or_eq_false_iff, Bool.and_eq_false_iff, decide_eq_false_iff_not] at hword
  have hnone : ∀ a b : Char, ¬(a.val ≤ c.val) ∨ ¬(c.val ≤ b.val) → ¬(a ≤ c ∧ c ≤ b) := fun a b hab hle =>
    hab.elim (fun h => h hle.1) fun h => h hle.2
  unfold Number.digit?
  rw [if_neg (hnone '0' '9' (by grind)), if_neg (hnone 'a' 'f' (by grind)), if_neg (hnone 'A' 'F' (by grind))]
  rfl

theorem digits_append (h : Separated rest) (base : Nat) (cs : List Char) :
    Number.digits base (cs ++ rest) = Number.digits base cs := by
  induction cs with
  | nil =>
    cases rest with
    | nil => rfl
    | cons c rest =>
      show Number.digits base (c :: rest) = []
      rw [Number.digits, digit?_of_separates (h c rfl)]
  | cons c cs ih =>
    rw [List.cons_append, Number.digits, Number.digits]
    cases Number.digit? base c with
    | none => rfl
    | some d => simp only [ih]

theorem length_digits_le (base : Nat) (cs : List Char) : (Number.digits base cs).length ≤ cs.length := by
  induction cs with
  | nil => simp [Number.digits]
  | cons c cs ih =>
    rw [Number.digits]
    split <;> simp [ih]

theorem decimal_append (h : Separated rest) (cs : List Char) : decimal (cs ++ rest) = decimal cs := by
  have hdrop : (cs ++ rest).drop (Number.digits 10 cs).length = cs.drop (Number.digits 10 cs).length ++ rest :=
    List.drop_append_of_le_length (length_digits_le 10 cs)
  unfold decimal
  simp only [digits_append h, hdrop]
  cases (whole 10 0 (Number.digits 10 cs)).literal with
  | unsigned v =>
    cases cs.drop (Number.digits 10 cs).length with
    | nil =>
      cases rest with
      | nil => rfl
      | cons c rest =>
        have hc : c ≠ '.' := by
          rintro rfl
          exact absurd (h '.' rfl) (by decide)
        simp [hc]
    | cons c more =>
      by_cases hc : c = '.'
      · subst hc
        simp only [List.cons_append, digits_append h]
      · simp [hc]
  | _ => rfl

theorem number_append (h : Separated rest) (c : Char) (cs : List Char) : number c (cs ++ rest) = number c cs := by
  have hdecimal := decimal_append h (c :: cs)
  unfold number
  cases cs with
  | nil =>
    cases rest with
    | nil => rfl
    | cons x rest =>
      have hx : x ≠ 'x' ∧ x ≠ 'X' ∧ x ≠ 'b' ∧ x ≠ 'B' := by
        refine ⟨?_, ?_, ?_, ?_⟩ <;> rintro rfl <;> exact absurd (h _ rfl) (by decide)
      by_cases hc : c = '0'
      · subst hc
        simpa [hx] using hdecimal
      · simpa [hc] using hdecimal
  | cons x cs =>
    by_cases hc : c = '0'
    · subst hc
      simp only [List.cons_append, digits_append h]
      rw [← List.cons_append, ← List.cons_append, hdecimal]
    · simpa [hc] using hdecimal

theorem untilQuote?_append {n : Nat} (h : untilQuote? cs = some n) (rest : List Char) :
    untilQuote? (cs ++ rest) = some n ∧ n ≤ cs.length := by
  fun_induction untilQuote? cs generalizing n with
  | case1 => cases h
  | case2 cs =>
    cases h
    exact ⟨rfl, Nat.zero_le _⟩
  | case3 c cs ih =>
    obtain ⟨k, hk, rfl⟩ := Option.map_eq_some_iff.mp h
    obtain ⟨happend, hle⟩ := ih hk
    refine ⟨?_, by simpa using hle⟩
    simp only [List.cons_append, untilQuote?, happend, Option.map_some]
  | case4 c cs hquote hescape ih =>
    obtain ⟨k, hk, rfl⟩ := Option.map_eq_some_iff.mp h
    obtain ⟨happend, hle⟩ := ih hk
    refine ⟨?_, by simpa using hle⟩
    -- a backslash at the end of the text would take a character of the rest along, but no quote is found then
    cases cs with
    | nil => cases hk
    | cons d cs =>
      rw [List.cons_append, untilQuote?, happend]
      · rfl
      · exact hquote
      · rintro e es rfl _
        exact hescape d cs rfl rfl

theorem symbol?_append (h : Separated rest) (c : Char) (cs : List Char) : symbol? c (cs ++ rest).head? = symbol? c cs.head? := by
  cases cs with
  | cons d cs => rfl
  | nil =>
    cases rest with
    | nil => rfl
    | cons d rest =>
      have hd : d ≠ '>' ∧ d ≠ '=' ∧ d ≠ '&' ∧ d ≠ '|' ∧ d ≠ '<' := by
        refine ⟨?_, ?_, ?_, ?_, ?_⟩ <;> rintro rfl <;> exact absurd (h _ rfl) (by decide)
      simp [symbol?, hd]

/-- What follows a lexeme does not change it. An open string has nothing behind it. -/
theorem ofText_append (h : Separated rest)
    (hopen : (ofText c cs).kind = .error .unterminatedString → rest = []) : ofText c (cs ++ rest) = ofText c cs := by
  have hstring : ((string cs).kind = .error .unterminatedString → rest = []) → string (cs ++ rest) = string cs := by
    intro hopen
    unfold string at hopen ⊢
    cases hn : untilQuote? cs with
    | none =>
      rw [hn] at hopen
      rw [hopen rfl, List.append_nil, hn]
    | some n =>
      obtain ⟨happend, hle⟩ := untilQuote?_append hn rest
      rw [happend]
      simp only [List.take_append_of_le_length hle]
  unfold ofText at hopen ⊢
  rw [word_append h, number_append h, symbol?_append h]
  by_cases hword : isWordStart c = true
  · simp only [if_pos hword]
  by_cases hdigit : c.isDigit = true
  · simp only [if_neg hword, if_pos hdigit]
  by_cases hquote : c = '"'
  · simp only [if_neg hword, if_neg hdigit, if_pos hquote] at hopen ⊢
    exact hstring hopen
  · simp only [if_neg hquote]

end Lexeme

theorem Gap.length_eq_zero :
    Gap.length .blank (c :: cs) = 0 ↔ isBlank c = false ∧ ∀ d ∈ cs.head?, c = '/' → d ≠ '/' ∧ d ≠ '*' := by
  by_cases hcomment : ∃ d ds, c = '/' ∧ cs = d :: ds ∧ (d = '/' ∨ d = '*')
  · obtain ⟨d, ds, rfl, rfl, rfl | rfl⟩ := hcomment <;> simp [Gap.length]
  · rw [Gap.length]
    · cases cs with
      | nil => by_cases hb : isBlank c = true <;> simp [hb]
      | cons d ds =>
        have hd : c = '/' → d ≠ '/' ∧ d ≠ '*' := fun hc =>
          ⟨fun h => hcomment ⟨d, ds, hc, rfl, .inl h⟩, fun h => hcomment ⟨d, ds, hc, rfl, .inr h⟩⟩
        by_cases hb : isBlank c = true
        · simp [hb]
        · simpa [hb] using hd
    · exact fun ds hc hcs => hcomment ⟨'/', ds, hc, hcs, .inl rfl⟩
    · exact fun ds hc hcs => hcomment ⟨'*', ds, hc, hcs, .inr rfl⟩

theorem Gap.length_append {rest : List Char} (h : Gap.length .blank (c :: cs) = 0) (hr : Separated rest) :
    Gap.length .blank (c :: cs ++ rest) = 0 := by
  rw [Gap.length_eq_zero] at h
  rw [List.cons_append, Gap.length_eq_zero]
  refine ⟨h.1, ?_⟩
  cases cs with
  | cons d cs => exact h.2
  | nil =>
    rintro d hd -
    have hs := hr d hd
    constructor <;> rintro rfl <;> exact absurd hs (by decide)

/-! ## Texts and their tokens -/

/-- A text spells tokens if it is put together from them and from spaces, with nothing behind a token that could go on
with it. -/
inductive Spells : List Char → List Token → Prop
  | nil : Spells [] []
  | blank {cs : List Char} {ts : List Token} (h : Spells cs ts) : Spells (' ' :: cs) ts
  | token {t : Token} {cs : List Char} {ts : List Token} (ht : t.spelled = true) (hc : Separated cs) (h : Spells cs ts) :
    Spells (t.text.toList ++ cs) (t :: ts)

namespace Cursor

theorem skipGap_blank (cs : List Char) (pos : Position) : (⟨' ' :: cs, pos⟩ : Cursor).skipGap = (⟨cs, pos.after ' '⟩ : Cursor).skipGap := by
  have : Gap.length .blank (' ' :: cs) = Gap.length .blank cs + 1 := by
    simp [Gap.length, isBlank]
  unfold skipGap
  rw [this]
  rfl

theorem tokens_nil {c : Cursor} (h : c.skipGap.rest = []) : c.tokens = ⟨[], c.next.1⟩ := by
  rw [Cursor.tokens, dif_pos h]

theorem tokens_cons {c : Cursor} (h : c.skipGap.rest ≠ []) :
    c.tokens = ⟨c.next.1 :: c.next.2.tokens.tokens, c.next.2.tokens.stop⟩ := by
  rw [Cursor.tokens, dif_neg h]

theorem tokens_congr {c c' : Cursor} (h : c.skipGap = c'.skipGap) : c.tokens = c'.tokens := by
  have hnext : c.next = c'.next := by
    unfold next
    rw [h]
  by_cases hrest : c'.skipGap.rest = []
  · rw [tokens_nil hrest, tokens_nil (h ▸ hrest), hnext]
  · have hrest' : c.skipGap.rest ≠ [] := h ▸ hrest
    rw [tokens_cons hrest, tokens_cons hrest', hnext]

/-- A token that can be read is read where its text stands, if what follows lets it end there. -/
theorem next_of_legible {t : Token} (ht : t.Legible) (hc : Separated cs)
    (hopen : t.kind = .error .unterminatedString → cs = []) (pos : Position) :
    (⟨t.text.toList ++ cs, pos⟩ : Cursor).skipGap.rest ≠ [] ∧
      ∃ u pos', (⟨t.text.toList ++ cs, pos⟩ : Cursor).next = (u, ⟨cs, pos'⟩) ∧ u.bare = t.bare := by
  obtain ⟨x, xs, htext, hgap, hlexeme⟩ := ht
  have happend : Lexeme.ofText x (xs ++ cs) = ⟨t.kind, t.literal, xs.length⟩ := by
    rw [Lexeme.ofText_append hc (by rwa [hlexeme]), hlexeme]
  have hskip : (⟨t.text.toList ++ cs, pos⟩ : Cursor).skipGap = ⟨x :: (xs ++ cs), pos⟩ := by
    unfold skipGap
    rw [htext, Gap.length_append hgap hc]
    rfl
  refine ⟨by simp [hskip], ?_⟩
  unfold next
  rw [hskip]
  simp only [happend]
  have hrest : (⟨x :: (xs ++ cs), pos⟩ : Cursor).skip (xs.length + 1) = ⟨cs, pos.advance ((x :: (xs ++ cs)).take (xs.length + 1))⟩ := by
    rw [skip, List.drop_succ_cons, List.drop_left]
  have htake : String.ofList ((x :: (xs ++ cs)).take (xs.length + 1)) = t.text := by
    rw [List.take_succ_cons, List.take_left, ← htext, String.ofList_toList]
  refine ⟨_, _, congrArg (Prod.mk _) hrest, ?_⟩
  show (⟨_, String.ofList _, default, _⟩ : Token) = ⟨_, _, default, _⟩
  rw [htake]
  rfl

/-- The tokens that a text spells are found in it. -/
theorem tokens_of_spells {ts : List Token} (h : Spells cs ts) (pos : Position) :
    (⟨cs, pos⟩ : Cursor).tokens.tokens.map Token.bare = ts.map Token.bare := by
  induction h generalizing pos with
  | nil =>
    rw [tokens_nil rfl]
  | blank _ ih => rw [tokens_congr (skipGap_blank _ pos), ih]
  | token ht hc _ ih =>
    obtain ⟨hlegible, hopen⟩ := Token.legible_of_spelled ht
    obtain ⟨hrest, u, pos', hnext, hu⟩ := next_of_legible hlegible hc (fun h => absurd h hopen) pos
    rw [tokens_cons hrest, hnext]
    simp only [List.map_cons, hu, ih]

end Cursor
end Wordstack
