/-
Scanning what was scanned. A token takes as many characters as it can, so nothing of it is lost when its text
stands alone: each token is read back from its own text, and a space behind it changes nothing. That
goes for tokens in error, too. Only an open string would take the space along, but it is always the last token.
-/
import Mathlib.Data.List.TakeWhile
import Wordstack.Proofs.Literals
import Wordstack.Proofs.Numerals

namespace Wordstack

variable {c : Char} {cs : List Char} {n : Nat}

/-! ## Lexemes and their own texts -/

namespace Lexeme

theorem more_word (c : Char) (cs : List Char) : (word c cs).more = (cs.takeWhile isWordPart).length := by
  unfold word
  dsimp only
  split
  · rfl
  split <;> rfl

theorem more_whole (base skipped : Nat) (digits : List Nat) : (whole base skipped digits).more = skipped + digits.length - 1 := by
  unfold whole
  dsimp only
  split
  · rfl
  split
  · rfl
  split <;> rfl

theorem word_take (c : Char) (cs : List Char) : word c (cs.take (word c cs).more) = word c cs := by
  have htake : cs.take (cs.takeWhile isWordPart).length = cs.takeWhile isWordPart :=
    (List.prefix_iff_eq_take.mp (List.takeWhile_prefix _)).symm
  rw [more_word, htake]
  unfold word
  rw [List.takeWhile_idem]

theorem digits_take (base n : Nat) (cs : List Char) : Number.digits base (cs.take n) = (Number.digits base cs).take n := by
  induction cs generalizing n with
  | nil => simp [Number.digits]
  | cons c cs ih =>
    cases n with
    | zero => rfl
    | succ n =>
      rw [List.take_succ_cons, Number.digits, Number.digits]
      cases Number.digit? base c with
      | none => rfl
      | some d => simp only [ih, List.take_succ_cons]

/-- The digits of a number are read back from as many characters. -/
theorem digits_take_length (base : Nat) (cs : List Char) :
    Number.digits base (cs.take (Number.digits base cs).length) = Number.digits base cs := by
  rw [digits_take, List.take_length]

theorem digits_ne_nil (h : c.isDigit = true) (cs : List Char) : Number.digits 10 (c :: cs) ≠ [] := by
  rw [Number.digits, (Number.digit?_eq_some_iff (by decide)).mpr (Number.denotes_of_isDigit h)]
  exact List.cons_ne_nil _ _

/-- A decimal number is a whole number, or it has a point and a fraction and takes all digits of both. -/
theorem more_decimal (cs : List Char) : decimal cs = whole 10 0 (Number.digits 10 cs) ∨
      ∃ rest, cs.drop (Number.digits 10 cs).length = '.' :: rest ∧
        (decimal cs).more = (Number.digits 10 cs).length + (Number.digits 10 rest).length := by
  unfold decimal
  dsimp only
  split
  next v rest hliteral hdrop =>
    split
    · exact .inl rfl
    · refine .inr ⟨rest, hdrop, ?_⟩
      split <;> rfl
  · exact .inl rfl

theorem decimal_take (h : Number.digits 10 cs ≠ []) :
    decimal (cs.take ((decimal cs).more + 1)) = decimal cs ∧ (decimal cs).more < cs.length := by
  have hpos : 0 < (Number.digits 10 cs).length := List.length_pos_iff.mpr h
  have hlength := length_digits_le 10 cs
  rcases more_decimal cs with hwhole | ⟨rest, hdrop, hmore⟩
  · have hmore : (decimal cs).more + 1 = (Number.digits 10 cs).length := by
      rw [hwhole, more_whole]
      omega
    have hend : (cs.take (Number.digits 10 cs).length).drop (Number.digits 10 cs).length = [] :=
      List.drop_eq_nil_of_le (List.length_take_le _ _)
    refine ⟨?_, by omega⟩
    rw [hmore, hwhole]
    unfold decimal
    simp only [digits_take_length, hend]
    cases (whole 10 0 (Number.digits 10 cs)).literal <;> rfl
  · have hdigits : Number.digits 10 (cs.take ((decimal cs).more + 1)) = Number.digits 10 cs := by
      rw [digits_take, List.take_of_length_le (by omega)]
    have hpoint : (cs.take ((decimal cs).more + 1)).drop (Number.digits 10 cs).length =
        '.' :: rest.take (Number.digits 10 rest).length := by
      rw [List.drop_take, hdrop, hmore, Nat.add_assoc, Nat.add_sub_cancel_left, List.take_succ_cons]
    constructor
    · generalize hm : (decimal cs).more + 1 = m at hdigits hpoint
      unfold decimal
      simp only [hdigits, hpoint, hdrop]
      cases (whole 10 0 (Number.digits 10 cs)).literal with
      | unsigned v => simp only [digits_take_length]
      | _ => rfl
    · have hrest := length_digits_le 10 rest
      have hle : (cs.drop (Number.digits 10 cs).length).length = rest.length + 1 := by rw [hdrop, List.length_cons]
      rw [List.length_drop] at hle
      omega

theorem head?_take {x : Char} (h : x ∈ (cs.take n).head?) : x ∈ cs.head? := by
  cases n with
  | zero => cases h
  | succ n =>
    cases cs with
    | nil => cases h
    | cons c cs => exact h

theorem number_take (hc : c.isDigit = true) (cs : List Char) :
    number c (cs.take (number c cs).more) = number c cs ∧ (number c cs).more ≤ cs.length := by
  by_cases hbase : ∀ x ∈ cs.head?, c = '0' → x ∉ ['x', 'X', 'b', 'B']
  · obtain ⟨htake, hlt⟩ := decimal_take (digits_ne_nil hc cs)
    rw [number_eq_decimal hbase, number_eq_decimal fun x hx => hbase x (head?_take hx)]
    exact ⟨htake, Nat.le_of_lt_succ hlt⟩
  · -- behind the sign of the base there are only digits
    have hwhole : ∀ base x rest, (∀ rest, number '0' (x :: rest) = whole base 2 (Number.digits base rest)) →
        number '0' ((x :: rest).take (number '0' (x :: rest)).more) = number '0' (x :: rest) ∧
          (number '0' (x :: rest)).more ≤ (x :: rest).length := by
      intro base x rest hnumber
      have hmore : (number '0' (x :: rest)).more = (Number.digits base rest).length + 1 := by
        rw [hnumber, more_whole]
        omega
      rw [hmore, List.take_succ_cons, hnumber, hnumber, digits_take_length, List.length_cons]
      exact ⟨rfl, Nat.succ_le_succ (length_digits_le base rest)⟩
    simp only [not_forall, Decidable.not_not] at hbase
    obtain ⟨x, hx, rfl, hmem⟩ := hbase
    obtain ⟨rest, rfl⟩ : ∃ rest, cs = x :: rest := by
      cases cs with
      | nil => cases hx
      | cons y ys => cases hx; exact ⟨ys, rfl⟩
    simp only [List.mem_cons, List.not_mem_nil, or_false] at hmem
    rcases hmem with rfl | rfl | rfl | rfl
    · exact hwhole 16 _ rest fun _ => rfl
    · exact hwhole 16 _ rest fun _ => rfl
    · exact hwhole 2 _ rest fun _ => rfl
    · exact hwhole 2 _ rest fun _ => rfl

theorem untilQuote?_take (h : untilQuote? cs = some n) : untilQuote? (cs.take (n + 1)) = some n ∧ n < cs.length := by
  fun_induction untilQuote? cs generalizing n with
  | case1 => cases h
  | case2 cs =>
    cases h
    exact ⟨rfl, Nat.succ_pos _⟩
  | case3 c cs ih =>
    obtain ⟨k, hk, rfl⟩ := Option.map_eq_some_iff.mp h
    obtain ⟨htake, hlt⟩ := ih hk
    refine ⟨?_, by simpa using hlt⟩
    rw [List.take_succ_cons, List.take_succ_cons, untilQuote?, htake]
    rfl
  | case4 c cs hquote hescape ih =>
    obtain ⟨k, hk, rfl⟩ := Option.map_eq_some_iff.mp h
    obtain ⟨htake, hlt⟩ := ih hk
    refine ⟨?_, by simpa using hlt⟩
    rw [List.take_succ_cons, untilQuote?, htake]
    · rfl
    · exact hquote
    · -- a backslash is not the last character here, so it would have taken the next one along
      rintro d ds rfl -
      cases cs with
      | nil => cases hk
      | cons e es => exact hescape e es rfl rfl

theorem string_take (cs : List Char) : string (cs.take (string cs).more) = string cs ∧ (string cs).more ≤ cs.length := by
  unfold string
  cases hn : untilQuote? cs with
  | none => simp only [List.take_length, hn, Nat.le_refl, and_self]
  | some n =>
    obtain ⟨htake, hlt⟩ := untilQuote?_take hn
    simp only [htake, List.take_take, Nat.min_eq_left (Nat.le_succ n), true_and]
    exact hlt

/-- A symbol of one character is found without the next one. -/
theorem symbol?_short (c d : Char) : symbol? c (some d) = symbol? c none ∨ ∃ s, symbol? c (some d) = some (s, 1) := by
  by_cases hd : d ∈ ['>', '=', '&', '|', '<']
  · simp only [List.mem_cons, List.not_mem_nil, or_false] at hd
    unfold symbol?
    rcases hd with rfl | rfl | rfl | rfl | rfl <;> split <;> first | exact .inl rfl | exact .inr ⟨_, rfl⟩
  · simp only [List.mem_cons, List.not_mem_nil, or_false, not_or] at hd
    exact .inl (by simp [symbol?, hd])

theorem symbol?_take {s : Symbol} (h : symbol? c cs.head? = some (s, n)) :
    symbol? c (cs.take n).head? = some (s, n) ∧ n ≤ cs.length := by
  have hlone : ∀ {s : Symbol} {n : Nat}, symbol? c none = some (s, n) → n = 0 := by
    intro s n h
    unfold symbol? at h
    split at h <;> cases h <;> rfl
  cases cs with
  | nil => exact ⟨by rw [List.take_nil]; exact h, Nat.le_of_eq (hlone h)⟩
  | cons d ds =>
    rcases symbol?_short c d with hshort | ⟨s', hlong⟩
    · obtain rfl := hlone (hshort ▸ h)
      exact ⟨hshort ▸ h, Nat.zero_le _⟩
    · obtain ⟨rfl, rfl⟩ := Prod.mk.inj (Option.some.inj (hlong.symm.trans h))
      exact ⟨hlong, Nat.succ_pos _⟩

/-- A lexeme is read back from its own text. -/
theorem ofText_take (c : Char) (cs : List Char) :
    ofText c (cs.take (ofText c cs).more) = ofText c cs ∧ (ofText c cs).more ≤ cs.length := by
  unfold ofText
  by_cases hword : isWordStart c = true
  · simp only [if_pos hword]
    refine ⟨word_take c cs, ?_⟩
    rw [more_word]
    exact (List.takeWhile_prefix _).length_le
  by_cases hdigit : c.isDigit = true
  · simp only [if_neg hword, if_pos hdigit]
    exact number_take hdigit cs
  by_cases hquote : c = '"'
  · simp only [if_neg hword, if_neg hdigit, if_pos hquote]
    exact string_take cs
  simp only [if_neg hword, if_neg hdigit, if_neg hquote]
  cases hsymbol : symbol? c cs.head? with
  | some p =>
    obtain ⟨htake, hle⟩ := symbol?_take hsymbol
    simp only [htake, hle, and_self]
  | none =>
    have hnone : symbol? c none = none := by
      cases cs with
      | nil => exact hsymbol
      | cons d ds =>
        rcases symbol?_short c d with hshort | ⟨s, hlong⟩
        · exact hshort.symm.trans hsymbol
        · cases hlong.symm.trans hsymbol
    simp only [List.take_zero, List.head?_nil, hnone, Nat.zero_le, and_self]

end Lexeme

/-! ## Gaps -/

/-- Behind white space and comments there is no more of them. -/
theorem Gap.length_drop (g : Gap) (cs : List Char) : Gap.length .blank (cs.drop (Gap.length g cs)) = 0 := by
  fun_induction Gap.length g cs with
  | case1 => rfl
  | case2 cs ih => exact ih
  | case3 cs ih => exact ih
  | case4 c cs hline hblock hb ih => exact ih
  | case5 c cs hline hblock hb =>
    refine Gap.length_eq_zero.mpr ⟨Bool.eq_false_iff.mpr hb, fun d hd hc => ⟨?_, ?_⟩⟩
    · rintro rfl
      obtain ⟨ds, rfl⟩ := List.head?_eq_some_iff.mp hd
      exact hline ds hc rfl
    · rintro rfl
      obtain ⟨ds, rfl⟩ := List.head?_eq_some_iff.mp hd
      exact hblock ds hc rfl
  | case6 cs ih => exact ih
  | case7 c cs hc ih => exact ih
  | case8 cs ih => exact ih
  | case9 c cs hend ih => exact ih

theorem Gap.length_take (h : Gap.length .blank (c :: cs) = 0) (n : Nat) : Gap.length .blank (c :: cs.take n) = 0 := by
  rw [Gap.length_eq_zero] at h ⊢
  exact ⟨h.1, fun d hd => h.2 d (Lexeme.head?_take hd)⟩

/-! ## Texts put together from tokens -/

/-- Tokens that are read back from their texts with spaces between them. -/
def Legible : List Token → Prop
  | [] => True
  | t :: ts => t.Legible ∧ (t.kind = .error .unterminatedString → ts = []) ∧ Legible ts

namespace Cursor

/-- The next token is read back from its own text. -/
theorem legible_next {c : Cursor} (h : c.skipGap.rest ≠ []) : c.next.1.Legible := by
  obtain ⟨x, xs, hx⟩ := List.exists_cons_of_ne_nil h
  have hgap : Gap.length .blank (x :: xs) = 0 := hx ▸ Gap.length_drop .blank c.rest
  obtain ⟨hlexeme, hle⟩ := Lexeme.ofText_take x xs
  have hnext : c.next.1 = c.skipGap.token (Lexeme.ofText x xs).kind (Lexeme.ofText x xs).literal ((Lexeme.ofText x xs).more + 1) := by
    simp only [next, hx]
  refine ⟨x, xs.take (Lexeme.ofText x xs).more, ?_, Gap.length_take hgap _, ?_⟩
  · rw [hnext]
    show (String.ofList (c.skipGap.rest.take _)).toList = _
    rw [hx, String.toList_ofList, List.take_succ_cons]
  · rw [hnext, hlexeme, List.length_take_of_le hle]
    rfl

/-- There is nothing behind a string that is left open. -/
theorem tokens_of_open {c : Cursor} (h : c.skipGap.rest ≠ []) (hopen : c.next.1.kind = .error .unterminatedString) :
    c.next.2.tokens.tokens = [] := by
  obtain ⟨x, xs, hx⟩ := List.exists_cons_of_ne_nil h
  have hkind : (Lexeme.ofText x xs).kind = .error .unterminatedString := by
    simp only [next, hx] at hopen
    exact hopen
  have hrest : c.next.2.rest = [] := by
    simp only [next, hx, rest_skip, Lexeme.more_of_open hkind]
    exact List.drop_length
  have hskip : c.next.2.skipGap.rest = [] := by
    rw [skipGap, rest_skip, hrest, List.drop_nil]
  rw [tokens_nil hskip]

theorem legible_tokens (c : Cursor) : Legible c.tokens.tokens := by
  induction c using Cursor.tokens.induct with
  | case1 c hend =>
    rw [tokens_nil hend]
    trivial
  | case2 c hend _ ih =>
    rw [tokens_cons hend]
    exact ⟨legible_next hend, tokens_of_open hend, ih⟩

end Cursor

/-- The tokens are found in their texts with single spaces between them. -/
theorem Cursor.tokens_joined {ts : List Token} (h : Legible ts) (pos : Position) :
    (⟨(String.intercalate " " (ts.map (·.text))).toList, pos⟩ : Cursor).tokens.tokens.map Token.bare = ts.map Token.bare := by
  induction ts generalizing pos with
  | nil => rw [tokens_nil rfl]
  | cons t ts ih =>
    obtain ⟨ht, hopen, hts⟩ := h
    -- what follows the token: nothing, or a space and the texts of the others
    obtain ⟨rest, htext, hsep, hend, hrest⟩ : ∃ rest,
        (String.intercalate " " ((t :: ts).map (·.text))).toList = t.text.toList ++ rest ∧ Separated rest ∧
          (ts = [] → rest = []) ∧ ∀ pos, (⟨rest, pos⟩ : Cursor).tokens.tokens.map Token.bare = ts.map Token.bare := by
      cases ts with
      | nil => exact ⟨[], by simp, .nil, fun _ => rfl, fun pos => ih hts pos⟩
      | cons u us =>
        refine ⟨' ' :: (String.intercalate " " ((u :: us).map (·.text))).toList, ?_, .cons rfl, nofun, fun pos => ?_⟩
        · simp [String.intercalate_cons_cons]
        · rw [tokens_congr (skipGap_blank _ pos)]
          exact ih hts _
    obtain ⟨hne, u, pos', hnext, hu⟩ := next_of_legible ht hsep (fun h => hend (hopen h)) pos
    rw [htext, tokens_cons hne, hnext, List.map_cons, List.map_cons, hu, hrest]

/-- **Scanning gives the tokens back.** If the texts of all tokens are put behind one another, with a space between
each and the next, the same tokens are found: of the same kinds, with the same texts and the same values. -/
theorem scan_joined (source : String) :
    (scan (String.intercalate " " ((scan source).tokens.map (·.text)))).tokens.map Token.bare =
      (scan source).tokens.map Token.bare :=
  Cursor.tokens_joined (Cursor.legible_tokens (.ofSource source)) {}

end Wordstack
