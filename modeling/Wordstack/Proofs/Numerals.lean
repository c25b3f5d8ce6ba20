/-
Whole numbers in a text. Their value is worked out in words, place by place from the last one on, and given up as soon as
something does not fit; that is so exactly if the number itself does not fit.
-/
import Mathlib
import Wordstack.Proofs.Scanning

namespace Wordstack

namespace Number

variable {base d n : Nat} {c : Char} {cs rest : List Char} {ds : List Nat}

/-! ## Values -/

/-- The number that digits stand for: each of them goes behind those before it. -/
def horner (base : Nat) (ds : List Nat) : Nat := ds.foldl (fun n d => base * n + d) 0

theorem horner_cons (base d : Nat) (ds : List Nat) :
    horner base (d :: ds) = d * Nat.pow base ds.length + horner base ds := by
  have hfrom (n : Nat) : ds.foldl (fun n d => base * n + d) n = n * Nat.pow base ds.length + horner base ds := by
    unfold horner
    induction ds generalizing n with
    | nil => simp
    | cons d ds ih =>
      have hpow : Nat.pow base (ds.length + 1) = Nat.pow base ds.length * base := rfl
      rw [List.foldl_cons, ih, List.foldl_cons, ih (base * 0 + d), List.length_cons, hpow, Nat.add_mul, Nat.mul_zero,
        Nat.zero_add, Nat.mul_comm base n, Nat.mul_assoc, Nat.mul_comm base, Nat.add_assoc]
  rw [horner, List.foldl_cons, hfrom, Nat.mul_zero, Nat.zero_add]

theorem word?_of_lt (h : n < UInt64.size) : word? n = some n.toUInt64 ∧ n.toUInt64.toNat = n :=
  ⟨if_pos h, UInt64.toNat_ofNat_of_lt' h⟩

theorem word?_of_le (h : UInt64.size ≤ n) : word? n = none := if_neg (Nat.not_lt.mpr h)

/-- No step fails before the value itself does not fit, and none goes through when it does not. -/
theorem value?_eq (base : Nat) (ds : List Nat) : value? base ds = word? (horner base ds) := by
  induction ds with
  | nil => rfl
  | cons d ds ih =>
    rw [value?, ih, horner_cons]
    by_cases hsum : UInt64.size ≤ horner base ds
    · rw [word?_of_le hsum, word?_of_le (Nat.le_add_left_of_le hsum)]
      rfl
    obtain ⟨hsum, hto⟩ := word?_of_lt (Nat.not_le.mp hsum)
    rw [hsum]
    by_cases hd : d = 0
    · rw [hd, Nat.zero_mul, Nat.zero_add, hsum]
      rfl
    have hle : Nat.pow base ds.length ≤ d * Nat.pow base ds.length := Nat.le_mul_of_pos_left _ (Nat.pos_of_ne_zero hd)
    simp only [Option.bind_eq_bind, Option.bind_some, if_neg hd]
    by_cases hterm : UInt64.size ≤ d * Nat.pow base ds.length
    · rw [word?_of_le (Nat.le_add_right_of_le hterm)]
      by_cases hweight : UInt64.size ≤ Nat.pow base ds.length
      · rw [word?_of_le hweight, Option.bind_none]
      · obtain ⟨hweight, hto⟩ := word?_of_lt (Nat.not_le.mp hweight)
        rw [hweight, Option.bind_some, hto, word?_of_le hterm, Option.bind_none]
    · obtain ⟨hweight, hto'⟩ := word?_of_lt (Nat.lt_of_le_of_lt hle (Nat.not_le.mp hterm))
      obtain ⟨hterm, hto''⟩ := word?_of_lt (Nat.not_le.mp hterm)
      rw [hweight, Option.bind_some, hto', hterm, Option.bind_some, hto, hto'', Nat.add_comm]

/-! ## Digits -/

/-- The character is the digit `d`, small or capital. -/
def Denotes (base : Nat) (c : Char) (d : Nat) : Prop := d < base ∧ (c = d.digitChar ∨ c = d.digitChar.toUpper)

instance : Decidable (Denotes base c d) := inferInstanceAs (Decidable (_ ∧ _))

/-- A row of characters that are digits one after the other. -/
theorem eq_digitChar {first : Char} (low : Nat)
    (hrow : ∀ k : Fin n, Char.ofNat (first.toNat + k) = (k + low).digitChar ∨
      Char.ofNat (first.toNat + k) = (k + low).digitChar.toUpper)
    (hc : first ≤ c) (hlast : c.toNat < first.toNat + n) (hd : some (c.toNat - first.toNat + low) = some d) :
    c = d.digitChar ∨ c = d.digitChar.toUpper := by
  have hle : first.toNat ≤ c.toNat := hc
  have hk := hrow ⟨c.toNat - first.toNat, by omega⟩
  simp only [Nat.add_sub_cancel' hle, Char.ofNat_toNat, Option.some.inj hd] at hk
  exact hk

theorem digit?_eq_some_iff (hbase : base ≤ 16) : digit? base c = some d ↔ Denotes base c d := by
  constructor
  · intro h
    obtain ⟨hvalue, hlt⟩ := Option.filter_eq_some_iff.mp h
    refine ⟨of_decide_eq_true hlt, ?_⟩
    split at hvalue
    next hc => exact eq_digitChar (n := 10) 0 (by decide) hc.1 (Nat.lt_succ_of_le hc.2) hvalue
    split at hvalue
    next hc => exact eq_digitChar (n := 6) 10 (by decide) hc.1 (Nat.lt_succ_of_le hc.2) hvalue
    split at hvalue
    next hc => exact eq_digitChar (n := 6) 10 (by decide) hc.1 (Nat.lt_succ_of_le hc.2) hvalue
    · cases hvalue
  · have hdigit : ∀ base : Fin 17, ∀ d : Fin base, digit? base d.val.digitChar = some d.val ∧
        digit? base d.val.digitChar.toUpper = some d.val := by decide +kernel
    rintro ⟨hd, rfl | rfl⟩
    · exact (hdigit ⟨base, Nat.lt_succ_of_le hbase⟩ ⟨d, hd⟩).1
    · exact (hdigit ⟨base, Nat.lt_succ_of_le hbase⟩ ⟨d, hd⟩).2

theorem denotes_of_isDigit (h : c.isDigit = true) : Denotes 10 c (c.toNat - '0'.toNat) := by
  obtain ⟨hle, hge⟩ : '0'.val ≤ c.val ∧ c.val ≤ '9'.val := by simpa [Char.isDigit] using h
  have hlt : c.toNat < '0'.toNat + 10 := Nat.lt_succ_of_le hge
  exact ⟨by omega, eq_digitChar 0 (by decide) hle hlt rfl⟩

theorem digits_eq_nil (hbase : base ≤ 16) (h : ∀ c ∈ rest.head?, ∀ d, ¬ Denotes base c d) : digits base rest = [] := by
  cases rest with
  | nil => rfl
  | cons c rest =>
    have hnone : digit? base c = none :=
      Option.eq_none_iff_forall_ne_some.mpr fun d hd => h c rfl d ((digit?_eq_some_iff hbase).mp hd)
    rw [digits, hnone]

theorem digits_append_of_denotes (hbase : base ≤ 16) (hds : List.Forall₂ (Denotes base) cs ds)
    (hend : ∀ c ∈ rest.head?, ∀ d, ¬ Denotes base c d) : digits base (cs ++ rest) = ds := by
  induction hds with
  | nil => exact digits_eq_nil hbase hend
  | cons hc _ ih => rw [List.cons_append, digits, (digit?_eq_some_iff hbase).mpr hc, ih]

/-- What tells the base of a number. -/
inductive Radix : Nat → List Char → Prop
  | decimal : Radix 10 []
  | hexadecimal {x : Char} (h : x = 'x' ∨ x = 'X') : Radix 16 ['0', x]
  | binary {x : Char} (h : x = 'b' ∨ x = 'B') : Radix 2 ['0', x]

theorem Radix.le {mark : List Char} (h : Radix base mark) : base ≤ 16 := by
  cases h <;> decide

end Number

open Number

/-! ## Numbers in front of a text -/

/-- A whole number with the digits `ds`, spelled `mark ++ cs`, that `rest` does not go on with. -/
structure Numeral (base : Nat) (mark cs rest : List Char) (ds : List Nat) : Prop where
  radix : Radix base mark
  digits : List.Forall₂ (Denotes base) cs ds
  nonempty : cs ≠ []
  ended : ∀ c ∈ rest.head?, ∀ d, ¬ Denotes base c d
  noFraction : base = 10 → ∀ more, rest = '.' :: more → ∀ c ∈ more.head?, ∀ d, ¬ Denotes 10 c d
  noMark : base = 10 → cs = ['0'] → ∀ x ∈ rest.head?, x ∉ ['x', 'X', 'b', 'B']

/-- What a whole number is read as. -/
def Number.meaning (base : Nat) (ds : List Nat) : TokenKind × Literal :=
  if ds.length ≤ maxDigits ∧ horner base ds < UInt64.size then (.integer, .unsigned (horner base ds).toUInt64)
  else (.error .oversizedToken, .none)

namespace Lexeme

theorem whole_eq {ds : List Nat} (hds : ds ≠ []) (base skipped : Nat) :
    whole base skipped ds = ⟨(meaning base ds).1, (meaning base ds).2, skipped + ds.length - 1⟩ := by
  have hempty : ds.isEmpty = false := List.isEmpty_eq_false_iff.mpr hds
  unfold whole meaning
  simp only [hempty, Bool.false_eq_true, if_false, value?_eq]
  by_cases hmost : ds.length ≤ maxDigits
  · by_cases hfits : horner base ds < UInt64.size
    · simp only [if_neg (Nat.not_lt.mpr hmost), (word?_of_lt hfits).1, hmost, hfits, and_self, if_true]
    · simp only [if_neg (Nat.not_lt.mpr hmost), word?_of_le (Nat.not_lt.mp hfits), hfits, and_false, if_false]
  · simp only [if_pos (Nat.not_le.mp hmost), hmost, false_and, if_false]

/-- A number is decimal unless its second character chooses another base. -/
theorem number_eq_decimal (h : ∀ x ∈ cs.head?, c = '0' → x ∉ ['x', 'X', 'b', 'B']) : number c cs = decimal (c :: cs) := by
  unfold number
  split
  next x rest =>
    have hx := h x rfl rfl
    simp only [List.mem_cons, List.not_mem_nil, or_false, not_or] at hx
    rw [if_neg (not_or.mpr ⟨hx.1, hx.2.1⟩), if_neg (not_or.mpr ⟨hx.2.2.1, hx.2.2.2⟩)]
  · rfl

end Lexeme

namespace Numeral

variable {base : Nat} {mark cs rest : List Char} {ds : List Nat}

theorem digits_eq (h : Numeral base mark cs rest ds) : Number.digits base (cs ++ rest) = ds :=
  digits_append_of_denotes h.radix.le h.digits h.ended

theorem ne_nil (h : Numeral base mark cs rest ds) : ds ≠ [] := fun hds =>
  h.nonempty (List.length_eq_zero_iff.mp (h.digits.length_eq.trans (List.length_eq_zero_iff.mpr hds)))

theorem decimal_eq (h : Numeral 10 mark cs rest ds) :
    Lexeme.decimal (cs ++ rest) = ⟨(meaning 10 ds).1, (meaning 10 ds).2, cs.length - 1⟩ := by
  have hdrop : (cs ++ rest).drop ds.length = rest := by rw [← h.digits.length_eq, List.drop_left]
  have hwhole := Lexeme.whole_eq h.ne_nil 10 0
  rw [Nat.zero_add, ← h.digits.length_eq] at hwhole
  unfold Lexeme.decimal
  simp only [h.digits_eq, hdrop, hwhole]
  split
  next v more hv =>
    have hfraction : Number.digits 10 more = [] := digits_eq_nil (by decide) (h.noFraction rfl more rfl)
    simp only [hfraction, List.isEmpty_nil, if_true]
  · rfl

/-- A digit of a number in base ten starts neither a word nor a gap and chooses no base. -/
theorem of_denotes {c : Char} {d : Nat} (h : Denotes 10 c d) :
    Lexeme.isWordStart c = false ∧ c.isDigit = true ∧ isBlank c = false ∧ c ≠ '/' ∧ c ∉ ['x', 'X', 'b', 'B'] := by
  have hall : ∀ d < 10, d.digitChar.toUpper = d.digitChar ∧ Lexeme.isWordStart d.digitChar = false ∧ d.digitChar.isDigit = true ∧
      isBlank d.digitChar = false ∧ d.digitChar ≠ '/' ∧ d.digitChar ∉ ['x', 'X', 'b', 'B'] := by decide
  obtain ⟨hupper, hplain⟩ := hall d h.1
  obtain rfl : c = d.digitChar := by simpa [hupper] using h.2
  exact hplain

theorem marked_eq {x : Char} (h : Numeral base mark cs rest ds)
    (hnumber : Lexeme.number '0' (x :: (cs ++ rest)) = .whole base 2 (Number.digits base (cs ++ rest))) :
    Lexeme.ofText '0' (x :: cs ++ rest) = ⟨(meaning base ds).1, (meaning base ds).2, (x :: cs).length⟩ := by
  have hlast : 2 + ds.length - 1 = (x :: cs).length := by
    rw [← h.digits.length_eq, List.length_cons]
    omega
  have hofText : Lexeme.ofText '0' (x :: (cs ++ rest)) = .number '0' (x :: (cs ++ rest)) := rfl
  rw [List.cons_append, hofText, hnumber, h.digits_eq, Lexeme.whole_eq h.ne_nil, hlast]

theorem ofText_eq (h : Numeral base mark cs rest ds) : ∃ c more, mark ++ cs = c :: more ∧
      Gap.length .blank (c :: (more ++ rest)) = 0 ∧
        Lexeme.ofText c (more ++ rest) = ⟨(meaning base ds).1, (meaning base ds).2, more.length⟩ := by
  have hzero (cs : List Char) : Gap.length .blank ('0' :: cs) = 0 :=
    Gap.length_eq_zero.mpr ⟨by decide, fun _ _ h => absurd h (by decide)⟩
  cases h.radix with
  | hexadecimal hx => exact ⟨'0', _, rfl, hzero _, h.marked_eq (if_pos hx)⟩
  | binary hx =>
    refine ⟨'0', _, rfl, hzero _, h.marked_eq ?_⟩
    rcases hx with rfl | rfl <;> rfl
  | decimal =>
    have hdecimal := h.decimal_eq
    obtain ⟨c, more, rfl⟩ := List.exists_cons_of_ne_nil h.nonempty
    obtain ⟨d, ds, hc, hmore, rfl⟩ := List.forall₂_cons_left_iff.mp h.digits
    obtain ⟨hword, hdigit, hblank, hslash, -⟩ := of_denotes hc
    have hmark : ∀ x ∈ (more ++ rest).head?, c = '0' → x ∉ ['x', 'X', 'b', 'B'] := by
      rintro x hx rfl
      cases hmore with
      | nil => exact h.noMark rfl rfl x hx
      | cons hy _ =>
        cases hx
        exact (of_denotes hy).2.2.2.2
    refine ⟨c, more, rfl, Gap.length_eq_zero.mpr ⟨hblank, fun _ _ h => absurd h hslash⟩, ?_⟩
    rw [Lexeme.ofText, if_neg (ne_true_of_eq_false hword), if_pos hdigit, Lexeme.number_eq_decimal hmark, ← List.cons_append,
      hdecimal, List.length_cons, Nat.add_sub_cancel]

theorem next_eq (h : Numeral base mark cs rest ds) (pos : Position) :
    Cursor.next ⟨mark ++ cs ++ rest, pos⟩ =
      (⟨(meaning base ds).1, String.ofList (mark ++ cs), ⟨pos, pos.advance (mark ++ cs)⟩, (meaning base ds).2⟩,
        ⟨rest, pos.advance (mark ++ cs)⟩) := by
  obtain ⟨c, more, htext, hgap, hofText⟩ := h.ofText_eq
  have hskip : Cursor.skipGap ⟨c :: (more ++ rest), pos⟩ = ⟨c :: (more ++ rest), pos⟩ := by
    rw [Cursor.skipGap, hgap]
    rfl
  have htake : (c :: (more ++ rest)).take (more.length + 1) = c :: more := congrArg (c :: ·) List.take_left
  have hdrop : (c :: (more ++ rest)).drop (more.length + 1) = rest := List.drop_left
  rw [htext, List.cons_append, Cursor.next, hskip]
  simp only [hofText, Cursor.token, Cursor.skip, htake, hdrop]

/-- A whole number is one token, which spans its mark and its digits. It has the value of the digits if there are not too
many of them and the value fits a word, and it is too long otherwise. -/
theorem integers_scanned (h : Numeral base mark cs rest ds) (pos : Position) :
    ∃ t, Cursor.next ⟨mark ++ cs ++ rest, pos⟩ = (t, ⟨rest, pos.advance (mark ++ cs)⟩) ∧
      t.text = String.ofList (mark ++ cs) ∧ t.span = ⟨pos, pos.advance (mark ++ cs)⟩ ∧
      (cs.length ≤ 64 → horner base ds < 2 ^ 64 →
        t.kind = .integer ∧ ∃ v, t.literal = .unsigned v ∧ v.toNat = horner base ds) ∧
      (64 < cs.length ∨ 2 ^ 64 ≤ horner base ds → t.kind = .error .oversizedToken ∧ t.literal = .none) := by
  refine ⟨_, h.next_eq pos, rfl, rfl, fun hmost hfits => ?_, fun hlong => ?_⟩
  · rw [h.digits.length_eq] at hmost
    rw [meaning, if_pos ⟨hmost, hfits⟩]
    exact ⟨rfl, _, rfl, (word?_of_lt hfits).2⟩
  · have hnot : ¬(ds.length ≤ maxDigits ∧ horner base ds < UInt64.size) := by
      rintro ⟨hmost, hfits⟩
      rw [h.digits.length_eq] at hlong
      exact hlong.elim (Nat.not_lt.mpr hmost) (Nat.not_le.mpr hfits)
    rw [meaning, if_neg hnot]
    exact ⟨rfl, rfl⟩

/-- The greatest word with a zero before it, in both cases, before a letter that is no digit. -/
theorem integers_scanned_greatest :
    ∃ t, Cursor.next ⟨"0X0fFfFfFfFfFfFfFfFg".toList, {}⟩ = (t, ⟨['g'], Position.advance {} "0X0fFfFfFfFfFfFfFfF".toList⟩) ∧
      t.kind = .integer ∧ t.literal = .unsigned 0xffffffffffffffff := by
  have h : Numeral 16 ['0', 'X'] "0fFfFfFfFfFfFfFfF".toList ['g'] (0 :: List.replicate 16 15) := {
    radix := .hexadecimal (.inr rfl)
    digits := by decide
    nonempty := by decide
    ended := by
      rintro c ⟨⟩ d hd
      cases (digit?_eq_some_iff (by decide)).mpr hd
    noFraction := fun h => by cases h
    noMark := fun h => by cases h }
  obtain ⟨t, hnext, -, -, hvalue, -⟩ := integers_scanned h {}
  obtain ⟨hkind, v, hliteral, hv⟩ := hvalue (by decide) (by decide)
  exact ⟨t, hnext, hkind, hliteral.trans (congrArg _ (UInt64.toNat_inj.mp hv))⟩

end Numeral

end Wordstack
