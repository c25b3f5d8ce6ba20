/-
What a token of some kind carries. The scanner gives every literal a value of the form that its kind
asks for, whatever the text.
-/
import Wordstack.Proofs.Whole
import Wordstack.Token.Scan

namespace Wordstack

/-- A literal of this kind has a value of this form. -/
def TokenKind.Carries (kind : TokenKind) (literal : Literal) : Prop :=
  match kind with
  | .integer | .keyword .trueWord | .keyword .falseWord => ∃ v, literal = .unsigned v
  | .float => ∃ bits, literal = .float bits
  | .string => ∃ text, literal = .text text
  | _ => True

/-- Neither the end of the text nor a string that is left open. -/
def TokenKind.Closed (kind : TokenKind) : Prop := kind ≠ .eof ∧ kind ≠ .error .unterminatedString

namespace Keyword

/-- Those are left that go on like the word. To end early loses no one. -/
theorem eliminate_eq_filter (candidates : List (List Char × TokenKind)) (column : Nat) (word : List Char) :
    eliminate candidates column word = candidates.filter fun x => word.isPrefixOf (x.1.drop column) := by
  induction word generalizing candidates column with
  | nil => exact (List.filter_eq_self.mpr fun _ _ => rfl).symm
  | cons c cs ih =>
    have hstep : eliminate candidates column (c :: cs) =
        eliminate (candidates.filter fun x => x.1[column]? == some c) (column + 1) cs := by
      rw [eliminate]
      split
      next h =>
        refine Eq.trans ?_ (congrArg (eliminate · (column + 1) cs) h.symm)
        cases cs <;> rfl
      next => rfl
    rw [hstep, ih, List.filter_filter]
    refine List.filter_congr fun x _ => ?_
    rw [← List.drop_drop, ← List.head?_drop]
    cases x.1.drop column with
    | nil => exact Bool.and_false _
    | cons d ds => simp [List.isPrefixOf, Bool.and_comm, Bool.beq_comm]

/-- Who begins like a word and is as long is the word. -/
theorem recognise?_eq_lookup (word : List Char) : recognise? word = (table.find? (·.1 == word)).map (·.2) := by
  rw [recognise?, eliminate_eq_filter, List.find?_filter]
  refine congrArg _ (congrArg (table.find? ·) (funext fun x => ?_))
  rw [Bool.eq_iff_iff, decide_eq_true_iff, List.isPrefixOf_iff_prefix, List.drop_zero, beq_iff_eq, beq_iff_eq]
  constructor
  · intro ⟨hstart, hlength⟩
    exact (hstart.eq_of_length hlength.symm).symm
  · intro heq
    exact ⟨heq ▸ List.prefix_rfl, congrArg _ heq⟩

/-- No two reserved words are spelled alike. -/
theorem find?_of_mem_table : ∀ x ∈ table, table.find? (·.1 == x.1) = some x := by decide

theorem recognise?_eq_some {word : List Char} {kind : TokenKind} : recognise? word = some kind ↔ (word, kind) ∈ table := by
  rw [recognise?_eq_lookup, Option.map_eq_some_iff]
  constructor
  · rintro ⟨⟨spelling, kind⟩, hfound, rfl⟩
    have hspelling := List.find?_some hfound
    obtain rfl : spelling = word := beq_iff_eq.mp hspelling
    exact List.mem_of_find?_eq_some hfound
  · intro hmem
    exact ⟨_, find?_of_mem_table _ hmem, rfl⟩

/-- Reserved words are keywords and the names of primitive types. -/
theorem recognise?_cases {word : List Char} {kind : TokenKind} (h : recognise? word = some kind) :
    (∃ k, kind = .keyword k) ∨ ∃ p, kind = .primitive p := by
  have hmem := recognise?_eq_some.mp h
  simp only [table, List.mem_append, List.mem_map] at hmem
  rcases hmem with ⟨k, -, heq⟩ | ⟨p, -, heq⟩
  · exact .inl ⟨k, (congrArg Prod.snd heq).symm⟩
  · exact .inr ⟨p, (congrArg Prod.snd heq).symm⟩

end Keyword

namespace Lexeme

theorem carries_word (c : Char) (cs : List Char) : (word c cs).kind.Carries (word c cs).literal := by
  unfold word
  dsimp only
  split
  · trivial
  split
  · exact ⟨1, rfl⟩
  · exact ⟨0, rfl⟩
  next kind htrue hfalse hk =>
    rcases Keyword.recognise?_cases hk with ⟨k, rfl⟩ | ⟨p, rfl⟩
    · cases k <;> trivial
    · trivial
  · trivial

theorem carries_whole (base skipped : Nat) (digits : List Nat) :
    (whole base skipped digits).kind.Carries (whole base skipped digits).literal := by
  unfold whole
  dsimp only
  split
  · trivial
  split
  · trivial
  split
  · trivial
  next v _ => exact ⟨v, rfl⟩

theorem carries_decimal (cs : List Char) : (decimal cs).kind.Carries (decimal cs).literal := by
  unfold decimal
  dsimp only
  split
  · split
    · exact carries_whole ..
    split
    · trivial
    · exact ⟨_, rfl⟩
  · exact carries_whole ..

theorem carries_ofText (c : Char) (cs : List Char) : (ofText c cs).kind.Carries (ofText c cs).literal := by
  unfold ofText
  split
  · exact carries_word c cs
  split
  · unfold number
    split
    · split
      · exact carries_whole ..
      split
      · exact carries_whole ..
      · exact carries_decimal _
    · exact carries_decimal _
  split
  · unfold string
    split
    · trivial
    · exact ⟨_, rfl⟩
  split
  · trivial
  · trivial

/-! ## Kinds -/

theorem closed_word (c : Char) (cs : List Char) : (word c cs).kind.Closed := by
  unfold word
  dsimp only
  split
  · exact ⟨nofun, nofun⟩
  split
  · exact ⟨nofun, nofun⟩
  · exact ⟨nofun, nofun⟩
  next kind _ _ hk =>
    rcases Keyword.recognise?_cases hk with ⟨k, rfl⟩ | ⟨p, rfl⟩ <;> exact ⟨nofun, nofun⟩
  · exact ⟨nofun, nofun⟩

theorem closed_whole (base skipped : Nat) (digits : List Nat) : (whole base skipped digits).kind.Closed := by
  unfold whole
  dsimp only
  split
  · exact ⟨nofun, nofun⟩
  split
  · exact ⟨nofun, nofun⟩
  split <;> exact ⟨nofun, nofun⟩

theorem closed_decimal (cs : List Char) : (decimal cs).kind.Closed := by
  unfold decimal
  dsimp only
  split
  · split
    · exact closed_whole ..
    split <;> exact ⟨nofun, nofun⟩
  · exact closed_whole ..

theorem closed_number (c : Char) (cs : List Char) : (number c cs).kind.Closed := by
  unfold number
  split
  · split
    · exact closed_whole ..
    split
    · exact closed_whole ..
    · exact closed_decimal _
  · exact closed_decimal _

theorem kind_ofText_ne_eof (c : Char) (cs : List Char) : (ofText c cs).kind ≠ .eof := by
  unfold ofText
  split
  · exact (closed_word c cs).1
  split
  · exact (closed_number c cs).1
  split
  · unfold string
    split <;> exact nofun
  split <;> exact nofun

/-- A string that is left open reaches to the end of the text. -/
theorem more_of_open {c : Char} {cs : List Char} (h : (ofText c cs).kind = .error .unterminatedString) :
    (ofText c cs).more = cs.length := by
  unfold ofText at h ⊢
  split at h
  · exact absurd h (closed_word c cs).2
  next hword =>
    rw [if_neg hword]
    split at h
    · exact absurd h (closed_number c cs).2
    next hdigit =>
      rw [if_neg hdigit]
      split at h
      next hquote =>
        rw [if_pos hquote]
        unfold string at h ⊢
        split at h
        · rfl
        · cases h
      · split at h <;> cases h

end Lexeme

def Token.Formed (t : Token) : Prop := t.kind.Carries t.literal

def Token.IsLiteralOrName (t : Token) : Prop :=
  t.kind = .integer ∨ t.kind = .float ∨ t.kind = .string ∨ t.kind = .ident ∨
    t.kind = .keyword .trueWord ∨ t.kind = .keyword .falseWord

theorem Token.Formed.isValue {t : Token} (h : t.Formed) (hk : t.IsLiteralOrName) : t.IsValue := by
  unfold Token.Formed TokenKind.Carries at h
  rcases hk with hk | hk | hk | hk | hk | hk <;> simp only [hk] at h <;>
    first
    | (obtain ⟨v, hv⟩ := h; simp [Token.IsValue, hk, hv])
    | simp [Token.IsValue, hk]

theorem Cursor.formed_tokens (c : Cursor) : (∀ t ∈ c.tokens.tokens, t.Formed) ∧ c.tokens.stop.kind = .eof := by
  induction c using Cursor.tokens.induct with
  | case1 c h =>
    rw [Cursor.tokens, dif_pos h]
    refine ⟨by simp, ?_⟩
    simp only [Cursor.next, h]
    rfl
  | case2 c h _ ih =>
    rw [Cursor.tokens, dif_neg h]
    refine ⟨List.forall_mem_cons.mpr ⟨?_, ih.1⟩, ih.2⟩
    unfold Cursor.next
    dsimp only
    split
    next hr => exact absurd hr h
    · exact Lexeme.carries_ofText _ _

end Wordstack
