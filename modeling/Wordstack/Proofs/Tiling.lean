/-
Tokens and the text that they are cut from. Reading token after token goes through the
whole text: what a token says about its place is true of the text, and what lies between
two tokens is white space and comments.

Texts are read by characters here, while places count bytes. `Position.Counts` ties the
two together: no character but the newline has the newline's byte in it.
-/
import Wordstack.Proofs.Literals

namespace Wordstack

/-! ## Places in a text -/

/-- The bytes of a text in front of an offset. -/
def bytesBefore (source : String) (offset : Nat) : List UInt8 := source.toByteArray.data.toList.take offset

/-- The line behind some bytes: one more than there are newlines among them. -/
def lineAfter (bytes : List UInt8) : Nat := bytes.count 10 + 1

/-- The column behind some bytes: one more than there are bytes since the last newline. -/
def columnAfter (bytes : List UInt8) : Nat := (bytes.reverse.takeWhile (· != 10)).length + 1

/-- The part of a text between two offsets. There is none if one of them lies inside of a character. -/
def slice? (source : String) (start stop : Nat) : Option String :=
  if h : (⟨start⟩ : String.Pos.Raw).IsValid source ∧ (⟨stop⟩ : String.Pos.Raw).IsValid source ∧ start ≤ stop then
    some (source.extract ⟨⟨start⟩, h.1⟩ ⟨⟨stop⟩, h.2.1⟩)
  else none

/-- A place of the text, between two characters, with the line and the column that it has there. -/
structure Position.InText (source : String) (p : Position) : Prop where
  boundary : (⟨p.offset⟩ : String.Pos.Raw).IsValid source
  line : p.line = lineAfter (bytesBefore source p.offset)
  col : p.col = columnAfter (bytesBefore source p.offset)

/-- The token reads what the text holds at its place. -/
structure Token.InText (source : String) (t : Token) : Prop where
  start : t.span.start.InText source
  stop : t.span.stop.InText source
  text : slice? source t.span.start.offset t.span.stop.offset = some t.text

/-- White space and comments. Only where the text ends may a comment be left open. -/
inductive Trivia : (atEnd : Bool) → List Char → Prop
  | nil {atEnd} : Trivia atEnd []
  | blank {atEnd c cs} : c ∈ [' ', '\t', '\n', '\x0c', '\r'] → Trivia atEnd cs → Trivia atEnd (c :: cs)
  | line {atEnd body cs} : '\n' ∉ body → Trivia atEnd cs → Trivia atEnd ('/' :: '/' :: body ++ '\n' :: cs)
  | openLine {body} : '\n' ∉ body → Trivia true ('/' :: '/' :: body)
  | block {atEnd body cs} : ¬ ['*', '/'] <:+: body ++ ['*'] → Trivia atEnd cs →
      Trivia atEnd ('/' :: '*' :: body ++ '*' :: '/' :: cs)
  | openBlock {body} : ¬ ['*', '/'] <:+: body → Trivia true ('/' :: '*' :: body)

/-- The tokens and the end-of-file token cover the text from `offset` on, but for white space and
comments. -/
def Tiles (source : String) (offset : Nat) (stop : Token) : List Token → Prop
  | [] =>
    (∃ gap, slice? source offset stop.span.start.offset = some gap ∧ Trivia true gap.toList) ∧
      stop.InText source ∧ stop.kind = .eof ∧ stop.text = "" ∧ stop.span.start.offset = source.utf8ByteSize
  | t :: ts =>
    (∃ gap, slice? source offset t.span.start.offset = some gap ∧ Trivia false gap.toList) ∧
      t.InText source ∧ t.kind ≠ .eof ∧ t.text ≠ "" ∧ Tiles source t.span.stop.offset stop ts

/-! ## Slices -/

theorem isValid_append (pre post : String) : (⟨pre.utf8ByteSize⟩ : String.Pos.Raw).IsValid (pre ++ post) :=
  String.Pos.Raw.isValid_iff_exists_append.mpr ⟨pre, post, rfl, rfl⟩

theorem slice?_append (pre mid post : String) :
    slice? (pre ++ mid ++ post) pre.utf8ByteSize (pre.utf8ByteSize + mid.utf8ByteSize) = some mid := by
  have hstart : (⟨pre.utf8ByteSize⟩ : String.Pos.Raw).IsValid (pre ++ mid ++ post) := by
    rw [String.append_assoc]
    exact isValid_append _ _
  have hstop : (⟨pre.utf8ByteSize + mid.utf8ByteSize⟩ : String.Pos.Raw).IsValid (pre ++ mid ++ post) := by
    rw [← String.utf8ByteSize_append]
    exact isValid_append _ _
  have hbytes : (pre ++ mid ++ post).toByteArray.extract pre.utf8ByteSize (pre.utf8ByteSize + mid.utf8ByteSize) =
      mid.toByteArray := by
    rw [String.append_assoc, String.toByteArray_append, String.toByteArray_append, ← String.size_toByteArray,
      ← String.size_toByteArray]
    exact (ByteArray.extract_append_size_add (i := 0)).trans (ByteArray.extract_append_eq_left rfl)
  unfold slice?
  rw [dif_pos ⟨hstart, hstop, Nat.le_add_right _ _⟩]
  exact congrArg some (String.toByteArray_inj.mp (String.toByteArray_extract.trans hbytes))

/-! ## Characters and bytes -/

/-- The bytes of a list of characters. -/
def bytesOf (cs : List Char) : List UInt8 := cs.flatMap String.utf8EncodeChar

theorem bytesOf_append (cs ds : List Char) : bytesOf (cs ++ ds) = bytesOf cs ++ bytesOf ds := List.flatMap_append

theorem toList_data_ofList (cs : List Char) : (String.ofList cs).toByteArray.data.toList = bytesOf cs := by
  rw [String.toByteArray_ofList, List.utf8Encode, List.data_toByteArray]
  rfl

theorem length_bytesOf (cs : List Char) : (bytesOf cs).length = (String.ofList cs).utf8ByteSize := by
  rw [← toList_data_ofList, Array.length_toList, ← String.size_toByteArray]
  rfl

theorem bytesBefore_ofList (cs ds : List Char) : bytesBefore (String.ofList (cs ++ ds)) (bytesOf cs).length = bytesOf cs := by
  rw [bytesBefore, toList_data_ofList, bytesOf_append, List.take_left]

/-- Of all characters only the newline has the newline's byte in it: the bytes of a character that
takes more than one are all above the ASCII range. -/
theorem newline_notMem_utf8EncodeChar {c : Char} (h : c ≠ '\n') : 10 ∉ String.utf8EncodeChar c := by
  have hval : c.val.toNat ≠ 10 := fun he => h (Char.ext (UInt32.toNat_inj.mp he))
  have hnat : ∀ n < 256, n ≠ 10 → (10 : UInt8) ≠ UInt8.ofNat n := by
    intro n hn hne he
    have := congrArg UInt8.toNat he
    rw [UInt8.toNat_ofNat_of_lt' hn] at this
    exact hne this.symm
  unfold String.utf8EncodeChar
  dsimp only
  split
  · simp only [List.mem_singleton]
    exact hnat _ (by omega) hval
  split
  · simp only [List.mem_cons, List.not_mem_nil, or_false, not_or]
    exact ⟨hnat _ (by omega) (by omega), hnat _ (by omega) (by omega)⟩
  split
  · simp only [List.mem_cons, List.not_mem_nil, or_false, not_or]
    exact ⟨hnat _ (by omega) (by omega), hnat _ (by omega) (by omega), hnat _ (by omega) (by omega)⟩
  · simp only [List.mem_cons, List.not_mem_nil, or_false, not_or]
    exact ⟨hnat _ (by omega) (by omega), hnat _ (by omega) (by omega), hnat _ (by omega) (by omega),
      hnat _ (by omega) (by omega)⟩

namespace Position

/-- The place behind some bytes. -/
structure Counts (p : Position) (bytes : List UInt8) : Prop where
  offset : p.offset = bytes.length
  line : p.line = lineAfter bytes
  col : p.col = columnAfter bytes

theorem Counts.start : ({} : Position).Counts [] := ⟨rfl, rfl, rfl⟩

theorem Counts.after {p : Position} {bytes : List UInt8} (h : p.Counts bytes) (c : Char) :
    (p.after c).Counts (bytes ++ String.utf8EncodeChar c) := by
  unfold Position.after
  split
  next hc =>
    have hbytes : String.utf8EncodeChar '\n' = [10] := rfl
    rw [hc, hbytes]
    exact ⟨by simp [h.offset], by simp [lineAfter, h.line], by simp [columnAfter]⟩
  next hc =>
    have hno := newline_notMem_utf8EncodeChar hc
    have hall : ∀ b ∈ (String.utf8EncodeChar c).reverse, (b != 10) = true := by
      intro b hb
      rw [bne_iff_ne]
      rintro rfl
      exact hno (List.mem_reverse.mp hb)
    refine ⟨by simp [h.offset], ?_, ?_⟩
    · simp only [lineAfter, List.count_append, List.count_eq_zero.mpr hno, Nat.add_zero]
      exact h.line
    · simp only [columnAfter, List.reverse_append, List.takeWhile_append_of_pos hall, List.length_append,
        List.length_reverse, String.length_utf8EncodeChar]
      rw [h.col, columnAfter]
      omega

theorem Counts.advance {p : Position} {bytes : List UInt8} (h : p.Counts bytes) (cs : List Char) :
    (p.advance cs).Counts (bytes ++ bytesOf cs) := by
  induction cs generalizing p bytes with
  | nil => simpa [bytesOf] using h
  | cons c cs ih =>
    have := ih (h.after c)
    rwa [List.append_assoc] at this

end Position

/-! ## Cursors in a text -/

/-- The cursor stands in `source` behind the characters `before`. -/
structure Cursor.At (source : String) (before : List Char) (c : Cursor) : Prop where
  text : source = String.ofList (before ++ c.rest)
  pos : c.pos = Position.advance {} before

namespace Cursor.At

variable {source : String} {before : List Char} {c : Cursor}

theorem ofSource (source : String) : (Cursor.ofSource source).At source [] :=
  ⟨String.ofList_toList.symm, rfl⟩

theorem skip (h : c.At source before) (n : Nat) : (c.skip n).At source (before ++ c.rest.take n) where
  text := by rw [h.text, rest_skip, List.append_assoc, List.take_append_drop]
  pos := by rw [Cursor.skip, h.pos, Position.advance_append]

theorem counts (h : c.At source before) : c.pos.Counts (bytesOf before) := by
  rw [h.pos]
  exact Position.Counts.start.advance before

theorem offset (h : c.At source before) : c.pos.offset = (String.ofList before).utf8ByteSize := by
  rw [h.counts.offset, length_bytesOf]

theorem inText (h : c.At source before) : c.pos.InText source where
  boundary := by
    rw [h.offset, h.text, String.ofList_append]
    exact isValid_append _ _
  line := by rw [h.counts.line, h.counts.offset, h.text, bytesBefore_ofList]
  col := by rw [h.counts.col, h.counts.offset, h.text, bytesBefore_ofList]

/-- What lies between two stands of the cursor is what it has gone past. -/
theorem slice?_skip (h : c.At source before) (n : Nat) :
    slice? source c.pos.offset (c.skip n).pos.offset = some (String.ofList (c.rest.take n)) := by
  have htext : source = String.ofList before ++ String.ofList (c.rest.take n) ++ String.ofList (c.rest.drop n) := by
    rw [h.text, ← String.ofList_append, ← String.ofList_append, List.append_assoc, List.take_append_drop]
  rw [h.offset, (h.skip n).offset, String.ofList_append, String.utf8ByteSize_append, htext]
  exact slice?_append _ _ _

theorem token (h : c.At source before) (kind : TokenKind) (literal : Literal) (n : Nat) :
    (c.token kind literal n).InText source :=
  ⟨h.inText, (h.skip n).inText, h.slice?_skip n⟩

end Cursor.At

/-! ## Between tokens -/

namespace Gap

/-- How a gap starts of which `done` has been read. -/
def opening : Gap → List Char → List Char
  | .blank, _ => []
  | .lineComment, done => '/' :: '/' :: done
  | .blockComment, done => '/' :: '*' :: done

/-- The comment has not come to its end in `done`, not even with the next character of the text. -/
def Continues : Gap → (done text : List Char) → Prop
  | .blank, _, _ => True
  | .lineComment, done, _ => '\n' ∉ done
  | .blockComment, done, text => ¬ ['*', '/'] <:+: done ++ text.take 1

theorem infix_append_pair {a b x y : Char} {l : List Char} (h : [a, b] <:+: l ++ [x, y]) :
    [a, b] <:+: l ++ [x] ∨ (a = x ∧ b = y) := by
  obtain ⟨s, t, hst⟩ := h
  rcases List.eq_nil_or_concat t with rfl | ⟨t, z, rfl⟩
  · right
    have : s ++ [a, b] = l ++ [x, y] := by simpa using hst
    have := List.append_inj_right' this rfl
    simpa using this
  · left
    refine ⟨s, t, ?_⟩
    have : (s ++ [a, b] ++ t) ++ [z] = (l ++ [x]) ++ [y] := by simpa using hst
    exact List.append_inj_left' this rfl

/-- Nothing but white space and comments is skipped. -/
theorem trivia (g : Gap) (text : List Char) : ∀ done, g.Continues done text →
    Trivia (text.drop (g.length text)).isEmpty (g.opening done ++ text.take (g.length text)) := by
  induction g, text using Gap.length.induct with
  | case1 g =>
    intro done h
    cases g with
    | blank => exact .nil
    | lineComment => simpa [Gap.length, opening] using Trivia.openLine h
    | blockComment => simpa [Gap.length, opening] using Trivia.openBlock (by simpa [Continues] using h)
  | case2 cs ih =>
    intro done _
    simpa [Gap.length, opening] using ih [] (by simp [Continues])
  | case3 cs ih =>
    intro done _
    have hone : ¬ ['*', '/'] <:+: [] ++ cs.take 1 := fun hin => by
      have hle := hin.length_le
      simp only [List.nil_append, List.length_take, List.length_cons, List.length_nil] at hle
      omega
    simpa [Gap.length, opening] using ih [] hone
  | case4 c cs h₁ h₂ hc ih =>
    intro done _
    simp only [Gap.length, hc, if_true]
    refine .blank ?_ (ih done trivial)
    simpa [isBlank, or_assoc] using hc
  | case5 c cs h₁ h₂ hc =>
    intro done _
    simp only [Gap.length, hc]
    exact .nil
  | case6 cs ih =>
    intro done h
    simpa [Gap.length, opening] using Trivia.line h (ih [] trivial)
  | case7 c cs hc ih =>
    intro done h
    have hdone : '\n' ∉ done ++ [c] := by
      simp only [List.mem_append, List.mem_singleton, not_or]
      exact ⟨h, fun he => hc he.symm⟩
    simpa [Gap.length, opening, hc] using ih (done ++ [c]) hdone
  | case8 cs ih =>
    intro done h
    simpa [Gap.length, opening] using Trivia.block h (ih [] trivial)
  | case9 c cs hc ih =>
    intro done h
    simp only [Gap.length]
    -- an end that the next character makes would have been the case before
    have hdone : ¬ ['*', '/'] <:+: (done ++ [c]) ++ cs.take 1 := by
      cases cs with
      | nil => simpa [Continues] using h
      | cons d cs =>
        intro hin
        rcases infix_append_pair (l := done) (by simpa using hin) with hin | ⟨rfl, rfl⟩
        · exact h hin
        · exact hc cs rfl rfl
    simpa [opening] using ih (done ++ [c]) hdone

end Gap

/-! ## Tokens -/

namespace Cursor

theorem next_of_nil {c : Cursor} (h : c.skipGap.rest = []) : c.next = (c.skipGap.token .eof .none 0, c.skipGap) := by
  simp only [next, h]

theorem next_of_cons {c : Cursor} {x : Char} {xs : List Char} (h : c.skipGap.rest = x :: xs) :
    c.next = (c.skipGap.token (Lexeme.ofText x xs).kind (Lexeme.ofText x xs).literal ((Lexeme.ofText x xs).more + 1),
      c.skipGap.skip ((Lexeme.ofText x xs).more + 1)) := by
  simp only [next, h]

variable {source : String} {before : List Char} {c : Cursor}

/-- What is skipped in front of a token. -/
theorem At.gap (h : c.At source before) : ∃ gap,
    slice? source c.pos.offset c.skipGap.pos.offset = some gap ∧ Trivia c.skipGap.rest.isEmpty gap.toList := by
  refine ⟨_, h.slice?_skip _, ?_⟩
  rw [String.toList_ofList]
  exact Gap.trivia .blank c.rest [] trivial

/-- Reading all tokens goes through the whole text. -/
theorem At.tiles (h : c.At source before) : Tiles source c.pos.offset c.tokens.stop c.tokens.tokens := by
  induction c using Cursor.tokens.induct generalizing before with
  | case1 c hend =>
    rw [Cursor.tokens, dif_pos hend, next_of_nil hend]
    obtain ⟨gap, hgap, htrivia⟩ := h.gap
    have hskip := h.skip (Gap.length .blank c.rest)
    rw [hend] at htrivia
    refine ⟨⟨gap, hgap, htrivia⟩, hskip.token _ _ 0, rfl, rfl, ?_⟩
    show c.skipGap.pos.offset = _
    have htext : source = String.ofList (before ++ c.rest.take (Gap.length .blank c.rest)) := by
      have htext := hskip.text
      rwa [show (c.skip (Gap.length .blank c.rest)).rest = [] from hend, List.append_nil] at htext
    rw [htext]
    exact hskip.offset
  | case2 c hend _ ih =>
    obtain ⟨x, xs, hx⟩ : ∃ x xs, c.skipGap.rest = x :: xs := List.exists_cons_of_ne_nil hend
    obtain ⟨gap, hgap, htrivia⟩ := h.gap
    have hskip := h.skip (Gap.length .blank c.rest)
    rw [Cursor.tokens, dif_neg hend]
    rw [hx] at htrivia
    show Tiles source c.pos.offset c.next.2.tokens.stop (c.next.1 :: c.next.2.tokens.tokens)
    rw [next_of_cons hx] at ih ⊢
    have hrest := ih (hskip.skip _)
    refine ⟨⟨gap, hgap, htrivia⟩, hskip.token .., Lexeme.kind_ofText_ne_eof x xs, ?_, hrest⟩
    simp [Cursor.token, hx]

/-- The cursor after so many tokens. -/
def after (c : Cursor) : Nat → Cursor
  | 0 => c
  | n + 1 => c.next.2.after n

theorem skipGap_of_nil (h : c.rest = []) : c.skipGap = c := by
  rw [skipGap, h]
  rfl

/-- Token after token, and the end-of-file token ever after. -/
theorem next_after (c : Cursor) (n : Nat) : (c.after n).next.1 = (c.tokens.tokens[n]?).getD c.tokens.stop := by
  induction n generalizing c with
  | zero =>
    rw [after, Cursor.tokens]
    split <;> rfl
  | succ n ih =>
    rw [after, ih, Cursor.tokens.eq_def c]
    split
    next hend =>
      have hskip := skipGap_of_nil hend
      have hnext : c.next.2 = c.skipGap := by rw [next_of_nil hend]
      have hagain : c.skipGap.skipGap.rest = [] := by rw [hskip, hend]
      rw [hnext, Cursor.tokens, dif_pos hagain, next_of_nil hend, next_of_nil hagain, hskip]
      rfl
    · rfl

end Cursor

/-! ## Order -/

theorem slice?_size {source text : String} {start stop : Nat} (h : slice? source start stop = some text) :
    start + text.utf8ByteSize = stop := by
  unfold slice? at h
  split at h
  next hv =>
    have hle : stop ≤ source.utf8ByteSize := hv.2.1.le_utf8ByteSize
    rw [← Option.some.inj h, ← String.size_toByteArray, String.toByteArray_extract, ByteArray.size_extract,
      String.size_toByteArray]
    have := hv.2.2
    dsimp only
    omega
  · cases h

/-- Tokens that cover a text follow one another. -/
theorem Tiles.pairwise {source : String} {offset : Nat} {stop : Token} {ts : List Token} (h : Tiles source offset stop ts) :
    (∀ t ∈ ts ++ [stop], offset ≤ t.span.start.offset) ∧ (∀ t ∈ ts, t.span.start.offset < t.span.stop.offset) ∧
      (ts ++ [stop]).Pairwise fun t t' => t.span.stop.offset ≤ t'.span.start.offset := by
  induction ts generalizing offset with
  | nil =>
    obtain ⟨⟨gap, hgap, -⟩, -⟩ := h
    have := slice?_size hgap
    refine ⟨?_, by simp, by simp⟩
    simp only [List.nil_append, List.mem_singleton, forall_eq]
    omega
  | cons t ts ih =>
    obtain ⟨⟨gap, hgap, -⟩, htext, -, hne, hrest⟩ := h
    obtain ⟨hle, hlt, hpair⟩ := ih hrest
    have hstart := slice?_size hgap
    have hstop := slice?_size htext.text
    have hpos : 0 < t.text.utf8ByteSize := Nat.pos_of_ne_zero fun hz => hne (String.utf8ByteSize_eq_zero_iff.mp hz)
    refine ⟨?_, ?_, ?_⟩
    · simp only [List.cons_append, List.mem_cons, forall_eq_or_imp]
      refine ⟨by omega, fun t' ht' => ?_⟩
      have := hle t' ht'
      omega
    · simp only [List.mem_cons, forall_eq_or_imp]
      exact ⟨by omega, hlt⟩
    · rw [List.cons_append, List.pairwise_cons]
      exact ⟨hle, hpair⟩

/-! ## Source texts -/

theorem Tiles.ofSource (source : String) : Tiles source 0 (scan source).stop (scan source).tokens :=
  (Cursor.At.ofSource source).tiles

end Wordstack
