/-
Comments, line breaks and white space mean nothing. What becomes of a source text depends on the
kinds, the texts and the values of its tokens; where they stand shows up in the places that are
reported and nowhere else.

Two texts with the same tokens need not be images of one another: there may be no room between the tokens of one
for what covers those of the other. Both are images of the same list, though, in which the
places are the numbers of the tokens.
-/
import Wordstack.Proofs.MovedProgram
import Wordstack.Proofs.Termination
import Wordstack.Proofs.Tiling

namespace Wordstack

variable {i : Nat} {t : Token} {ts : TokenList}

/-! ## All stages -/

instance : Placed TokenList where
  move f ts := ⟨move f ts.tokens, move f ts.stop⟩
  move_id ts := by simp only [move_id]
  move_move f g ts := by simp only [move_move]

instance : Placed Parsed where
  move f p := ⟨move f p.roots, move f p.errors⟩
  move_id p := by simp only [move_id]
  move_move f g p := by simp only [move_move]

instance : Placed Lowered where
  move f l := ⟨move f l.program, move f l.errors⟩
  move_id l := by simp only [move_id]
  move_move f g l := by simp only [move_move]

instance : Placed SourceUnit where
  move f u := ⟨move f u.parsed, move f u.analysis, move f u.lowered⟩
  move_id u := by simp only [move_id]
  move_move f g u := by simp only [move_move]

theorem TokenList.parse_move {f : Span → Span} (hf : Span.Steady f) (hstop : ts.stop.kind = .eof) :
    (move f ts).parse = move f ts.parse := by
  have hwhole : Rules.whole .items (.start (move f ts)) =
      (move f (Rules.whole .items (.start ts)).1, move f (Rules.whole .items (.start ts)).2) :=
    (Rules.whole_keeps hf .items (.start ts) hstop).1
  have hstop' : (move f ts).stop.kind = .eof := hstop
  rw [Rules.parse_eq hstop, Rules.parse_eq hstop', hwhole]
  rfl

/-- What becomes of a list of tokens. -/
def SourceUnit.ofTokens (ts : TokenList) : SourceUnit :=
  let analysis := Scope.ofItems ts.parse.roots
  ⟨ts.parse, analysis, Program.ofItems ts.parse.roots analysis.scope⟩

theorem SourceUnit.ofSource_eq (source : String) : ofSource source = ofTokens (scan source) := rfl

theorem SourceUnit.unplaced_ofTokens_move {f : Span → Span} (hf : Span.Steady f) (ho : Span.Ordered f)
    (hstop : ts.stop.kind = .eof) : unplaced (ofTokens (move f ts)) = unplaced (ofTokens ts) := by
  have hunit : ofTokens (move f ts) = ⟨move f ts.parse, move f (Scope.ofItems ts.parse.roots),
      Program.ofItems (move f ts.parse.roots) (move f (Scope.ofItems ts.parse.roots).scope)⟩ := by
    unfold ofTokens
    rw [TokenList.parse_move hf hstop, show (move f ts.parse).roots = move f ts.parse.roots from rfl,
      Scope.ofItems_move hf ho]
    rfl
  obtain ⟨herrors, hprogram⟩ := Program.ofItems_move hf ts.parse.roots (Scope.ofItems ts.parse.roots).scope
  rw [hunit]
  show SourceUnit.mk (unplaced _) (unplaced _) ⟨unplaced _, unplaced _⟩ = ⟨unplaced _, unplaced _, ⟨unplaced _, unplaced _⟩⟩
  rw [hprogram, herrors, unplaced_move, unplaced_move, unplaced_move]
  rfl

/-! ## Numbered tokens -/

/-- The place of the token with the number `i`. -/
def Span.numbered (i : Nat) : Span := ⟨⟨i, 0, 0⟩, ⟨i, 0, 0⟩⟩

namespace TokenList

/-- The tokens with their numbers for places. -/
def numbered (ts : TokenList) : TokenList where
  tokens := ts.tokens.mapIdx fun i => move fun _ => .numbered i
  stop := move (fun _ => .numbered ts.tokens.length) ts.stop

/-- The tokens and the end-of-file token. -/
def all (ts : TokenList) : List Token := ts.tokens ++ [ts.stop]

/-- Where the token with the number `i` begins. Numbers that no token has are behind the end. -/
def startAt (ts : TokenList) (i : Nat) : Position :=
  match ts.all[i]? with
  | some t => t.span.start
  | none => ⟨ts.stop.span.start.offset + i, 0, 0⟩

/-- Where the token with the number `i` ends. -/
def stopAt (ts : TokenList) (i : Nat) : Position := ((ts.all[i]?).getD ts.stop).span.stop

/-- From the number of a token to its place. -/
def place (ts : TokenList) (s : Span) : Span := ⟨ts.startAt s.start.offset, ts.stopAt s.stop.offset⟩

theorem getElem?_numbered (ts : TokenList) (i : Nat) :
    ts.numbered.tokens[i]? = ts.tokens[i]?.map (move fun _ => .numbered i) := List.getElem?_mapIdx

theorem numbered_unplaced (ts : TokenList) : (unplaced ts).numbered = ts.numbered := by
  have htokens : (unplaced ts).numbered.tokens = ts.numbered.tokens := by
    refine List.ext_getElem? fun i => ?_
    rw [getElem?_numbered, getElem?_numbered, show (unplaced ts).tokens = ts.tokens.map unplaced from rfl,
      List.getElem?_map, Option.map_map]
    rfl
  have hstop : (unplaced ts).numbered.stop = ts.numbered.stop := by
    show move (fun _ => .numbered (unplaced ts).tokens.length) (unplaced ts.stop) = move _ ts.stop
    rw [show (unplaced ts).tokens.length = ts.tokens.length from length_move _ _]
    rfl
  exact (TokenList.mk.injEq ..).mpr ⟨htokens, hstop⟩

theorem place_numbered (h : ts.all[i]? = some t) : ts.place (.numbered i) = t.span := by
  simp [place, startAt, stopAt, Span.numbered, h]

/-- A list of tokens is the image of its numbered tokens. -/
theorem move_place_numbered (ts : TokenList) : move ts.place ts.numbered = ts := by
  have htokens : move ts.place ts.numbered.tokens = ts.tokens := by
    refine List.ext_getElem? fun i => ?_
    rw [show move ts.place ts.numbered.tokens = ts.numbered.tokens.map (move ts.place) from rfl, List.getElem?_map,
      getElem?_numbered]
    rcases hi : ts.tokens[i]? with _ | t
    · rfl
    · have hall : ts.all[i]? = some t := by
        rw [all, List.getElem?_append_left (List.getElem?_eq_some_iff.mp hi).1, hi]
      show some ({ t with span := ts.place (.numbered i) } : Token) = some t
      rw [place_numbered hall]
  have hstop : move ts.place ts.numbered.stop = ts.stop := by
    have hall : ts.all[ts.tokens.length]? = some ts.stop := by simp [all]
    show ({ ts.stop with span := ts.place (.numbered ts.tokens.length) } : Token) = ts.stop
    rw [place_numbered hall]
  exact (TokenList.mk.injEq ..).mpr ⟨htokens, hstop⟩

/-- Tokens that follow one another, each with a place of its own. -/
structure InRow (ts : TokenList) : Prop where
  wide : ∀ t ∈ ts.tokens, t.span.start.offset < t.span.stop.offset
  stop : ts.stop.span.start.offset ≤ ts.stop.span.stop.offset
  apart : ts.all.Pairwise fun t t' => t.span.stop.offset ≤ t'.span.start.offset
  place : ∀ t ∈ ts.all, ∀ t' ∈ ts.all, t.span.stop.offset = t'.span.stop.offset → t.span.stop = t'.span.stop

namespace InRow

variable {ts : TokenList}

/-- Of two tokens, the first begins and ends in front of the second. Only the end-of-file token may end where a token
ends. -/
theorem lt (h : ts.InRow) {j : Nat} {t' : Token} (hi : ts.all[i]? = some t) (hj : ts.all[j]? = some t') (hlt : i < j) :
    t.span.start.offset < t'.span.start.offset ∧ t.span.stop.offset ≤ t'.span.stop.offset := by
  have hle : t.span.stop.offset ≤ t'.span.start.offset := by
    obtain ⟨hi', rfl⟩ := List.getElem?_eq_some_iff.mp hi
    obtain ⟨hj', rfl⟩ := List.getElem?_eq_some_iff.mp hj
    exact List.pairwise_iff_getElem.mp h.apart i j hi' hj' hlt
  have hlast : j < ts.tokens.length + 1 := by simpa [all] using (List.getElem?_eq_some_iff.mp hj).1
  have hwide : t.span.start.offset < t.span.stop.offset := by
    rw [all, List.getElem?_append_left (by omega)] at hi
    exact h.wide t (List.mem_of_getElem? hi)
  have hwide' : t'.span.start.offset ≤ t'.span.stop.offset := by
    rcases List.mem_append.mp (List.mem_of_getElem? hj) with hmem | hmem
    · exact Nat.le_of_lt (h.wide t' hmem)
    · obtain rfl := List.mem_singleton.mp hmem
      exact h.stop
  omega

theorem le_stop (h : ts.InRow) (hmem : t ∈ ts.all) :
    t.span.start.offset ≤ ts.stop.span.start.offset ∧ t.span.stop.offset ≤ ts.stop.span.stop.offset := by
  obtain ⟨i, hi⟩ := List.mem_iff_getElem?.mp hmem
  have hall : ts.all[ts.tokens.length]? = some ts.stop := by simp [all]
  have hlast : i < ts.tokens.length + 1 := by simpa [all] using (List.getElem?_eq_some_iff.mp hi).1
  rcases Nat.lt_or_ge i ts.tokens.length with hlt | hge
  · have := h.lt hi hall hlt
    omega
  · rw [show i = ts.tokens.length by omega, hall] at hi
    obtain rfl := Option.some.inj hi
    exact ⟨Nat.le_refl _, Nat.le_refl _⟩

theorem startAt_lt (h : ts.InRow) {j : Nat} (hlt : i < j) : (ts.startAt i).offset < (ts.startAt j).offset := by
  unfold startAt
  rcases hj : ts.all[j]? with _ | t'
  · rcases hi : ts.all[i]? with _ | t
    · show _ + i < _ + j
      omega
    · have := (h.le_stop (List.mem_of_getElem? hi)).1
      show t.span.start.offset < ts.stop.span.start.offset + j
      omega
  · rcases hi : ts.all[i]? with _ | t
    · have := (List.getElem?_eq_some_iff.mp hj).1
      have := List.getElem?_eq_none_iff.mp hi
      omega
    · exact (h.lt hi hj hlt).1

theorem stopAt_climbs (h : ts.InRow) : Position.Climbs ts.stopAt := by
  intro i j hle
  -- Beyond the last number everything ends where the text ends.
  have hmem : ∀ k : Nat, (ts.all[k]?).getD ts.stop ∈ ts.all := by
    intro k
    rcases hk : ts.all[k]? with _ | t
    · simp [all]
    · exact List.mem_of_getElem? hk
  have hoffset : (ts.stopAt i).offset ≤ (ts.stopAt j).offset := by
    rcases Nat.eq_or_lt_of_le hle with rfl | hlt
    · exact Nat.le_refl _
    unfold stopAt
    rcases hj : ts.all[j]? with _ | t'
    · exact (h.le_stop (hmem i)).2
    · have hi : i < ts.all.length := Nat.lt_trans hlt (List.getElem?_eq_some_iff.mp hj).1
      rw [List.getElem?_eq_getElem hi]
      exact (h.lt (List.getElem?_eq_getElem hi) hj hlt).2
  rcases Nat.lt_or_eq_of_le hoffset with hlt | heq
  · exact .inl hlt
  · exact .inr (h.place _ (hmem i) _ (hmem j) heq)

theorem steady (h : ts.InRow) : Span.Steady ts.place := by
  refine Span.steady_of_climbs (fun i j hle => ?_) h.stopAt_climbs
  rcases Nat.lt_or_eq_of_le hle with hlt | rfl
  · exact .inl (h.startAt_lt hlt)
  · exact .inr rfl

theorem ordered (h : ts.InRow) : Span.Ordered ts.place := by
  intro s t
  show (ts.startAt s.start.offset).offset ≤ (ts.startAt t.start.offset).offset ↔ _
  rcases Nat.lt_trichotomy s.start.offset t.start.offset with hlt | heq | hlt
  · have := h.startAt_lt hlt
    omega
  · rw [heq]
    simp
  · have := h.startAt_lt hlt
    omega

end InRow
end TokenList

/-! ## Source texts -/

theorem Position.InText.eq {source : String} {p q : Position} (hp : p.InText source) (hq : q.InText source)
    (h : p.offset = q.offset) : p = q := by
  rcases p with ⟨offset, line, col⟩
  rcases q with ⟨offset', line', col'⟩
  obtain rfl : offset = offset' := h
  rw [Position.mk.injEq]
  exact ⟨rfl, hp.line.trans hq.line.symm, hp.col.trans hq.col.symm⟩

theorem Tiles.inText {source : String} {offset : Nat} {stop : Token} {ts : List Token} (h : Tiles source offset stop ts) :
    ∀ t ∈ ts ++ [stop], t.InText source := by
  induction ts generalizing offset with
  | nil => simpa using h.2.1
  | cons t ts ih =>
    obtain ⟨-, htext, -, -, hrest⟩ := h
    rw [List.cons_append, List.forall_mem_cons]
    exact ⟨htext, ih hrest⟩

theorem Cursor.unplaced_stop (c : Cursor) : unplaced c.tokens.stop = ⟨.eof, "", .nowhere, .none⟩ := by
  induction c using Cursor.tokens.induct with
  | case1 c hend =>
    rw [Cursor.tokens, dif_pos hend, next_of_nil hend]
    rfl
  | case2 c hend _ ih =>
    rw [Cursor.tokens, dif_neg hend]
    exact ih

theorem scan_inRow (source : String) : (scan source).InRow := by
  have htiles := Tiles.ofSource source
  obtain ⟨-, hwide, hapart⟩ := htiles.pairwise
  have hstop := slice?_size (htiles.inText (scan source).stop (by simp)).text
  exact ⟨hwide, by omega, hapart, fun t ht t' ht' h => (htiles.inText t ht).stop.eq (htiles.inText t' ht').stop h⟩

theorem scan_stop (source : String) : (scan source).stop.kind = .eof := (Cursor.formed_tokens (.ofSource source)).2

/-- What becomes of a list of tokens is settled by them, but for places. -/
theorem SourceUnit.unplaced_ofTokens {ts ts' : TokenList} (hrow : ts.InRow) (hrow' : ts'.InRow) (hstop : ts.stop.kind = .eof)
    (h : unplaced ts' = unplaced ts) : unplaced (ofTokens ts') = unplaced (ofTokens ts) := by
  have hnumbered : ∀ {ts : TokenList}, ts.InRow → ts.numbered.stop.kind = .eof →
      unplaced (ofTokens ts) = unplaced (ofTokens ts.numbered) := by
    intro ts hrow hstop
    rw [← unplaced_ofTokens_move hrow.steady hrow.ordered hstop, TokenList.move_place_numbered]
  have hstop' : ts'.stop.kind = .eof := (congrArg (·.stop.kind) h).trans hstop
  rw [hnumbered hrow hstop, hnumbered hrow' hstop', ← TokenList.numbered_unplaced, h, TokenList.numbered_unplaced]

theorem SourceUnit.unplaced_ofSource {source source' : String}
    (h : unplaced (scan source).tokens = unplaced (scan source').tokens) :
    unplaced (ofSource source) = unplaced (ofSource source') := by
  refine unplaced_ofTokens (scan_inRow source') (scan_inRow source) (scan_stop source') ?_
  exact (TokenList.mk.injEq ..).mpr ⟨h, (Cursor.unplaced_stop _).trans (Cursor.unplaced_stop _).symm⟩

theorem SourceUnit.errors_move (f : Span → Span) (u : SourceUnit) : (move f u).errors = move f u.errors := by
  have hparse : (move f u).parsed.errors.map CompileError.parse = move f (u.parsed.errors.map .parse) :=
    map_move (g := CompileError.parse) (fun _ => rfl) _
  have hscope : (move f u).analysis.errors.map CompileError.scope = move f (u.analysis.errors.map .scope) :=
    map_move (g := CompileError.scope) (fun _ => rfl) _
  have hcode : (move f u).lowered.errors.map CompileError.code = move f (u.lowered.errors.map .code) :=
    map_move (g := CompileError.code) (fun _ => rfl) _
  unfold errors
  rw [hparse, hscope, hcode, move_append, move_append]

theorem CompileError.any_isFatal_move (f : Span → Span) (es : List CompileError) :
    (move f es).any isFatal = es.any isFatal :=
  List.any_map.trans (congrArg (List.any es) (funext fun e => e.isFatal_move f))

/-- Outcomes with the same program, and with the same listing and the same assembly of it; or failures. The same is
reported in both cases. Only places differ. -/
def Compilation.Alike : Except CompileFailure Compilation → Except CompileFailure Compilation → Prop
  | .ok c, .ok c' =>
    unplaced c.program = unplaced c'.program ∧ c.program.listing = c'.program.listing ∧ c.assembly = c'.assembly ∧
      unplaced c.warnings = unplaced c'.warnings
  | .error e, .error e' => e.name = e'.name ∧ unplaced e.errors = unplaced e'.errors
  | _, _ => False

/-- **White space and comments mean nothing.** Texts with the same tokens have the same trees and the same
programs, and the same is reported of them, in the same order and in the same words. -/
theorem compile_ignores_spacing (name source source' : String)
    (h : unplaced (scan source).tokens = unplaced (scan source').tokens) :
    unplaced (parse source) = unplaced (parse source') ∧
      unplaced ((SourceUnit.ofSource source).errors.map CompileError.diagnostic) =
        unplaced ((SourceUnit.ofSource source').errors.map CompileError.diagnostic) ∧
      Compilation.Alike (compile name source) (compile name source') := by
  have hunit := SourceUnit.unplaced_ofSource h
  have herrors : unplaced (SourceUnit.ofSource source).errors = unplaced (SourceUnit.ofSource source').errors := by
    rw [unplaced, unplaced, ← SourceUnit.errors_move, ← SourceUnit.errors_move]
    exact congrArg SourceUnit.errors hunit
  have hprogram : unplaced (SourceUnit.ofSource source).lowered.program =
      unplaced (SourceUnit.ofSource source').lowered.program := congrArg (·.lowered.program) hunit
  refine ⟨congrArg (·.parsed) hunit, ?_, ?_⟩
  · rw [unplaced, unplaced, ← map_move (CompileError.diagnostic_move _), ← map_move (CompileError.diagnostic_move _)]
    exact congrArg (List.map CompileError.diagnostic) herrors
  · have hfatal : (SourceUnit.ofSource source).errors.any CompileError.isFatal =
        (SourceUnit.ofSource source').errors.any CompileError.isFatal := by
      rw [← CompileError.any_isFatal_move (fun _ => .nowhere) (SourceUnit.ofSource source).errors,
        ← CompileError.any_isFatal_move (fun _ => .nowhere) (SourceUnit.ofSource source').errors]
      exact congrArg (List.any · _) herrors
    obtain ⟨hlisting, hassembly⟩ := Program.written_eq hprogram
    unfold compile
    dsimp only
    rw [hfatal]
    split
    · exact ⟨rfl, herrors⟩
    · rw [hassembly]
      exact ⟨hprogram, hlisting, rfl, herrors⟩

theorem compile_ignores_spacing_comments :
    unplaced (scan "f : (x : i32) -> i32 = \x7breturn x+1;\x7d").tokens =
        unplaced (scan "f:(x:i32)->i32=\n\x7b // the next one\n  return x /* and */ + 1;\n\x7d\n").tokens ∧
      Compilation.Alike (compile "f" "f : (x : i32) -> i32 = \x7breturn x+1;\x7d")
        (compile "f" "f:(x:i32)->i32=\n\x7b // the next one\n  return x /* and */ + 1;\n\x7d\n") := by
  have htokens : unplaced (scan "f : (x : i32) -> i32 = \x7breturn x+1;\x7d").tokens =
      unplaced (scan "f:(x:i32)->i32=\n\x7b // the next one\n  return x /* and */ + 1;\n\x7d\n").tokens := by
    decide +kernel
  exact ⟨htokens, (compile_ignores_spacing "f" _ _ htokens).2.2⟩

end Wordstack
