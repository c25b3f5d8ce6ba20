/-
Where reports point to. All regions come from the tokens of the text, and all that is ever done
with a region is to keep it or to cover it together with another one. So two steady maps that agree on the tokens agree on
every region that is reported, and what the regions of the tokens have in common can be read off such a pair: a map
that sets every end right, and one that only tells the wide regions from the narrow ones.
-/
import Mathlib.Data.Nat.Find
import Wordstack.Proofs.Spacing

namespace Wordstack

/-! ## Maps that agree -/

theorem eq_of_move_eq {α : Type} [Placed α] {f g : Span → Span} {as : List α} (h : move f as = move g as) :
    ∀ a ∈ as, move f a = move g a := List.map_inj_left.mp h

theorem TokenList.move_eq {f g : Span → Span} {ts : TokenList} (h : ∀ t ∈ ts.all, f t.span = g t.span) :
    move f ts = move g ts := by
  have htoken : ∀ t ∈ ts.all, move f t = move g t := fun t ht => congrArg (Token.mk t.kind t.text · t.literal) (h t ht)
  refine (TokenList.mk.injEq ..).mpr ⟨List.map_congr_left fun t ht => htoken t ?_, htoken _ ?_⟩
  · exact List.mem_append_left _ ht
  · exact List.mem_append_right _ (List.mem_singleton.mpr rfl)

/-- A prototype that is left without a body is reported where its entry says. -/
theorem Survey.mem_unusedPrototypes {scope : Scope} {e : ScopeError} (h : e ∈ unusedPrototypes scope) :
    ∃ name entry, (name, entry) ∈ scope ∧ e = .unusedPrototype name entry.span := by
  unfold unusedPrototypes at h
  obtain ⟨⟨span, name⟩, hmem, rfl⟩ := List.mem_map.mp h
  obtain ⟨⟨name', entry⟩, hentry, hsome⟩ := List.mem_filterMap.mp (List.mem_mergeSort.mp hmem)
  dsimp only at hsome
  split at hsome
  · obtain ⟨rfl, rfl⟩ := Prod.mk.inj (Option.some.inj hsome)
    exact ⟨_, entry, hentry, rfl⟩
  · cases hsome

section

variable {f g : Span → Span} {ts : TokenList}

theorem TokenList.parse_agrees (hf : Span.Steady f) (hg : Span.Steady g) (hstop : ts.stop.kind = .eof)
    (h : move f ts = move g ts) : move f ts.parse = move g ts.parse := by
  rw [← parse_move hf hstop, ← parse_move hg hstop, h]

theorem Scope.ofItems_agrees (hf : Span.Steady f) (hg : Span.Steady g) {items : List Stmt} (h : move f items = move g items) :
    move f (Scope.ofItems items) = move g (Scope.ofItems items) := by
  have hsurvey : move f (Survey.declareItems {} 0 items).resolveAll = move g (Survey.declareItems {} 0 items).resolveAll := by
    rw [← Survey.ofItems_move hf, ← Survey.ofItems_move hg, h]
  have hscope : move f (Scope.ofItems items).scope = move g (Scope.ofItems items).scope := congrArg Survey.scope hsurvey
  have hunused : move f (Survey.unusedPrototypes (Scope.ofItems items).scope) =
      move g (Survey.unusedPrototypes (Scope.ofItems items).scope) := by
    refine List.map_congr_left fun e he => ?_
    obtain ⟨name, entry, hmem, rfl⟩ := Survey.mem_unusedPrototypes he
    have hentry : move f (name, entry) = move g (name, entry) := eq_of_move_eq hscope _ hmem
    exact congrArg (fun p : String × Entry => ScopeError.unusedPrototype name p.2.span) hentry
  refine (Analysis.mk.injEq ..).mpr ⟨hscope, ?_⟩
  show move f (_ ++ Survey.unusedPrototypes _) = move g (_ ++ Survey.unusedPrototypes _)
  rw [move_append, move_append]
  exact congr (congrArg _ (congrArg Survey.errors hsurvey)) hunused

/-- Maps that agree on the tokens of a text agree on all regions that are reported. -/
theorem SourceUnit.errors_agree (hf : Span.Steady f) (hg : Span.Steady g) (hstop : ts.stop.kind = .eof)
    (h : ∀ t ∈ ts.all, f t.span = g t.span) :
    ∀ e ∈ (ofTokens ts).errors, ∀ label ∈ e.diagnostic.labels, f label.2 = g label.2 := by
  have hparse := TokenList.parse_agrees hf hg hstop (TokenList.move_eq h)
  have hroots : move f ts.parse.roots = move g ts.parse.roots := congrArg Parsed.roots hparse
  have hanalysis := Scope.ofItems_agrees hf hg hroots
  have hcode : move f (ofTokens ts).lowered.errors = move g (ofTokens ts).lowered.errors := by
    have hscope : move f (Scope.ofItems ts.parse.roots).scope = move g (Scope.ofItems ts.parse.roots).scope :=
      congrArg Analysis.scope hanalysis
    show move f (Program.ofItems ts.parse.roots (Scope.ofItems ts.parse.roots).scope).errors = move g (Program.ofItems _ _).errors
    rw [← (Program.ofItems_move hf _ _).1, ← (Program.ofItems_move hg _ _).1, hroots, hscope]
  intro e he label hlabel
  have hmove : move f e = move g e := by
    rcases List.mem_append.mp he with he | he
    · rcases List.mem_append.mp he with he | he
      · obtain ⟨e, hmem, rfl⟩ := List.mem_map.mp he
        exact congrArg CompileError.parse (eq_of_move_eq (congrArg Parsed.errors hparse) e hmem)
      · obtain ⟨e, hmem, rfl⟩ := List.mem_map.mp he
        exact congrArg CompileError.scope (eq_of_move_eq (congrArg Analysis.errors hanalysis) e hmem)
    · obtain ⟨e, hmem, rfl⟩ := List.mem_map.mp he
      exact congrArg CompileError.code (eq_of_move_eq hcode e hmem)
  have hdiagnostic : move f e.diagnostic = move g e.diagnostic := by
    rw [← e.diagnostic_move f, ← e.diagnostic_move g, hmove]
  exact congrArg Prod.snd (eq_of_move_eq (congrArg Diagnostic.labels hdiagnostic) label hlabel)

end

/-! ## Setting ends right -/

/-- The last place of the text that is not behind the offset. -/
def Position.floor (source : String) (offset : Nat) : Position :=
  let boundary := Nat.findGreatest (fun n => (⟨n⟩ : String.Pos.Raw).IsValid source) offset
  ⟨boundary, lineAfter (bytesBefore source boundary), columnAfter (bytesBefore source boundary)⟩

theorem Position.floor_inText (source : String) (offset : Nat) : (floor source offset).InText source where
  boundary := Nat.findGreatest_spec (P := fun n => (⟨n⟩ : String.Pos.Raw).IsValid source) (Nat.zero_le offset)
    String.Pos.Raw.isValid_zero
  line := rfl
  col := rfl

theorem Position.floor_of_inText {source : String} {p : Position} (h : p.InText source) : floor source p.offset = p :=
  (floor_inText source p.offset).eq h (Nat.findGreatest_eq h.boundary)

theorem Position.floor_climbs (source : String) : Climbs (floor source) := by
  intro i j hle
  have hmono : (floor source i).offset ≤ (floor source j).offset := Nat.findGreatest_mono_right _ hle
  rcases Nat.lt_or_eq_of_le hmono with hlt | heq
  · exact .inl hlt
  · exact .inr ((floor_inText source i).eq (floor_inText source j) heq)

namespace Span

/-- The region with both ends set right. -/
def floor (source : String) (s : Span) : Span := ⟨.floor source s.start.offset, .floor source s.stop.offset⟩

theorem floor_steady (source : String) : Steady (floor source) :=
  steady_of_climbs (Position.floor_climbs source) (Position.floor_climbs source)

theorem floor_scan {source : String} : ∀ t ∈ (scan source).all, floor source t.span = id t.span := by
  intro t ht
  have htext := (Tiles.ofSource source).inText t ht
  rw [floor, Position.floor_of_inText htext.start, Position.floor_of_inText htext.stop]
  rfl

theorem inText_of_floor {source : String} {s : Span} (h : s.floor source = s) : s.start.InText source ∧ s.stop.InText source := by
  rw [← h]
  exact ⟨Position.floor_inText .., Position.floor_inText ..⟩

end Span

/-! ## Wide and narrow regions -/

/-- Whether a region does not reach out of the given one. -/
def Span.within (s t : Span) : Bool := s.start.offset ≤ t.start.offset && t.stop.offset ≤ s.stop.offset

theorem Span.within_cover (s t u : Span) : s.within (t.cover u) = (s.within t && s.within u) := by
  unfold within cover through
  grind

/-- Tells the regions within `s` from all others. -/
def Span.mark (s t : Span) : Span := if s.within t then .nowhere else ⟨⟨0, 0, 0⟩, ⟨1, 0, 0⟩⟩

theorem Span.mark_steady (s : Span) : Steady s.mark := by
  intro t u
  unfold mark
  rw [within_cover]
  cases s.within t <;> cases s.within u <;> rfl

/-! ## Source texts -/

/-- The region reaches from the first start to the last end among some regions. -/
def Span.Hull (s : Span) (spans : List Span) : Prop :=
  (spans.map (·.start.offset)).min? = some s.start.offset ∧ (spans.map (·.stop.offset)).max? = some s.stop.offset

theorem Span.Hull.cover {s t : Span} {ss ts : List Span} (hs : s.Hull ss) (ht : t.Hull ts) : (s.cover t).Hull (ss ++ ts) := by
  have hcover : (s.cover t).start.offset = min s.start.offset t.start.offset ∧
      (s.cover t).stop.offset = max s.stop.offset t.stop.offset := by
    unfold Span.cover Span.through
    grind
  obtain ⟨⟨hs₁, hs₂⟩, hs₃, hs₄⟩ := hs.imp List.min?_eq_some_iff.mp List.max?_eq_some_iff.mp
  obtain ⟨⟨ht₁, ht₂⟩, ht₃, ht₄⟩ := ht.imp List.min?_eq_some_iff.mp List.max?_eq_some_iff.mp
  rw [Hull, List.map_append, List.map_append, List.min?_eq_some_iff, List.max?_eq_some_iff, hcover.1, hcover.2]
  simp only [List.mem_append]
  grind

namespace Outline

/-- The regions of the tokens of a node and of all below it. -/
def spans (rows : List (Nat × Outline)) : List Span := rows.map (·.2.token.span)

mutual

theorem hull_rows (depth : Nat) : ∀ o : Outline, o.span.Hull (spans (o.rows depth))
  | .node _ _ t _ cs =>
    have htoken : t.span.Hull [t.span] := ⟨rfl, rfl⟩
    hull_rowsList (depth + 1) htoken cs

theorem hull_rowsList (depth : Nat) {s : Span} {ss : List Span} (h : s.Hull ss) :
    ∀ cs : List Outline, (spanFrom s cs).Hull (ss ++ spans (rowsList depth cs))
  | [] => by simpa [spanFrom, rowsList, spans] using h
  | c :: cs => by
    have hcs := hull_rowsList depth (h.cover (hull_rows depth c)) cs
    rwa [spanFrom, rowsList, spans, List.map_append, ← List.append_assoc]

end

mutual

theorem rows_moved (f : Span → Span) (depth : Nat) :
    ∀ o : Outline, (o.moved f).rows depth = (o.rows depth).map fun r => (r.1, r.2.moved f)
  | .node _ _ _ _ cs => congrArg (_ :: ·) (rowsList_moved f (depth + 1) cs)

theorem rowsList_moved (f : Span → Span) (depth : Nat) :
    ∀ cs : List Outline, rowsList depth (movedAll f cs) = (rowsList depth cs).map fun r => (r.1, r.2.moved f)
  | [] => rfl
  | c :: cs => by
    rw [movedAll, rowsList, rowsList, rows_moved f depth c, rowsList_moved f depth cs, List.map_append]

end

end Outline

end Wordstack
