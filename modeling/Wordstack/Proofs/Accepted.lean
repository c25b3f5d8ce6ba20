/-
What the parts of a lowering come to when nothing is reported but warnings: values are
single, counts agree, and every declaration enters a variable.
-/
import Wordstack.Compilation
import Wordstack.Proofs.FrameScope
import Wordstack.Proofs.ScopeFacts

namespace Wordstack

open Lower

/-! ## Values -/

theorem accepted_single {e : Expr} (he : e.isError = false) (p : Produced) :
    Ensures accepted (single e p) fun cs => cs = p.code ∧ p.values = 1 := by
  unfold single
  split
  next h => exact .pure ⟨rfl, by simpa [he] using h⟩
  · exact ensures_rejected rfl _

theorem accepted_checkCount (expected found : Nat) {values : ExprList} (hv : values.isError = false) :
    Ensures accepted (checkCount expected found values) fun _ => expected = found := by
  unfold checkCount
  split
  · exact (ensures_report _).mono fun _ h => by cases h
  next h => exact .pure (by simpa [hv] using h)

theorem accepted_lowerReturn (env : Env) (t : Token) (p : Produced) :
    Ensures accepted (lowerReturn env t p true) fun cs => p.values = env.returns ∧
      cs = p.code ++ freeCommands env.depth t.span ++
        [{ op := .framePop, span := t.span }, { op := .ret, span := t.span }] := by
  unfold lowerReturn
  dsimp only
  split
  · exact ensures_rejected rfl _
  split
  · exact ensures_rejected rfl _
  next h => exact .pure ⟨by simpa using h, rfl⟩

/-! ## Declarations -/

/-- Whether a name may be declared: the innermost block does not hold it. -/
def Env.Fresh (env : Env) (name : String) : Prop := ∀ block ∈ env.blocks.head?, block.get? name = none

theorem accepted_declare (env : Env) (name : String) (info : SymbolInfo) :
    Ensures accepted (env.declare name info) fun env' => env' = env.enter name info ∧ env.Fresh name := by
  unfold Env.declare Env.enter Env.Fresh
  cases env.blocks with
  | nil => exact .pure ⟨rfl, by simp⟩
  | cons block outer =>
    dsimp only
    cases hb : block.get? name with
    | none => exact .pure ⟨rfl, by simpa using hb⟩
    | some first => exact ensures_rejected rfl _

theorem accepted_checkRefs (env : Env) (refs : TypeRefs) : Ensures accepted (checkRefs env refs) fun ok => ok = true := by
  induction refs with
  | nil => exact .pure rfl
  | cons ref refs ih =>
    unfold checkRefs
    dsimp only
    have hgo : Ensures accepted (do let rest ← checkRefs env refs; return true && rest) fun ok => ok = true :=
      ih.bind fun _ => .pure fun h => by rw [h]; rfl
    split
    · exact (ensures_report _).bind fun _ => ih.bind fun _ => .pure fun _ h => by cases h
    · split
      · exact hgo
      · exact (ensures_report _).bind fun _ => ih.bind fun _ => .pure fun _ h => by cases h

theorem accepted_localType? (env : Env) (ty : TypeExpr) :
    Ensures accepted (localType? env ty) fun t? => ∃ t, t? = some t ∧ ty.describe.result.1 = .ok t := by
  unfold localType?
  split
  next e refs hd =>
    refine (ensures_report _).bind fun _ => .pure fun h => ?_
    have hw : e.isWarning = true := h
    rw [ty.failsHard _ _ _ hd] at hw
    cases hw
  next t refs hd =>
    refine (accepted_checkRefs env refs).bind fun ok => ?_
    split
    · exact .pure fun _ => ⟨t, rfl, by rw [hd]⟩
    next h => exact .pure fun hok => absurd hok h

theorem accepted_declareLocal (env : Env) (name : Token) (t : Ty) : Ensures accepted (declareLocal env name t) fun r =>
      r = (env.declared name.text name.span t, [allocCommand t.size name.span]) ∧ env.Fresh name.text :=
  (accepted_declare _ _ _).bind fun _ => .pure fun h => by
    rw [h.1]
    exact ⟨rfl, h.2⟩

theorem accepted_declareBroken (env : Env) (name : Token) : Ensures accepted (declareBroken env name) fun _ => True :=
  (accepted_declare _ _ _).bind fun _ => .pure fun _ => trivial

/-- A declaration of one name enters a variable of its type. -/
theorem accepted_declareTyped (env : Env) (name : Token) {ty : TypeExpr} (hw : ty.Whole) :
    Ensures accepted (declareTyped env name ty) fun r => ∃ t, ty.describe.result.1 = .ok t ∧
      r = (env.declared name.text name.span t, [allocCommand t.size name.span], some t) ∧ env.Fresh name.text := by
  unfold declareTyped
  rw [hw.isError]
  split
  next h => cases h
  split
  · exact (ensures_report _).bind fun _ => (accepted_declareBroken env name).bind fun _ => .pure fun _ h => by cases h
  · refine (accepted_localType? env ty).bind fun t? => ?_
    split
    · refine (accepted_declareBroken env name).bind fun _ => .pure fun _ h => ?_
      obtain ⟨_, h, -⟩ := h
      cases h
    next t =>
      refine (accepted_declareLocal env name t).bind fun _ => .pure fun h ht => ?_
      obtain ⟨_, ⟨⟩, hd⟩ := ht
      exact ⟨t, hd, by rw [h.1], h.2⟩

/-! ## Compilations -/

/-- What a compilation that succeeds has reported: nothing while reading, and warnings after that. -/
theorem of_compile {name source : String} {c : Compilation} (h : compile name source = .ok c) :
    c.program = (SourceUnit.ofSource source).lowered.program ∧ (parse source).errors = [] ∧
      ScopeErrors.Accepted (Scope.ofItems (parse source).roots).errors ∧
      ∀ e ∈ (SourceUnit.ofSource source).lowered.errors, e.diagnostic.isWarning = true := by
  unfold compile at h
  dsimp only at h
  split at h
  · cases h
  next hnone =>
    cases h
    have hall : ∀ e ∈ (SourceUnit.ofSource source).errors, e.diagnostic.isWarning = true := by
      intro e he
      have hfatal := List.any_eq_false.mp (by simpa using hnone) e he
      unfold CompileError.isFatal at hfatal
      simpa using hfatal
    have herrors : (SourceUnit.ofSource source).errors = (parse source).errors.map .parse ++
      (Scope.ofItems (parse source).roots).errors.map .scope ++ (SourceUnit.ofSource source).lowered.errors.map .code := rfl
    rw [herrors] at hall
    refine ⟨rfl, List.eq_nil_iff_forall_not_mem.mpr fun e he => ?_, fun e he => ?_, fun e he => ?_⟩
    · have := hall (.parse e) (by simp [he])
      cases e <;> cases this
    · exact hall (.scope e) (by simp [he])
    · exact hall (.code e) (by simp [he])

theorem compile_of_errors {source : String} (name : String)
    (h : (SourceUnit.ofSource source).errors.any CompileError.isFatal = false) :
    ∃ c, compile name source = .ok c ∧ c.program = (SourceUnit.ofSource source).lowered.program := by
  unfold compile
  dsimp only
  rw [h]
  exact ⟨_, rfl, rfl⟩

end Wordstack
