/-
How many bytes the variables of a text take. The slots of an array are counted in a word, but nothing looks at the bytes
that they come to, or at their sum; so the bytes are told here as they are, whether a word can count them or not.
-/
import Mathlib
import Wordstack.Proofs.Frames

namespace Wordstack

open Lower

/-! ## Globals -/

namespace Layout

variable (scope : Scope)

/-- The variables that items may declare, each with the position of its item. -/
def declared (root : Nat) : List Stmt → List (Nat × Token)
  | [] => []
  | item :: items => item.variables.map (root, ·) ++ declared (root + 1) items

/-- Gives several variables room, one after the other. -/
def placeAll (l : Layout) (xs : List (Nat × Token)) : Layout := xs.foldl (fun l x => place scope x.1 l x.2) l

/-- The bytes that a global takes, if the item is the one that its entry comes from. -/
def taken (x : Nat × Token) : Nat :=
  match scope.get? x.2.text with
  | none => 0
  | some e => if e.kind = .var ∧ e.root = x.1 then (e.type?.map Ty.size).getD Ty.slotSize else 0

theorem size_place (root : Nat) (l : Layout) (name : Token) :
    (place scope root l name).size = l.size + taken scope (root, name) := by
  unfold place taken
  cases scope.get? name.text with
  | none => rfl
  | some e =>
    dsimp only
    split <;> rfl

/-- Behind any of the globals, the next offset is the sum of all sizes so far. -/
theorem size_placeAll (l : Layout) (xs : List (Nat × Token)) :
    (placeAll scope l xs).size = l.size + (xs.map (taken scope)).sum := by
  induction xs generalizing l with
  | nil => rfl
  | cons x xs ih =>
    rw [placeAll, List.foldl_cons, ← placeAll, ih, size_place, List.map_cons, List.sum_cons, Nat.add_assoc]

theorem placeItems_eq (root : Nat) (l : Layout) (items : List Stmt) :
    placeItems scope root l items = placeAll scope l (declared root items) := by
  induction items generalizing root l with
  | nil => rfl
  | cons item items ih =>
    rw [placeItems, ih, declared, placeAll, placeAll, List.foldl_append, List.foldl_map]

end Layout

/-! ## Frames -/

/-- The bytes that a variable of a type may take. One of a type that makes no sense may still take a slot. -/
def TypeExpr.room (ty : TypeExpr) : Nat :=
  match ty.describe.result.1 with
  | .ok t => t.size
  | .error _ => Ty.slotSize

namespace Stmt

/-- The bytes that are still in use behind a statement. -/
def kept : Stmt → Nat
  | .declare _ ty | .declareAs _ ty _ | .define _ ty _ _ => ty.room
  | .declareMany _ names types | .declareManyAs _ names types _ =>
    (((typesFor? names types).getD []).map TypeExpr.room).sum
  | _ => 0

mutual

/-- The most bytes that a statement needs at a time. -/
def peak : Stmt → Nat
  | .block _ body => peakAll body
  | .ifThen _ _ yes => yes.peak
  | .ifElse _ _ yes no => max yes.peak no.peak
  | .while _ _ body => body.peak
  | s => s.kept

def peakAll : List Stmt → Nat
  | [] => 0
  | s :: rest => max s.peak (s.kept + peakAll rest)

end

end Stmt

/-- From `env` to `env'` no more than `kept` bytes are taken into use, and no more than `peak` on the way. -/
structure Env.Takes (env : Env) (kept peak : Nat) (env' : Env) : Prop where
  depth : env'.depth ≤ env.depth + kept
  frameSize : env'.frameSize ≤ max env.frameSize (env.depth + peak)

namespace Env.Takes

variable {env env₁ env₂ : Env} {k k' n n' : Nat} {name : String} {info : SymbolInfo}

theorem refl (env : Env) (k n : Nat) : env.Takes k n env := ⟨Nat.le_add_right _ _, Nat.le_max_left _ _⟩

theorem enter (h : env.Takes k n env₁) : env.Takes k n (env₁.enter name info) := by
  obtain ⟨hdepth, hframe⟩ := enter_depth env₁ name info
  exact ⟨hdepth ▸ h.depth, hframe ▸ h.frameSize⟩

theorem alloc (h : n ≤ k) : env.Takes k k (env.alloc n) := by
  refine ⟨Nat.add_le_add_left h _, ?_⟩
  show max env.frameSize (env.depth + n) ≤ _
  omega

theorem trans (h₁ : env.Takes k n env₁) (h₂ : env₁.Takes k' n' env₂) : env.Takes (k + k') (max n (k + n')) env₂ := by
  obtain ⟨hdepth₁, hframe₁⟩ := h₁
  obtain ⟨hdepth₂, hframe₂⟩ := h₂
  exact ⟨by omega, by omega⟩

/-- A row of declarations needs as much as it keeps. -/
theorem next (h₁ : env.Takes k k env₁) (h₂ : env₁.Takes k' k' env₂) : env.Takes (k + k') (k + k') env₂ := by
  have h := h₁.trans h₂
  rwa [Nat.max_eq_right (Nat.le_add_right _ _)] at h

theorem close (h : env.openBlock.Takes k n env₁) : env.Takes 0 n (env.closeBlock env₁) :=
  ⟨Nat.le_refl _, h.frameSize⟩

end Env.Takes

theorem size_eq_room {ty : TypeExpr} {t : Ty} (h : ty.describe.result.1 = .ok t) : t.size = ty.room := by
  unfold TypeExpr.room
  rw [h]

theorem slotSize_le_room (ty : TypeExpr) : Ty.slotSize ≤ ty.room := by
  unfold TypeExpr.room
  split
  next t h => exact TypeExpr.slotSize_le_size h
  · exact Nat.le_refl _

theorem ensures_takes_typed (env : Env) (name : Token) (ty : TypeExpr) :
    Ensures Watch.ignore (declareTyped env name ty) fun r => env.Takes ty.room ty.room r.1 := by
  refine (ensures_declareTyped (fun _ => .trivial) env name ty).mono ?_
  rintro _ (rfl | ⟨t, ht, rfl⟩)
  · exact (Env.Takes.refl ..).enter
  · exact (Env.Takes.alloc (Nat.le_of_eq (size_eq_room ht))).enter

theorem ensures_takes_value (env : Env) (name : Token) (ty : TypeExpr) (value : Expr) :
    Ensures Watch.ignore (declareValue env name ty value) fun r => env.Takes ty.room ty.room r.1 := by
  refine Ensures.bind (ensures_takes_typed env name ty) fun r => ?_
  obtain ⟨env', code, t?⟩ := r
  cases t? with
  | none => exact .pure id
  | some t =>
    dsimp only
    split
    · exact Ensures.bind .trivial fun _ => .pure fun _ h => h
    · exact Ensures.bind .trivial fun _ => Ensures.bind .trivial fun _ => .pure fun _ _ h => h

theorem ensures_takes_locals (env : Env) (names : List Token) (types : List TypeExpr) :
    Ensures Watch.ignore (declareLocals env names types) fun r =>
      env.Takes (types.map TypeExpr.room).sum (types.map TypeExpr.room).sum r.1 := by
  induction names generalizing env types with
  | nil => exact .pure (.refl ..)
  | cons name names ih =>
    cases types with
    | nil => exact .pure (.refl ..)
    | cons ty types =>
      refine Ensures.bind (ensures_localType? (fun _ => .trivial) ..) fun t? => Ensures.bind (ensures_declareLocal (fun _ => .trivial) ..) fun r =>
        Ensures.bind (ih ..) fun r' => .pure fun hrest hr ht => ?_
      have hsize : (t?.getD (.ofBase (.named name.text))).size ≤ ty.room := by
        cases t? with
        | none => exact slotSize_le_room ty
        | some t => exact Nat.le_of_eq (size_eq_room (ht t rfl))
      rw [hr] at hrest
      exact (Env.Takes.alloc hsize).enter.next hrest

theorem ensures_takes_several (env : Env) (names : List Token) (types : TypeList) (values? : Option ExprList) :
    Ensures Watch.ignore (declareSeveral env names types values?) fun r =>
      env.Takes (((typesFor? names types).getD []).map TypeExpr.room).sum
        (((typesFor? names types).getD []).map TypeExpr.room).sum r.1 := by
  unfold declareSeveral
  cases typesFor? names types with
  | none =>
    dsimp only
    split
    · exact Ensures.bind .trivial fun _ => .pure fun _ => .refl ..
    · exact .pure (.refl ..)
  | some tys =>
    refine Ensures.bind (ensures_takes_locals env names tys) fun r => ?_
    cases values? with
    | none => exact .pure id
    | some values => exact Ensures.bind .trivial fun _ => Ensures.bind .trivial fun _ => .pure fun _ _ h => h

theorem ensures_takes_branch {env : Env} {s : Stmt}
    (h : ∀ env, Ensures Watch.ignore (s.lower env) fun r => env.Takes s.kept s.peak r.1) :
    Ensures Watch.ignore (branch env s fun env => s.lower env) fun r => env.Takes 0 s.peak r.1 := by
  unfold branch
  split
  next hb =>
    cases s with
    | block t body => exact h env
    | _ => cases hb
  · exact (h _).bind fun r => .pure fun hr => hr.close

mutual

theorem Stmt.ensures_takes : ∀ (s : Stmt) (env : Env),
    Ensures Watch.ignore (s.lower env) fun r => env.Takes s.kept s.peak r.1
  | .missing _, _ | .ifOnly .., _ | .whileOnly .., _ | .misplaced .., _ => .pure (.refl ..)
  | .block _ body, env => Ensures.bind (Stmt.ensures_takes_all body _) fun _ => .pure fun ⟨_, h⟩ => h.close
  | .ifThen _ c yes, env => Ensures.bind .trivial fun _ => Ensures.bind .trivial fun _ =>
    Ensures.bind (ensures_takes_branch yes.ensures_takes) fun _ => .pure fun h _ _ => h
  | .ifElse _ c yes no, env => Ensures.bind .trivial fun _ => Ensures.bind .trivial fun _ =>
    Ensures.bind (ensures_takes_branch yes.ensures_takes) fun _ =>
      Ensures.bind (ensures_takes_branch no.ensures_takes) fun _ => .pure fun hno hyes _ _ => by
        have h := hyes.trans hno
        rwa [Nat.zero_add, Nat.zero_add] at h
  | .while _ c body, env => Ensures.bind .trivial fun _ => Ensures.bind .trivial fun _ =>
    Ensures.bind (ensures_takes_branch body.ensures_takes) fun _ => .pure fun h _ _ => ⟨Nat.le_refl _, h.frameSize⟩
  | .return .., env | .returnWith .., env | .exit .., env | .swap .., env | .expr .., env | .exprs .., env
  | .external .., env => Ensures.ignore_iff.mpr fun _ => .refl ..
  | .declare name ty, env => Ensures.bind (ensures_takes_typed env name ty) fun _ => .pure id
  | .declareAs name ty value, env => Ensures.bind (ensures_takes_value env name ty value) fun _ => .pure id
  | .define name ty .., env => Ensures.bind (ensures_takes_typed env name ty) fun ⟨_, _, t?⟩ => by
    cases t? with
    | none => exact .pure id
    | some t => exact Ensures.bind .trivial fun _ => .pure fun _ h => h
  | .declareMany .., env | .declareManyAs .., env => Ensures.bind (ensures_takes_several ..) fun _ => .pure id
  | .record .., env | .enumeration .., env =>
    Ensures.bind (ensures_declare (fun _ => .trivial) ..) fun _ => .pure fun h => h ▸ (Env.Takes.refl ..).enter
  | .use _ path alias?, env => by
    unfold Stmt.lower
    split
    · exact .pure (.refl ..)
    · exact Ensures.bind (ensures_declare (fun _ => .trivial) ..) fun _ => .pure fun h => h ▸ (Env.Takes.refl ..).enter

theorem Stmt.ensures_takes_all : ∀ (body : List Stmt) (env : Env),
    Ensures Watch.ignore (Stmt.lowerAll env body) fun r => ∃ k, env.Takes k (Stmt.peakAll body) r.1
  | [], _ => .pure ⟨0, .refl ..⟩
  | s :: rest, env => Ensures.bind (s.ensures_takes env) fun _ => Ensures.bind (Stmt.ensures_takes_all rest _) fun _ =>
    .pure fun ⟨_, hrest⟩ h => ⟨_, h.trans hrest⟩

end

theorem ensures_takes_params (env : Env) (ps : List (Parameter × Token)) :
    Ensures Watch.ignore (lowerParams env ps) fun r => env.Takes (8 * ps.length) (8 * ps.length) r.1 := by
  induction ps generalizing env with
  | nil => exact .pure (.refl ..)
  | cons p ps ih =>
    refine Ensures.bind (ensures_declare (fun _ => .trivial) ..) fun env' => Ensures.bind (ih env') fun r => .pure fun hrest h => ?_
    rw [h] at hrest
    have hall := (Env.Takes.alloc (Nat.le_refl Ty.slotSize)).enter.next hrest
    rwa [Ty.slotSize, Nat.add_comm, ← Nat.mul_succ] at hall

theorem ensures_frameSize_function (globals : NameTable SymbolInfo) (name : Token) (signature : Signature) (params : List Token)
    (brace : Token) (body : List Stmt) :
    Ensures Watch.ignore (lowerFunction globals name signature params brace body) fun f =>
      f.name = name.text ∧ f.frameSize ≤ 8 * params.length + Stmt.peakAll body := by
  unfold lowerFunction
  dsimp only
  split
  case' isTrue =>
    refine Ensures.bind .trivial fun _ => Ensures.mono (R := fun f : Function => f.name = name.text ∧
      f.frameSize ≤ 8 * params.length + Stmt.peakAll body) ?_ fun _ h _ => h
  all_goals
    refine Ensures.bind (ensures_takes_params (.ofFunction globals name.text signature.returns.length) _) fun r₁ =>
      Ensures.bind (Stmt.ensures_takes_all body _) fun r₂ => .pure fun ⟨k, hbody⟩ hparams => ?_
    have hlength : (signature.params.zip params).length ≤ params.length := by
      rw [List.length_zip]
      exact Nat.min_le_right _ _
    have hframe := (hparams.trans hbody.close).frameSize
    rw [Function.emitAll_name, Function.emitAll_frameSize]
    refine ⟨rfl, Nat.le_trans hframe ?_⟩
    show max 0 (0 + _) ≤ _
    omega

/-! ## Source texts -/

/-- The frame of a function that an item defines is as large as its parameters and the declarations of its body ask for. -/
def Function.Framed (items : List Stmt) (f : Function) : Prop :=
  (f.external = true ∧ f.frameSize = 0) ∨ ∃ name ty brace body, Stmt.define name ty brace body ∈ items ∧ f.name = name.text ∧
    f.frameSize ≤ 8 * ty.paramTokens.length + Stmt.peakAll body

theorem framed_ofItems {items : List Stmt} {scope : Scope} {f : Function}
    (hf : f ∈ (Program.ofItems items scope).program.functions) : f.Framed items := by
  obtain ⟨-, fs, hfs, hmem, -⟩ := of_parts (W := .ignore) trivial trivial .trivial (ensures_items fun i item hi =>
    ensures_item (P := Function.Framed items) (fun name ty brace body s heq _ => (ensures_frameSize_function ..).mono
      fun f h => .inr ⟨name, ty, brace, body, heq ▸ List.mem_of_getElem? hi, h.1, h.2⟩) fun _ _ _ _ _ => .inl ⟨rfl, rfl⟩)
  exact hfs f (hmem f hf)

/-- For all items of a text, and whatever is wrong with them: the slots of an array can be counted in a word, and its bytes
can exactly if there are fewer than 2 ^ 61 slots. The offset behind each global is the sum of the sizes up to there. A
function has no more of its frame in use than its parameters and declarations ask for; if a word can count that, the
code of the function takes and gives back just that much. -/
theorem sizes_counted (items : List Stmt) (scope : Scope) :
    (∀ (ty : TypeExpr) (t : Ty), ty.describe.result.1 = .ok t →
      0 < t.arrayLen.getD 1 ∧ t.arrayLen.getD 1 < 2 ^ 64 ∧ (t.size < 2 ^ 64 ↔ t.arrayLen.getD 1 < 2 ^ 61)) ∧
    Layout.ofItems scope items = Layout.placeAll scope {} (Layout.declared 0 items) ∧
    (∀ xs, xs <+: Layout.declared 0 items → (Layout.placeAll scope {} xs).size = (xs.map (Layout.taken scope)).sum ∧
      (Layout.placeAll scope {} xs).size ≤ (Layout.ofItems scope items).size) ∧
    ∀ f ∈ (Program.ofItems items scope).program.functions, f.Framed items ∧
      (f.frameSize < 2 ^ 64 → ∃ depth, f.FrameMap depth) := by
  refine ⟨fun ty t h => ?_, Layout.placeItems_eq .., ?_, fun f hf =>
    ⟨framed_ofItems hf, frameMap_of_mem (List.mem_cons_of_mem _ hf)⟩⟩
  · obtain ⟨hpos, hlt⟩ := ty.arrayLen_describe (Prod.ext h rfl)
    refine ⟨hpos, hlt, ?_⟩
    rw [Ty.size, Ty.slotSize]
    omega
  · rintro xs ⟨ys, hxs⟩
    have hsize (zs : List (Nat × Token)) := (Layout.size_placeAll scope {} zs).trans (Nat.zero_add _)
    rw [Layout.ofItems, Layout.placeItems_eq, ← hxs, hsize, hsize, List.map_append, List.sum_append]
    exact ⟨rfl, Nat.le_add_right _ _⟩

/-- A type of so many slots that its bytes cannot be counted in a word. -/
theorem bytes_beyond_word :
    ∃ name ty t, Stmt.declare name ty ∈ (parse "x : [2305843009213693952] u64;").roots ∧ ty.describe.result.1 = .ok t ∧
      t.size = 2 ^ 64 := by
  have hroots : ((parse "x : [2305843009213693952] u64;").roots.any fun item =>
      match item with
      | .declare _ ty => match ty.describe.result.1 with
        | .ok t => t.size == 2 ^ 64
        | .error _ => false
      | _ => false) = true := by decide +kernel
  obtain ⟨item, hitem, h⟩ := List.any_eq_true.mp hroots
  split at h
  next name ty =>
    split at h
    next t ht => exact ⟨name, ty, t, hitem, ht, eq_of_beq h⟩
    · cases h
  · cases h

end Wordstack
