/-
The part of the frame that each variable takes. Room is only ever taken beyond what is in
use, and given back where a block ends, together with the names that stand for it; so the
variables of all blocks around a point lie side by side, and within what is in use there.
-/
import Wordstack.Code.Program
import Wordstack.Proofs.Ensures
import Wordstack.Proofs.TypeFacts

namespace Wordstack

open Lower

variable {a b : FrameSlot} {env : Env} {s : SymbolInfo} {x : String}

/-! ## Slots -/

/-- Bytes of a frame: `size` of them, the first one `offset` below its base. -/
structure FrameSlot where
  offset : Nat
  size : Nat

namespace FrameSlot

/-- The byte that lies `d` below the base is one of them. -/
def Covers (s : FrameSlot) (d : Nat) : Prop := d ≤ s.offset ∧ s.offset < d + s.size

/-- No byte belongs to both. -/
def Apart (a b : FrameSlot) : Prop := ∀ d, a.Covers d → ¬ b.Covers d

theorem Apart.symm (h : a.Apart b) : b.Apart a := fun d hb ha => h d ha hb

theorem apart_of_le (h : a.offset + b.size ≤ b.offset) : a.Apart b := by
  rintro d ⟨ha, _⟩ ⟨_, hb⟩
  omega

theorem Apart.le (h : a.Apart b) (ha : 0 < a.size) (hb : 0 < b.size) :
    a.offset + b.size ≤ b.offset ∨ b.offset + a.size ≤ a.offset := by
  refine Classical.byContradiction fun hn => ?_
  -- the upper end of the lower one of the two would belong to both
  by_cases hle : a.offset ≤ b.offset
  · exact h a.offset ⟨Nat.le_refl _, by omega⟩ ⟨hle, by omega⟩
  · exact h b.offset ⟨by omega, by omega⟩ ⟨Nat.le_refl _, by omega⟩

end FrameSlot

/-- The slot of a variable that is kept in the frame. -/
def SymbolInfo.slot? (s : SymbolInfo) : Option FrameSlot :=
  match s.storage with
  | some (.stack o) => some ⟨o, (s.type?.map Ty.size).getD Ty.slotSize⟩
  | _ => none

namespace Env

/-- The slot of the variable `x` of the block at position `i`, counted from the innermost one. -/
def slot? (env : Env) (i : Nat) (x : String) : Option FrameSlot :=
  (env.blocks[i]?).bind fun block => (block.get? x).bind SymbolInfo.slot?

/-- The variables of all blocks lie side by side in the part of the frame that is in use. -/
structure FrameOK (env : Env) : Prop where
  within : ∀ i x s, env.slot? i x = some s → 8 ≤ s.size ∧ s.size ≤ s.offset ∧ s.offset ≤ env.depth
  apart : ∀ i x j y a b, env.slot? i x = some a → env.slot? j y = some b → (i, x) ≠ (j, y) → a.Apart b
  globals : ∀ x s o, env.globals.get? x = some s → s.storage ≠ some (.stack o)
  depth_le : env.depth ≤ env.frameSize
  loop_le : ∀ b, env.loopDepth = some b → b ≤ env.depth

/-- Enters a name into the innermost block, whatever it stood for there. -/
def enter (env : Env) (name : String) (info : SymbolInfo) : Env :=
  match env.blocks with
  | [] => env
  | block :: outer => { env with blocks := block.set name info :: outer }

/-- What lowering a statement may change: the innermost block, and how much of the frame is in use. -/
structure Grows (env env' : Env) : Prop where
  globals : env'.globals = env.globals
  length : env'.blocks.length = env.blocks.length
  outer : env'.blocks.tail = env.blocks.tail
  excluded : env'.excluded = env.excluded
  depth : env.depth ≤ env'.depth
  frameSize : env.frameSize ≤ env'.frameSize
  loopDepth : env'.loopDepth = env.loopDepth
  function : env'.function = env.function
  returns : env'.returns = env.returns

variable {env env' env'' : Env} {name : String} {info : SymbolInfo}

theorem Grows.refl (env : Env) : env.Grows env :=
  ⟨rfl, rfl, rfl, rfl, Nat.le_refl _, Nat.le_refl _, rfl, rfl, rfl⟩

theorem Grows.trans (h₁ : env.Grows env') (h₂ : env'.Grows env'') : env.Grows env'' where
  globals := h₂.globals.trans h₁.globals
  length := h₂.length.trans h₁.length
  outer := h₂.outer.trans h₁.outer
  excluded := h₂.excluded.trans h₁.excluded
  depth := Nat.le_trans h₁.depth h₂.depth
  frameSize := Nat.le_trans h₁.frameSize h₂.frameSize
  loopDepth := h₂.loopDepth.trans h₁.loopDepth
  function := h₂.function.trans h₁.function
  returns := h₂.returns.trans h₁.returns

theorem Grows.enter (env : Env) (name : String) (info : SymbolInfo) : env.Grows (env.enter name info) := by
  unfold Env.enter
  split
  · exact .refl env
  next block outer hb =>
    exact ⟨rfl, by simp [hb], by simp [hb], rfl, Nat.le_refl _, Nat.le_refl _, rfl, rfl, rfl⟩

theorem enter_depth (env : Env) (name : String) (info : SymbolInfo) :
    (env.enter name info).depth = env.depth ∧ (env.enter name info).frameSize = env.frameSize := by
  unfold Env.enter
  split <;> exact ⟨rfl, rfl⟩

theorem Grows.alloc (env : Env) (n : Nat) : env.Grows (env.alloc n) :=
  ⟨rfl, rfl, rfl, rfl, Nat.le_add_right _ _, Nat.le_max_left _ _, rfl, rfl, rfl⟩

theorem Grows.closeBlock (h : env.frameSize ≤ env'.frameSize) : env.Grows (env.closeBlock env') :=
  ⟨rfl, rfl, rfl, rfl, Nat.le_refl _, h, rfl, rfl, rfl⟩

/-! ## What the operations on environments keep -/

theorem slot?_openBlock_zero (env : Env) (x : String) : env.openBlock.slot? 0 x = none := rfl

theorem slot?_enter (env : Env) (name : String) (info : SymbolInfo) (i : Nat) (x : String) :
    (env.enter name info).slot? i x = if i = 0 ∧ name = x ∧ env.blocks ≠ [] then info.slot? else env.slot? i x := by
  cases hb : env.blocks with
  | nil => simp [enter, slot?, hb]
  | cons block outer =>
    cases i with
    | zero =>
      by_cases hx : name = x
      · simp [enter, slot?, hb, hx]
      · simp [enter, slot?, hb, hx]
    | succ i => simp [enter, slot?, hb]

theorem FrameOK.openBlock (h : env.FrameOK) : env.openBlock.FrameOK where
  within := fun
    | 0, x, s, hs => by simp [slot?_openBlock_zero] at hs
    | i + 1, x, s, hs => h.within i x s hs
  apart := fun
    | 0, x, _, _, _, _, ha, _, _ => by simp [slot?_openBlock_zero] at ha
    | _ + 1, _, 0, _, _, _, _, hb, _ => by simp [slot?_openBlock_zero] at hb
    | i + 1, x, j + 1, y, a, b, ha, hb, hne => h.apart i x j y a b ha hb (by simpa using hne)
  globals := h.globals
  depth_le := h.depth_le
  loop_le := h.loop_le

theorem FrameOK.closeBlock (h : env.FrameOK) (hf : env.frameSize ≤ env'.frameSize) : (env.closeBlock env').FrameOK :=
  ⟨h.within, h.apart, h.globals, Nat.le_trans h.depth_le hf, h.loop_le⟩

theorem FrameOK.inLoop (h : env.FrameOK) : ({ env with loopDepth := some env.depth } : Env).FrameOK :=
  ⟨h.within, h.apart, h.globals, h.depth_le, fun _ hb => Nat.le_of_eq (Option.some.inj hb).symm⟩

theorem FrameOK.hiding (h : env.FrameOK) (x : Option String) : ({ env with excluded := x } : Env).FrameOK :=
  ⟨h.within, h.apart, h.globals, h.depth_le, h.loop_le⟩

/-- A name that stands for no variable of the frame. -/
theorem FrameOK.enter (h : env.FrameOK) (hs : info.slot? = none) : (env.enter name info).FrameOK := by
  have hg := Grows.enter env name info
  have hold : ∀ i x s, (env.enter name info).slot? i x = some s → env.slot? i x = some s := by
    intro i x s hx
    rw [slot?_enter] at hx
    split at hx
    · rw [hs] at hx
      cases hx
    · exact hx
  have hd := enter_depth env name info
  refine ⟨fun i x s hx => ?_, fun i x j y a b ha hb => h.apart i x j y a b (hold _ _ _ ha) (hold _ _ _ hb),
    ?_, ?_, ?_⟩
  · rw [hd.1]
    exact h.within i x s (hold _ _ _ hx)
  · rw [hg.globals]
    exact h.globals
  · rw [hd.1, hd.2]
    exact h.depth_le
  · rw [hg.loopDepth, hd.1]
    exact h.loop_le

/-- A variable gets the bytes that have just been taken into use. -/
theorem FrameOK.alloc_enter {n : Nat} (h : env.FrameOK) (hn : 8 ≤ n)
    (hs : info.slot? = some ⟨env.depth + n, n⟩) : ((env.alloc n).enter name info).FrameOK := by
  have hg := Grows.enter (env.alloc n) name info
  have hd : ((env.alloc n).enter name info).depth = env.depth + n ∧
      ((env.alloc n).enter name info).frameSize = max env.frameSize (env.depth + n) := enter_depth ..
  -- either the new variable, or one that lies within what was in use before
  have hcase : ∀ i x s, ((env.alloc n).enter name info).slot? i x = some s →
      ((i, x) = (0, name) ∧ s = ⟨env.depth + n, n⟩) ∨ env.slot? i x = some s := by
    intro i x s hx
    rw [slot?_enter] at hx
    split at hx
    next hnew =>
      obtain ⟨rfl, rfl, _⟩ := hnew
      rw [hs] at hx
      exact .inl ⟨rfl, (Option.some.inj hx).symm⟩
    · exact .inr hx
  refine ⟨fun i x s hx => ?_, fun i x j y a b ha hb hne => ?_, ?_, ?_, fun b hb => ?_⟩
  · rw [hd.1]
    rcases hcase i x s hx with ⟨-, rfl⟩ | hold
    · exact ⟨hn, Nat.le_add_left _ _, Nat.le_refl _⟩
    · obtain ⟨h1, h2, h3⟩ := h.within i x s hold
      exact ⟨h1, h2, by omega⟩
  · rcases hcase i x a ha with ⟨hix, rfl⟩ | hold_a <;> rcases hcase j y b hb with ⟨hjy, rfl⟩ | hold_b
    · exact absurd (hix.trans hjy.symm) hne
    · have := (h.within j y b hold_b).2.2
      exact (FrameSlot.apart_of_le (by simp only []; omega)).symm
    · have := (h.within i x a hold_a).2.2
      exact FrameSlot.apart_of_le (by simp only []; omega)
    · exact h.apart i x j y a b hold_a hold_b hne
  · rw [hg.globals]
    exact h.globals
  · rw [hd.1, hd.2]
    exact Nat.le_max_right _ _
  · rw [hg.loopDepth] at hb
    rw [hd.1]
    exact Nat.le_add_right_of_le (h.loop_le b hb)

/-- What a name in scope stands for is found in a block or among the globals. -/
theorem mem_of_lookup? (h : env.lookup? x = some s) :
    (∃ (i : Nat) (block : NameTable SymbolInfo), env.blocks[i]? = some block ∧ block.get? x = some s) ∨
      env.globals.get? x = some s := by
  have hm : s ∈ env.meanings x := by
    unfold lookup? at h
    split at h
    · exact List.mem_of_mem_tail (List.mem_of_mem_head? h)
    · exact List.mem_of_mem_head? h
  simp only [meanings, List.mem_append, List.mem_filterMap, Option.mem_toList] at hm
  rcases hm with ⟨block, hb, hs⟩ | hs
  · obtain ⟨i, hi, rfl⟩ := List.getElem_of_mem hb
    exact .inl ⟨i, _, List.getElem?_eq_getElem hi, hs⟩
  · exact .inr hs

theorem FrameOK.offset_of_lookup? (h : env.FrameOK) {o : Nat}
    (hl : env.lookup? x = some s) (hs : s.storage = some (.stack o)) : 8 ≤ o ∧ o ≤ env.depth := by
  rcases mem_of_lookup? hl with ⟨i, block, hb, hx⟩ | hx
  · have hslot : env.slot? i x = some ⟨o, (s.type?.map Ty.size).getD Ty.slotSize⟩ := by
      simp [slot?, hb, hx, SymbolInfo.slot?, hs]
    obtain ⟨h1, h2, h3⟩ := h.within i x _ hslot
    exact ⟨Nat.le_trans h1 h2, h3⟩
  · exact absurd hs (h.globals x s o hx)

end Env


/-! ## Declarations -/

/-- The environment behind the declaration of a variable. -/
def Env.declared (env : Env) (name : String) (span : Span) (t : Ty) : Env :=
  (env.alloc t.size).enter name (localVar span (env.depth + t.size) t)

theorem Env.depth_declared (env : Env) (name : String) (span : Span) (t : Ty) :
    (env.declared name span t).depth = env.depth + t.size := (enter_depth ..).1

theorem slot?_localVar (span : Span) (offset : Nat) (t : Ty) : (localVar span offset t).slot? = some ⟨offset, t.size⟩ := rfl

section

variable {W : Watch Notes} (hr : ∀ e, Ensures W (report e) fun _ => True)
include hr

theorem ensures_declare (env : Env) (name : String) (info : SymbolInfo) :
    Ensures W (env.declare name info) fun env' => env' = env.enter name info := by
  unfold Env.declare Env.enter
  cases env.blocks with
  | nil => exact .pure rfl
  | cons block outer =>
    dsimp only
    cases block.get? name with
    | none => exact .pure rfl
    | some first => exact (hr _).bind fun _ => .pure fun _ => rfl

theorem ensures_checkRefs (env : Env) (refs : TypeRefs) : Ensures W (checkRefs env refs) fun _ => True := by
  induction refs with
  | nil => exact .pure trivial
  | cons ref refs ih =>
    unfold checkRefs
    dsimp only
    split
    · exact (hr _).bind fun _ => ih.bind fun _ => .pure fun _ _ => trivial
    split
    · exact ih.bind fun _ => .pure fun _ => trivial
    · exact (hr _).bind fun _ => ih.bind fun _ => .pure fun _ _ => trivial

theorem ensures_localType? (env : Env) (ty : TypeExpr) :
    Ensures W (localType? env ty) fun t? => ∀ t, t? = some t → ty.describe.result.1 = .ok t := by
  unfold localType?
  split
  · exact (hr _).bind fun _ => .pure fun _ _ h => by cases h
  next t refs hd =>
    refine (ensures_checkRefs hr env refs).bind fun ok => ?_
    split
    · refine .pure fun _ t' h => ?_
      obtain rfl := Option.some.inj h
      rw [hd]
    · exact .pure fun _ _ h => by cases h

theorem ensures_declareLocal (env : Env) (name : Token) (t : Ty) : Ensures W (declareLocal env name t) fun r =>
      r = (env.declared name.text name.span t, [allocCommand t.size name.span]) :=
  (ensures_declare hr ..).bind fun _ => .pure fun h => by rw [h]; rfl

/-- A declaration enters a variable, or a name of which nothing is known. -/
theorem ensures_declareTyped (env : Env) (name : Token) (ty : TypeExpr) : Ensures W (declareTyped env name ty) fun r =>
      r = (env.enter name.text { kind := .error, span := name.span }, [], none) ∨
        ∃ t, ty.describe.result.1 = .ok t ∧
          r = (env.declared name.text name.span t, [allocCommand t.size name.span], some t) := by
  have hbroken : Ensures W (declareBroken env name) fun r =>
      r = (env.enter name.text { kind := .error, span := name.span }, []) :=
    (ensures_declare hr ..).bind fun _ => .pure fun h => by rw [h]
  unfold declareTyped
  split
  · exact hbroken.bind fun _ => .pure fun h => .inl (by rw [h])
  split
  · exact (hr _).bind fun _ => hbroken.bind fun _ => .pure fun h _ => .inl (by rw [h])
  · refine (ensures_localType? hr env ty).bind fun t? => ?_
    split
    · exact hbroken.bind fun _ => .pure fun h _ => .inl (by rw [h])
    next t => exact (ensures_declareLocal hr env name t).bind fun _ => .pure fun h ht => .inr ⟨t, ht t rfl, by rw [h]⟩

end

/-- The environment is as good as the one before, with more names or more room in it. -/
def Env.Follows (env env' : Env) : Prop := env.Grows env' ∧ (env.FrameOK → env'.FrameOK)

theorem Env.Follows.refl (env : Env) : env.Follows env := ⟨.refl env, id⟩

theorem Env.Follows.trans {env' env'' : Env} (h₁ : env.Follows env') (h₂ : env'.Follows env'') : env.Follows env'' :=
  ⟨h₁.1.trans h₂.1, fun h => h₂.2 (h₁.2 h)⟩

theorem Env.Follows.enter {name : String} {info : SymbolInfo} (h : info.slot? = none) : env.Follows (env.enter name info) :=
  ⟨.enter .., fun hf => hf.enter h⟩

theorem Env.Follows.declareLocal (name : String) (span : Span) {t : Ty} {n : Nat} (h : 8 ≤ n) (hn : t.size = n) :
    env.Follows ((env.alloc n).enter name (localVar span (env.depth + n) t)) :=
  ⟨(Grows.alloc ..).trans (.enter ..), fun hf => hf.alloc_enter h (by rw [slot?_localVar, hn])⟩

theorem Env.Follows.close {inner : Env} (h : env.openBlock.Follows inner) (code : Code) (span : Span) :
    env.Follows (env.close inner code span).1 :=
  have hf : env.frameSize ≤ inner.frameSize := h.1.frameSize
  ⟨.closeBlock hf, fun hok => hok.closeBlock hf⟩

/-! ## Functions -/

theorem Ty.size_asArgument (t : Ty) : t.asArgument.size = Ty.slotSize := by
  unfold asArgument
  split
  · rfl
  next h =>
    unfold isArray at h
    cases hl : t.arrayLen with
    | none => simp [size, hl]
    | some n => simp [hl] at h

/-- Before the parameters of a function. -/
def Env.ofFunction (globals : NameTable SymbolInfo) (function : String) (returns : Nat) : Env :=
  { globals, blocks := [[]], function, returns }

theorem frameOK_ofFunction {globals : NameTable SymbolInfo}
    (hg : ∀ x s o, globals.get? x = some s → s.storage ≠ some (.stack o)) (function : String) (returns : Nat) :
    (Env.ofFunction globals function returns).FrameOK := by
  have hnone : ∀ i x, (Env.ofFunction globals function returns).slot? i x = none := by
    intro i x
    cases i <;> rfl
  refine ⟨fun i x s h => ?_, fun i x j y a b h => ?_, hg, Nat.le_refl _, fun b h => by cases h⟩
  · rw [hnone] at h
    cases h
  · rw [hnone] at h
    cases h

theorem Layout.get?_symbols (scope : Scope) (l : Layout) (x : String) :
    (l.symbols scope).get? x = (scope.get? x).map fun e =>
      e.info (if e.kind = .var then (l.offsets.get? x).map .static else none) :=
  NameTable.get?_map
    (fun name e => Entry.info e (if e.kind = .var then (l.offsets.get? name).map .static else none)) scope x

/-- Globals are not kept in a frame. -/
theorem storage_symbols (scope : Scope) (l : Layout) {o : Nat}
    (h : (l.symbols scope).get? x = some s) : s.storage ≠ some (.stack o) := by
  rw [l.get?_symbols] at h
  obtain ⟨e, -, rfl⟩ := Option.map_eq_some_iff.mp h
  simp only [Entry.info]
  split
  · cases l.offsets.get? x <;> simp
  · simp

end Wordstack
