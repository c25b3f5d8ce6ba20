/-
The frames of whole programs. For every function there is a map from the positions of its
code to the bytes in use there; it says where the variables may lie, what is given back
on each way out, and how large a frame can get. At each point of a body the variables
that are in scope lie side by side.
-/
import Wordstack.Compilation
import Wordstack.Proofs.FrameDepth

namespace Wordstack

open Lower

variable {ctx : GlobalContext} {f : Function}

/-- `depth` tells for each position of the code of `f` how many bytes of the frame are in use there. -/
structure Function.FrameMap (f : Function) (depth : Nat → Nat) : Prop where
  index : ∀ (i : Nat) (instr : Instr), f.code[i]? = some instr → instr.index = i
  start : depth 0 = 0
  /-- To the next instruction. -/
  next : ∀ (i : Nat) (instr : Instr), f.code[i]? = some instr → instr.op.fallsThrough = true →
    depth (i + 1) = instr.moveDepth (depth i)
  /-- To the target of a jump, which lies in the function or right behind it. -/
  jump : ∀ (i : Nat) (instr : Instr), f.code[i]? = some instr → instr.op.isJump = true →
    ∃ (d : Int) (t : Nat), instr.operand = .signed d ∧ (t : Int) = i + 1 + d ∧ t ≤ f.length ∧ depth t = depth i
  /-- All but the frame pop that closes a function are those of returns. -/
  fits : ∀ (i : Nat) (instr : Instr), f.code[i]? = some instr → instr.op ≠ .framePop ∨ i + 2 ≠ f.length →
    instr.DepthOK (depth i)
  le : ∀ i ≤ f.length, depth i ≤ f.frameSize
  reached : ∃ i, (i = 0 ∨ i < f.length) ∧ depth i = f.frameSize

/-! ## Putting a function together -/

/-- Code that may stand outside of loops has no jumps out of one. -/
theorem Flow.Path.commands_eq {σ : Type} {F : Flow σ} {s s' : σ} {code : Code} {seen : σ → Prop}
    (h : F.Path none s code s' seen) : Code.ofCommands code.commands = code := by
  obtain ⟨m, -, -, -, hf⟩ := h
  have hfits := hf m code.length 0 (fun i _ => by rw [Nat.zero_add]) (by omega)
  have hstep : ∀ step ∈ code, ∃ c, step = .command c := by
    intro step hmem
    obtain ⟨i, hi, rfl⟩ := List.getElem_of_mem hmem
    have hs := hfits i _ (List.getElem?_eq_getElem hi)
    cases hc : code[i] with
    | command c => exact ⟨c, rfl⟩
    | pending exit span =>
      rw [hc] at hs
      cases hs
  rw [Code.ofCommands, Code.commands, List.map_map]
  refine (List.map_congr_left fun step hmem => ?_).trans (List.map_id code)
  obtain ⟨c, rfl⟩ := hstep step hmem
  rfl

theorem Flow.Path.commands {σ : Type} {F : Flow σ} {s s' : σ} {code : Code} {seen : σ → Prop}
    (h : F.Path none s code s' seen) : F.Path none s (Code.ofCommands code.commands) s' seen := by
  rw [h.commands_eq]
  exact h

/-- How the code of a function ends. -/
def IsEnd (cs : List Command) : Prop :=
  (∃ span, cs = [{ op := .framePop, span }, { op := .ret, span }]) ∨
    (∃ c : Command, cs = [c] ∧ (c.op = .ret ∨ c.op = .brk))

theorem isEnd_functionEnd (returns : Nat) (span : Span) : IsEnd (functionEnd returns span) := by
  unfold functionEnd
  split
  · exact .inl ⟨span, rfl⟩
  · exact .inr ⟨_, rfl, .inr rfl⟩

theorem IsEnd.ne_nil {ends : List Command} (h : IsEnd ends) : 0 < ends.length := by
  rcases h with ⟨_, rfl⟩ | ⟨_, rfl, _⟩ <;> simp

/-- The end of a function does not use the frame; only its frame pop may find some of it in use. -/
theorem IsEnd.command {ends : List Command} (h : IsEnd ends) {i : Nat} {c : Command} (hc : ends[i]? = some c) :
    c.op.isJump = false ∧ (c.op.fallsThrough = true → ∀ d, c.moveDepth d = d) ∧
      ((c.op = .framePop → i + 2 ≠ ends.length) → ∀ d, c.DepthOK d) := by
  rcases h with ⟨span, rfl⟩ | ⟨⟨op, operand, span⟩, rfl, hop⟩
  · match i with
    | 0 => cases hc; exact ⟨rfl, fun _ _ => rfl, fun h => absurd rfl (h rfl)⟩
    | 1 => cases hc; exact ⟨rfl, fun _ _ => rfl, fun _ _ => trivial⟩
    | i + 2 => simp at hc
  · match i with
    | 0 =>
      cases hc
      rcases hop with hop | hop <;> cases hop <;> exact ⟨rfl, fun h => (by cases h), fun _ _ => trivial⟩
    | i + 1 => simp at hc

theorem frameMap_emitAll (hf : f.code = #[]) {cs ends : List Command} {d : Nat}
    {seen : Nat → Prop} (hp : depthFlow.Path none 0 (Code.ofCommands cs) d seen)
    (hle : ∀ x, seen x → x ≤ f.frameSize) (hmax : f.frameSize = 0 ∨ seen f.frameSize) (hends : IsEnd ends) :
    ∃ depth, (f.emitAll (cs ++ ends)).FrameMap depth := by
  obtain ⟨m, h₀, h₁, hseen, hfits⟩ := hp
  have hlen : (Code.ofCommands cs).length = cs.length := by simp [Code.ofCommands]
  rw [hlen] at h₁ hseen
  have hsize : (f.emitAll (cs ++ ends)).length = cs.length + ends.length := by
    rw [Function.length_emitAll hf, List.length_append]
  have hpos := hends.ne_nil
  -- behind the statements the depth stays what it was at their end
  have hfits := hfits (fun i => m (min i cs.length)) (cs.length + ends.length) 0
    (fun i hi => by rw [Nat.zero_add, Nat.min_eq_left (by omega)]) (by omega)
  have hstep : ∀ i c, cs[i]? = some c →
      depthFlow.StepFits none (fun i => m (min i cs.length)) (cs.length + ends.length) i (.command c) := by
    intro i c hc
    have := hfits i (.command c) (by simp [Code.ofCommands, hc])
    rwa [Nat.zero_add] at this
  have hat : ∀ i instr, (f.emitAll (cs ++ ends)).code[i]? = some instr →
      cs[i]? = some instr.toCommand ∨ (cs.length ≤ i ∧ ends[i - cs.length]? = some instr.toCommand) := by
    intro i instr hi
    obtain ⟨c, hc, rfl⟩ := Function.getElem?_emitAll hf hi
    by_cases hlt : i < cs.length
    · exact .inl (by rwa [List.getElem?_append_left hlt] at hc)
    · exact .inr ⟨by omega, by rwa [List.getElem?_append_right (by omega)] at hc⟩
  refine ⟨fun i => m (min i cs.length), fun i instr hi => ?_, ?_, fun i instr hi hft => ?_,
    fun i instr hi hj => ?_, fun i instr hi hpop => ?_, fun i hi => ?_, ?_⟩
  · obtain ⟨c, -, rfl⟩ := Function.getElem?_emitAll hf hi
    rfl
  · rw [Nat.zero_min, h₀]
  · rcases hat i instr hi with hc | ⟨hge, hc⟩
    · exact (hstep i _ hc).2.1 hft
    · rw [Nat.min_eq_right (by omega), Nat.min_eq_right hge, (hends.command hc).2.1 hft]
  · rcases hat i instr hi with hc | ⟨hge, hc⟩
    · obtain ⟨d, t, hd, ht, hle, hm⟩ := (hstep i _ hc).2.2 hj
      refine ⟨d, t, hd, ht, by rw [hsize]; exact hle, hm.trans ?_⟩
      show instr.moveDepth _ = _
      obtain ⟨⟨op, operand, span⟩, index⟩ := instr
      cases op <;> first | rfl | cases hj
    · rw [(hends.command hc).1] at hj
      cases hj
  · rcases hat i instr hi with hc | ⟨hge, hc⟩
    · exact (hstep i _ hc).1
    · refine (hends.command hc).2.2 (fun hop h => ?_) _
      rcases hpop with hpop | hpop
      · exact hpop hop
      · rw [hsize] at hpop
        omega
  · rw [Function.emitAll_frameSize]
    exact hle _ ((hseen _).mpr ⟨_, Nat.min_le_right _ _, rfl⟩)
  · rw [Function.emitAll_frameSize, hsize]
    rcases hmax with hmax | hmax
    · exact ⟨0, .inl rfl, by rw [Nat.zero_min, h₀, hmax]⟩
    · obtain ⟨i, hi, hm⟩ := (hseen _).mp hmax
      exact ⟨i, .inr (by omega), by rw [Nat.min_eq_left hi, hm]⟩

/-! ## Functions -/

theorem ensures_frameMap_function {globals : NameTable SymbolInfo}
    (hg : ∀ x s o, globals.get? x = some s → s.storage ≠ some (.stack o)) (name : Token)
    (signature : Signature) (params : List Token) (brace : Token) (body : List Stmt) :
    Ensures Watch.ignore (lowerFunction globals name signature params brace body) fun f =>
      f.frameSize < UInt64.size → ∃ depth, f.FrameMap depth := by
  refine (composes_deep.function globals name signature params brace fun t _ env => ensures_level_atom env t).mono ?_
  rintro _ ⟨env, code, hdeep, rfl⟩ hs
  rw [Function.emitAll_frameSize] at hs
  obtain ⟨seen, hp, hle, hmax⟩ := hdeep.2 (frameOK_ofFunction hg ..) hs
  have hpush : depthFlow.Path none 0 (Code.ofCommands [{ op := .framePush, span := name.span }]) 0
      fun x => x = 0 ∨ x = 0 := Flow.Path.command trivial rfl fun _ => rfl
  refine frameMap_emitAll rfl (hpush.appendCommands hp.commands) (fun x hx => ?_) (hmax.imp id .inr) (isEnd_functionEnd ..)
  rcases hx with (rfl | rfl) | hx
  · exact Nat.zero_le _
  · exact Nat.zero_le _
  · exact hle x hx

/-! ## Programs -/

theorem frameMap_external (f : Function) (hc : f.code = #[]) (hs : f.frameSize = 0) : f.FrameMap fun _ => 0 := by
  refine ⟨fun i instr hi => ?_, rfl, fun i instr hi => ?_, fun i instr hi => ?_, fun i instr hi => ?_,
    fun _ _ => Nat.zero_le _, ⟨0, .inl rfl, hs.symm⟩⟩
  all_goals
    rw [hc] at hi
    cases hi

/-- What is so of the function that an item defines, for each of the items, is so of all functions. -/
theorem ensures_items {W : Watch Notes} {P : Function → Prop} {items : List Stmt} {root : Nat}
    (h : ∀ i item, items[i]? = some item → Ensures W (lowerItem ctx (root + i) item) fun f? => ∀ f ∈ f?, P f) :
    Ensures W (lowerItems ctx root items) fun fs => ∀ f ∈ fs, P f := by
  induction items generalizing root with
  | nil => exact .pure fun f hf => by cases hf
  | cons item items ih =>
    have hrest : ∀ i item', items[i]? = some item' →
        Ensures W (lowerItem ctx (root + 1 + i) item') fun f? => ∀ f ∈ f?, P f := by
      intro i item' hi
      rw [Nat.add_assoc, Nat.add_comm 1]
      exact h (i + 1) item' hi
    refine (h 0 item rfl).bind fun f? => (ih hrest).bind fun fs => .pure fun hfs hf f hm => ?_
    rcases List.mem_append.mp hm with hm | hm
    · exact hf f (Option.mem_toList.mp hm)
    · exact hfs f hm

/-- An item makes a function, tells of one that is elsewhere, or does neither. -/
theorem ensures_item {W : Watch Notes} {P : Function → Prop} {root : Nat} {item : Stmt}
    (hdefine : ∀ name ty brace body s, item = .define name ty brace body → lowerItem.signatureFor? ctx root name = some s →
      Ensures W (lowerFunction ctx.env.globals name s ty.paramTokens brace body) P)
    (hexternal : ∀ name ty s, item = .external name ty → lowerItem.signatureFor? ctx root name = some s →
      P { name := name.text, params := s.params.length, returns := s.returns.length, external := true }) :
    Ensures W (lowerItem ctx root item) fun f? => ∀ f ∈ f?, P f := by
  unfold lowerItem
  split
  · split
    next s hs => exact (hdefine _ _ _ _ s rfl hs).bind fun f => .pure fun hf f' h => Option.some.inj h ▸ hf
    · exact .pure nofun
  · split
    next s hs => exact .pure fun f h => Option.some.inj h ▸ hexternal _ _ s rfl hs
    · exact .pure nofun
  · exact .pure nofun

def GlobalContext.ofItems (items : List Stmt) (scope : Scope) : GlobalContext :=
  let layout := Layout.ofItems scope items
  { scope, layout, env := { globals := layout.symbols scope } }

/-- The code that gives so many globals their first values. -/
def Program.setup (slots : Nat) (code : List Command) : Function :=
  Function.emitAll { name := initName }
    ({ op := .setupGlobal, operand := .unsigned slots.toUInt64, span := .nowhere } ::
      code ++ [{ op := .ret, span := .nowhere }])

/-- The parts that a program is made of: what the globals hold at first, the code for the others, and the functions. -/
def Program.parts (ctx : GlobalContext) (items : List Stmt) : Lower (List UInt64 × List Command × List Function) := do
  let (globals, code) ← initItems ctx 0 (List.replicate ctx.layout.slots 0) items
  let functions ← lowerItems ctx 0 items
  return (globals, code, functions)

theorem Program.ofItems_eq (items : List Stmt) (scope : Scope) : ofItems items scope =
      let r := parts (.ofItems items scope) items {}
      ⟨r.1.2.2.foldl insert
        { init := setup (Layout.ofItems scope items).slots r.1.2.1, globals := r.1.1, strings := r.2.strings }, r.2.errors⟩ :=
  rfl

theorem mem_insertSorted {g : Function} {fs : List Function} (h : f ∈ Program.insertSorted g fs) : f = g ∨ f ∈ fs := by
  induction fs with
  | nil => exact .inl (List.mem_singleton.mp h)
  | cons k fs ih =>
    unfold Program.insertSorted at h
    split at h
    · exact List.mem_cons.mp h
    split at h
    · exact (List.mem_cons.mp h).imp id (List.mem_cons_of_mem _)
    · rcases List.mem_cons.mp h with rfl | h
      · exact .inr List.mem_cons_self
      · exact (ih h).imp id (List.mem_cons_of_mem _)

theorem mem_foldl_insert {gs : List Function} {p : Program}
    (h : f ∈ (gs.foldl Program.insert p).functions) : f ∈ gs ∨ f ∈ p.functions := by
  induction gs generalizing p with
  | nil => exact .inr h
  | cons g gs ih =>
    rcases ih h with h | h
    · exact .inl (List.mem_cons_of_mem _ h)
    · rcases mem_insertSorted h with rfl | h
      · exact .inl List.mem_cons_self
      · exact .inr h

theorem foldl_insert_parts (gs : List Function) (p : Program) :
    (gs.foldl Program.insert p).init = p.init ∧ (gs.foldl Program.insert p).globals = p.globals ∧
      (gs.foldl Program.insert p).strings = p.strings := by
  induction gs generalizing p with
  | nil => exact ⟨rfl, rfl, rfl⟩
  | cons g gs ih => exact ih (p.insert g)

theorem Program.find?_insertSorted (g : Function) (fs : List Function) (x : String) :
    (insertSorted g fs).find? (·.name == x) = if g.name = x then some g else fs.find? (·.name == x) := by
  induction fs with
  | nil => by_cases hx : g.name = x <;> simp [insertSorted, hx]
  | cons k fs ih =>
    unfold insertSorted
    split
    · by_cases hx : g.name = x <;> simp [hx]
    split
    next h => by_cases hx : g.name = x <;> simp [hx, ← h]
    next h =>
      by_cases hk : k.name = x
      · simp [hk, show g.name ≠ x from fun h' => h (h'.trans hk.symm)]
      · simp only [List.find?_cons, beq_eq_false_iff_ne.mpr hk, ih]

/-- The last function of a name is the one that counts. -/
theorem Program.function?_foldl_insert (gs : List Function) (p : Program) (x : String) :
    (gs.foldl insert p).function? x = (gs.reverse.find? (·.name == x)).or (p.function? x) := by
  induction gs generalizing p with
  | nil => rfl
  | cons g gs ih =>
    rw [List.foldl_cons, ih, List.reverse_cons, List.find?_append, Option.or_assoc]
    congr 1
    rw [show (p.insert g).function? x = _ from find?_insertSorted g p.functions x]
    by_cases hx : g.name = x <;> simp [hx, function?]

theorem Program.name_of_function? {p : Program} {x : String} (h : p.function? x = some f) : f.name = x := by
  have := List.find?_some h
  exact eq_of_beq this

section

variable {items : List Stmt} {scope : Scope}

/-- What the parts of a program are as they are made, they are in the program. -/
theorem of_parts {W : Watch Notes} {Q : List UInt64 × List Command → Prop} {R : List Function → Prop} (hstart : W.inv {})
    (hend : W.clean (Program.parts (.ofItems items scope) items {}).2)
    (hinit : Ensures W (initItems (.ofItems items scope) 0 (List.replicate (Layout.ofItems scope items).slots 0) items) Q)
    (hitems : Ensures W (lowerItems (.ofItems items scope) 0 items) R) :
    (∃ code, Q ((Program.ofItems items scope).program.globals, code) ∧
        (Program.ofItems items scope).program.init = Program.setup (Layout.ofItems scope items).slots code) ∧
      ∃ fs, R fs ∧ (∀ f ∈ (Program.ofItems items scope).program.functions, f ∈ fs) ∧
        ∀ x, (Program.ofItems items scope).program.function? x = fs.reverse.find? (·.name == x) := by
  have hmake : Ensures W (Program.parts (.ofItems items scope) items) fun r => Q (r.1, r.2.1) ∧ R r.2.2 :=
    hinit.bind fun r => hitems.bind fun fs => .pure fun hR hQ => ⟨hQ, hR⟩
  obtain ⟨-, hQ, hR⟩ := hmake.clean {} hstart hend
  rw [Program.ofItems_eq]
  dsimp only
  rw [(foldl_insert_parts ..).1, (foldl_insert_parts ..).2.1]
  refine ⟨⟨_, hQ, rfl⟩, _, hR, fun f hf => ?_, fun x => ?_⟩
  · rcases mem_foldl_insert hf with hf | hf
    · exact hf
    · cases hf
  · rw [Program.function?_foldl_insert]
    exact Option.or_none ..

theorem frameMap_of_mem
    (hf : f ∈ (Program.ofItems items scope).program.init :: (Program.ofItems items scope).program.functions)
    (hs : f.frameSize < UInt64.size) : ∃ depth, f.FrameMap depth := by
  have hg : ∀ x s o, (GlobalContext.ofItems items scope).env.globals.get? x = some s →
      s.storage ≠ some (.stack o) := fun x s o h => storage_symbols scope _ h
  have hok : (GlobalContext.ofItems items scope).env.FrameOK :=
    ⟨fun _ _ _ h => (by cases h), fun _ _ _ _ _ _ h => (by cases h), hg, Nat.le_refl _, fun _ h => (by cases h)⟩
  have hatom : ∀ (env : Env) t, env.FrameOK → env.depth = 0 → Ensures Watch.ignore (lowerAtom env t) (LevelAt 0) :=
    fun env t hf hd => (ensures_level_atom env t).mono fun cs h => hd ▸ h hf (hd ▸ Nat.zero_lt_succ _)
  obtain ⟨⟨code, hcode, hinit⟩, fs, hfs, hmem, -⟩ := of_parts (W := .ignore) trivial trivial
    ((assembles_level 0).initItems 0 _ items fun t _ => ⟨hatom _ t hok rfl, fun _ _ _ _ => hatom _ t (hok.hiding _) rfl⟩)
    (ensures_items fun _ _ _ => ensures_item (fun _ _ _ _ _ _ _ => ensures_frameMap_function hg ..)
      fun _ _ _ _ _ _ => ⟨_, frameMap_external _ rfl rfl⟩)
  rcases List.mem_cons.mp hf with rfl | hf
  · have hlevel : ∀ x, LevelAt 0 ({ op := .setupGlobal, operand := x, span := .nowhere } :: code) :=
      fun _ => .cons (.single trivial rfl rfl) hcode
    rw [hinit]
    exact frameMap_emitAll rfl (hlevel _ none) (fun x hx => Nat.le_of_eq hx) (.inl rfl)
      (.inr ⟨_, rfl, .inl rfl⟩)
  · exact hfs f (hmem f hf) hs

end

/-! ## Source texts -/

/-- Whatever is wrong with a source text: each of its functions has a frame map, and at each point of a
body no byte of the frame belongs to two of the variables in scope. -/
theorem frames_laid_out (source : String) :
    (∀ f ∈ (SourceUnit.ofSource source).lowered.program.init ::
        (SourceUnit.ofSource source).lowered.program.functions,
      f.frameSize < UInt64.size → ∃ depth, f.FrameMap depth) ∧
    ∀ name ty brace body signature env,
      Stmt.define name ty brace body ∈ (SourceUnit.ofSource source).parsed.roots →
      FunctionPoint (GlobalContext.ofItems (SourceUnit.ofSource source).parsed.roots
        (SourceUnit.ofSource source).analysis.scope).env.globals name signature ty.paramTokens body env →
      ∀ i x j y a b, env.slot? i x = some a → env.slot? j y = some b → (i, x) ≠ (j, y) → a.Apart b := by
  refine ⟨fun f hf hs => frameMap_of_mem hf hs, fun name ty brace body signature env _ hpoint => ?_⟩
  exact (hpoint.frameOK fun x s o h => storage_symbols _ _ h).apart

/-- A loop that is left from a block of its own. -/
theorem frames_laid_out_loop :
    ∃ f ∈ (SourceUnit.ofSource
        "f : (a : u64) -> u64 = \x7b while a \x7b b : u64 = a; break; \x7d return a; \x7d").lowered.program.functions,
      f.frameSize = 16 ∧ ∃ depth, f.FrameMap depth := by
  have hsizes : ((SourceUnit.ofSource
      "f : (a : u64) -> u64 = \x7b while a \x7b b : u64 = a; break; \x7d return a; \x7d").lowered.program.functions.map
        Function.frameSize) = [16] := by decide +kernel
  obtain ⟨f, hf, hs⟩ := List.mem_map.mp (hsizes ▸ List.mem_singleton.mpr rfl)
  exact ⟨f, hf, hs, (frames_laid_out _).1 f (List.mem_cons_of_mem _ hf) (by rw [hs]; decide)⟩

end Wordstack
