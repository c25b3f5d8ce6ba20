/-
How much of the frame is in use at each instruction. Expressions leave it as it is, a
declaration takes more, and whichever way a block or a loop is left, what it has taken
is given back on the way; so the amount can be told from the position in the code alone.
-/
import Wordstack.Proofs.Composing
import Wordstack.Proofs.Flow
import Wordstack.Proofs.Run

namespace Wordstack

open Lower

/-! ## Depths -/

/-- What a command makes of the number of bytes in use. -/
def Command.moveDepth (c : Command) (d : Nat) : Nat :=
  match c.op, c.operand with
  | .alloc, .unsigned n => d + n.toNat
  | .free, .unsigned n => d - n.toNat
  | _, _ => d

/-- Where a command may stand: no more is given back than is in use, variables lie within what is in
use, and a frame is left when all of it has been given back. -/
def Command.DepthOK (c : Command) (d : Nat) : Prop :=
  match c.op, c.operand with
  | .alloc, .unsigned _ => True
  | .free, .unsigned n => n.toNat ≤ d
  | .pushStack, .unsigned o | .pushSea, .unsigned o => 8 ≤ o.toNat ∧ o.toNat ≤ d
  | .alloc, _ | .free, _ | .pushStack, _ | .pushSea, _ => False
  | .framePop, _ => d = 0
  | _, _ => True

def depthFlow : Flow Nat where
  ok := Command.DepthOK
  next := Command.moveDepth
  ok_jump c d h := by simp only [Command.DepthOK, h]
  next_jump c d h := by simp only [Command.moveDepth, h]

/-- Code that takes nothing and gives nothing back. -/
def LevelAt (d : Nat) (cs : List Command) : Prop :=
  ∀ loop, depthFlow.Path loop d (Code.ofCommands cs) d (· = d)

namespace LevelAt

variable {d : Nat} {cs ds : List Command} {c : Command}

theorem nil : LevelAt d [] := fun _ => Flow.Path.nil

theorem append (h₁ : LevelAt d cs) (h₂ : LevelAt d ds) : LevelAt d (cs ++ ds) := fun loop =>
  ((h₁ loop).appendCommands (h₂ loop)).mono fun _ => or_self_iff

theorem single (hok : c.DepthOK d) (hn : c.moveDepth d = d) (hj : c.op.isJump = false) : LevelAt d [c] :=
  fun _ => (Flow.Path.command (F := depthFlow) hok hj fun _ => hn.symm).mono fun _ => or_self_iff

theorem cons (hc : LevelAt d [c]) (h : LevelAt d cs) : LevelAt d (c :: cs) := append hc h

theorem invalidAt (span : Span) : LevelAt d (invalidAt span) := single trivial rfl rfl

theorem replaceLast {c' : Command} (h : LevelAt d (cs ++ [c])) (hc : c.op.fallsThrough = true)
    (hj : c'.op.isJump = false) (hok : ∀ d, c.DepthOK d → c'.DepthOK d)
    (hn : ∀ d, c'.moveDepth d = c.moveDepth d) : LevelAt d (cs ++ [c']) := fun loop =>
  (h loop).replaceLast hc hj hok hn

theorem storeLocal {o : Nat} (span : Span) (h : 8 ≤ o) (ho : o ≤ d) (hd : d < UInt64.size) :
    LevelAt d (storeLocal o span) := by
  have hn : o.toUInt64.toNat = o := UInt64.toNat_ofNat_of_lt' (by omega)
  refine cons (single ?_ rfl rfl) (single trivial rfl rfl)
  simp only [Command.DepthOK, hn]
  exact ⟨h, ho⟩

theorem readVariable {storage : Storage} (isArray : Bool) (span : Span) (hd : d < UInt64.size)
    (h : ∀ o, storage = .stack o → 8 ≤ o ∧ o ≤ d) : LevelAt d (readVariable storage isArray span) := by
  cases storage with
  | static o => cases isArray <;> exact single trivial rfl rfl
  | stack o =>
    obtain ⟨h₁, h₂⟩ := h o rfl
    have hn : o.toUInt64.toNat = o := UInt64.toNat_ofNat_of_lt' (by omega)
    cases isArray <;>
    · refine single ?_ rfl rfl
      simp only [Command.DepthOK, hn]
      exact ⟨h₁, h₂⟩

theorem shortCircuit {skip : Opcode} (hs : skip = .jumpIf ∨ skip = .jumpIfNot) (span : Span)
    (hl : LevelAt d cs) (hr : LevelAt d ds) : LevelAt d (shortCircuit skip span cs ds) := by
  intro loop
  have hclone : LevelAt d [{ op := .clone, span }] := single trivial rfl rfl
  have hpop : LevelAt d ({ op := .pop, span } :: ds) := cons (single trivial rfl rfl) hr
  have hskip : depthFlow.Path loop d
      (.command { op := skip, operand := .signed (ds.length + 1), span } ::
        Code.ofCommands ({ op := .pop, span } :: ds)) d fun x => x = d ∨ x = d :=
    Flow.Path.skip (by rcases hs with rfl | rfl <;> exact trivial) (by simp [Code.ofCommands])
      (by rcases hs with rfl | rfl <;> rfl) (hpop loop)
  have hall := ((hl loop).append (hclone loop)).append hskip
  have hcode : Code.ofCommands (Wordstack.shortCircuit skip span cs ds) =
      Code.ofCommands cs ++ Code.ofCommands [{ op := .clone, span }] ++
        .command { op := skip, operand := .signed (ds.length + 1), span } ::
          Code.ofCommands ({ op := .pop, span } :: ds) := by
    simp [Wordstack.shortCircuit, Code.ofCommands]
  rw [hcode]
  exact hall.mono fun x => by simp

end LevelAt

/-! ## Expressions -/

/-- At a point where variables lie within what is in use, and that can be counted in a word. -/
def Env.Level (env : Env) (cs : List Command) : Prop :=
  env.FrameOK → env.depth < UInt64.size → LevelAt env.depth cs

theorem ensures_level_name (env : Env) (t : Token) : Ensures Watch.ignore (lowerName env t) fun cs => env.Level cs := by
  unfold lowerName
  split
  · split
    · exact .pure fun _ _ => .single trivial rfl rfl
    · exact Ensures.bind .trivial fun _ => .pure fun _ _ _ => .invalidAt _
  next s hs =>
    split
    · split
      next storage hst =>
        refine .pure fun hf hd => .readVariable _ _ hd fun o ho => ?_
        exact hf.offset_of_lookup? hs (by rw [hst, ho])
      · exact Ensures.bind .trivial fun _ => .pure fun _ _ _ => .invalidAt _
    · exact .pure fun _ _ => .single trivial rfl rfl
    · exact .pure fun _ _ => .single trivial rfl rfl
    · exact Ensures.bind .trivial fun _ => .pure fun _ _ _ => .invalidAt _
    · exact Ensures.bind .trivial fun _ => .pure fun _ _ _ => .invalidAt _
    · exact .pure fun _ _ => .invalidAt _

theorem ensures_level_atom (env : Env) (t : Token) : Ensures Watch.ignore (lowerAtom env t) fun cs => env.Level cs := by
  unfold lowerAtom
  split
  · exact ensures_level_name env t
  · exact Ensures.bind .trivial fun _ => .pure fun _ _ _ => .single trivial rfl rfl
  · exact .pure fun _ _ => .single trivial rfl rfl
  · exact .pure fun _ _ => .single trivial rfl rfl
  · exact .pure fun _ _ => .invalidAt _

theorem assembles_level (d : Nat) : Assembles Watch.ignore (LevelAt d) where
  report _ := .trivial
  nil := .nil
  append := .append
  plain c hop _ := by
    obtain ⟨op, _, _⟩ := c
    cases op <;> first | exact .single trivial rfl rfl | cases hop
  place := fun {_ c mode _ _} h hop => by
    obtain ⟨o, operand, span⟩ := c
    refine h.replaceLast ?_ ?_ (fun d hd => ?_) (fun d => ?_)
    all_goals
      cases o <;> cases mode <;>
        simp only [Opcode.toLvalue?, Option.some.injEq, Prod.mk.injEq, reduceCtorEq] at hop <;>
        obtain ⟨rfl, -⟩ := hop
    all_goals first | rfl | (cases operand <;> exact hd)
  call := fun {_ c _ _} h hname => by
    have hgea : c.op = .pushGea := by
      unfold calleeName? at hname
      split at hname
      · assumption
      · cases hname
    exact h.replaceLast (by rw [hgea]; rfl) rfl (fun _ _ => trivial) fun d => by simp only [Command.moveDepth, hgea]
  skip := fun hs span _ _ => .shortCircuit hs span

/-- Naming and reading places take nothing where variables lie within what is in use. -/
theorem Env.assembles_level (env : Env) : Assembles Watch.ignore env.Level :=
  ((Wordstack.assembles_level env.depth).guard _).guard _

/-! ## Code between two environments -/

/-- Code that takes as much of the frame as the environments around it say; `frameSize` counts the
most that is in use on the way. -/
def Env.Deepens (env : Env) (code : Code) (env' : Env) : Prop :=
  ∃ seen, depthFlow.Path env.loopDepth env.depth code env'.depth seen ∧
    (∀ d, seen d → d ≤ env'.frameSize) ∧ (env'.frameSize = env.frameSize ∨ seen env'.frameSize)

namespace Env.Deepens

variable {env env₁ env₂ : Env} {a b : Code} {cs : List Command} {span : Span}

theorem level (hf : env.FrameOK) (h : LevelAt env.depth cs) : env.Deepens (Code.ofCommands cs) env :=
  ⟨_, h _, fun _ hd => hd ▸ hf.depth_le, .inl rfl⟩

theorem nil (hf : env.FrameOK) : env.Deepens [] env := level hf .nil

theorem trans (h₁ : env.Deepens a env₁) (h₂ : env₁.Deepens b env₂) (hl : env₁.loopDepth = env.loopDepth)
    (hm : env₁.frameSize ≤ env₂.frameSize) : env.Deepens (a ++ b) env₂ := by
  obtain ⟨seen₁, hp₁, hle₁, hmax₁⟩ := h₁
  obtain ⟨seen₂, hp₂, hle₂, hmax₂⟩ := h₂
  rw [hl] at hp₂
  refine ⟨_, hp₁.append hp₂, fun d hd => ?_, ?_⟩
  · rcases hd with hd | hd
    · exact Nat.le_trans (hle₁ d hd) hm
    · exact hle₂ d hd
  · rcases hmax₂ with h₂ | h₂
    · rcases hmax₁ with h₁ | h₁
      · exact .inl (h₂.trans h₁)
      · exact .inr (.inl (by rw [h₂]; exact h₁))
    · exact .inr (.inr h₂)

theorem congr (h : env.Deepens a env₁) (hd : env₂.depth = env₁.depth) (hf : env₂.frameSize = env₁.frameSize) :
    env.Deepens a env₂ := by
  obtain ⟨seen, hp, hle, hmax⟩ := h
  exact ⟨seen, by rw [hd]; exact hp, by rw [hf]; exact hle, by rw [hf]; exact hmax⟩

theorem alloc {n : Nat} (hf : env.FrameOK) (hn : (env.alloc n).frameSize < UInt64.size) :
    env.Deepens (Code.ofCommands [allocCommand n span]) (env.alloc n) := by
  have hmax : (env.alloc n).frameSize = max env.frameSize (env.depth + n) := rfl
  have hto : n.toUInt64.toNat = n := UInt64.toNat_ofNat_of_lt' (by omega)
  have hd := hf.depth_le
  refine ⟨_, Flow.Path.command (F := depthFlow) trivial rfl fun _ => ?_, fun d h => ?_, ?_⟩
  · show env.depth + n = env.depth + n.toUInt64.toNat
    rw [hto]
  · rw [hmax]
    rcases h with rfl | rfl
    · omega
    · exact Nat.le_max_right _ _
  · rw [hmax]
    by_cases h : env.depth + n ≤ env.frameSize
    · exact .inl (Nat.max_eq_left h)
    · exact .inr (.inr (Nat.max_eq_right (by omega)))

/-- Giving back what is in use beyond `d`. -/
theorem path_free {d d' : Nat} (loop : Option Nat) (hd : d ≤ d') (hs : d' < UInt64.size) :
    depthFlow.Path loop d' (Code.ofCommands (freeCommands (d' - d) span)) d fun x => x = d' ∨ x = d := by
  unfold freeCommands
  split
  next h =>
    obtain rfl : d = d' := by omega
    exact Flow.Path.nil.mono fun _ => or_self_iff.symm
  next h =>
    have hto : (d' - d).toUInt64.toNat = d' - d := UInt64.toNat_ofNat_of_lt' (by omega)
    refine Flow.Path.command (F := depthFlow) ?_ rfl fun _ => ?_
    · show (d' - d).toUInt64.toNat ≤ d'
      omega
    · show d = d' - (d' - d).toUInt64.toNat
      omega

theorem close {inner : Env} (h : env.openBlock.Deepens a inner) (hd : env.depth ≤ inner.depth)
    (hs : inner.frameSize < UInt64.size) (hi : inner.FrameOK) (span : Span) :
    env.Deepens (env.close inner a span).2 (env.close inner a span).1 := by
  obtain ⟨seen, hp, hle, hmax⟩ := h
  have hdf := hi.depth_le
  refine ⟨_, hp.append (path_free _ hd (by omega)), fun d h => ?_, ?_⟩
  · show d ≤ inner.frameSize
    rcases h with h | rfl | rfl
    · exact hle d h
    · exact hdf
    · exact Nat.le_trans hd hdf
  · exact hmax.imp id .inl

variable {condition : List Command} {yes no body : Code}

theorem ifThen (hf : env.FrameOK) (hc : LevelAt env.depth condition) (hy : env.Deepens yes env₁)
    (hd : env₁.depth = env.depth) (hm : env.frameSize ≤ env₁.frameSize) :
    env.Deepens (Code.ifThen span condition yes) env₁ := by
  obtain ⟨seen, hp, hle, hmax⟩ := hy
  have hdf := hf.depth_le
  rw [hd] at hp
  refine ⟨_, by rw [hd]; exact Flow.Path.ifThen (hc _) trivial rfl hp, fun d h => ?_, ?_⟩
  · rcases h with h | h | h
    · omega
    · omega
    · exact hle d h
  · exact hmax.imp id fun h => .inr (.inr h)

theorem ifElse (hf : env.FrameOK) (hc : LevelAt env.depth condition) (hy : env.Deepens yes env₁)
    (hd₁ : env₁.depth = env.depth) (hl : env₁.loopDepth = env.loopDepth)
    (hm₁ : env.frameSize ≤ env₁.frameSize) (hn : env₁.Deepens no env₂) (hd₂ : env₂.depth = env₁.depth)
    (hm₂ : env₁.frameSize ≤ env₂.frameSize) : env.Deepens (Code.ifElse span condition yes no) env₂ := by
  obtain ⟨seen₁, hp₁, hle₁, hmax₁⟩ := hy
  obtain ⟨seen₂, hp₂, hle₂, hmax₂⟩ := hn
  have hdf := hf.depth_le
  rw [hd₁] at hp₁
  rw [hl, hd₂, hd₁] at hp₂
  refine ⟨_, by rw [hd₂, hd₁]; exact Flow.Path.ifElse (hc _) trivial rfl hp₁ hp₂, fun d h => ?_, ?_⟩
  · rcases h with h | h | h | h
    · omega
    · omega
    · exact Nat.le_trans (hle₁ d h) hm₂
    · exact hle₂ d h
  · rcases hmax₂ with h₂ | h₂
    · rcases hmax₁ with h₁ | h₁
      · exact .inl (h₂.trans h₁)
      · exact .inr (.inr (.inr (.inl (by rw [h₂]; exact h₁))))
    · exact .inr (.inr (.inr (.inr h₂)))

theorem loop {inner : Env} (hf : env.FrameOK) (hc : LevelAt env.depth condition)
    (hb : ({ env with loopDepth := some env.depth } : Env).Deepens body inner)
    (hd : inner.depth = env.depth) (hm : env.frameSize ≤ inner.frameSize) :
    env.Deepens (Code.loop span condition body) (env.closeBlock inner) := by
  obtain ⟨seen, hp, hle, hmax⟩ := hb
  have hdf := hf.depth_le
  rw [hd] at hp
  refine ⟨_, Flow.Path.ofLoop (hc _) trivial rfl hp, fun d h => ?_, ?_⟩
  · show d ≤ inner.frameSize
    rcases h with rfl | h
    · exact Nat.le_trans hdf hm
    · exact hle d h
  · exact hmax.imp id .inr

end Env.Deepens

/-! ## Declarations -/

/-- Code that is made at `env`, and what is known behind it. -/
def Env.Deep (env : Env) (r : Env × Code) : Prop :=
  env.Follows r.1 ∧ (env.FrameOK → r.1.frameSize < UInt64.size → env.Deepens r.2 r.1)

namespace Env.Deep

variable {env : Env} {r r' : Env × Code} {cs : List Command}

theorem level (h : env.Level cs) : env.Deep (env, Code.ofCommands cs) :=
  ⟨.refl env, fun hf hs => .level hf (h hf (Nat.lt_of_le_of_lt hf.depth_le hs))⟩

theorem nil : env.Deep (env, []) := level fun _ _ => .nil

theorem enter {name : String} {info : SymbolInfo} (h : info.slot? = none) : env.Deep (env.enter name info, []) :=
  ⟨.enter h, fun hf _ => (Env.Deepens.nil hf).congr (enter_depth ..).1 (enter_depth ..).2⟩

theorem declared (name : String) (span : Span) {t : Ty} (h : 8 ≤ t.size) :
    env.Deep (env.declared name span t, Code.ofCommands [allocCommand t.size span]) := by
  refine ⟨.declareLocal name span h rfl, fun hf hs => ?_⟩
  obtain ⟨hd, hfs⟩ := enter_depth (env.alloc t.size) name (localVar span (env.depth + t.size) t)
  exact (Env.Deepens.alloc hf (hfs ▸ hs)).congr hd hfs

theorem trans (h : env.Deep r) (h' : r.1.Deep r') : env.Deep (r'.1, r.2 ++ r'.2) :=
  ⟨h.1.trans h'.1, fun hf hs => (h.2 hf (Nat.lt_of_le_of_lt h'.1.1.frameSize hs)).trans (h'.2 (h.1.2 hf) hs)
    h.1.1.loopDepth h'.1.1.frameSize⟩

theorem close (h : env.openBlock.Deep r) (span : Span) : env.Deep (env.close r.1 r.2 span) :=
  ⟨h.1.close .., fun hf hs => (h.2 hf.openBlock hs).close h.1.1.depth hs (h.1.2 hf.openBlock) _⟩

end Env.Deep

/-! ## Statements -/

/-- A return gives everything back before the frame is left. Nothing gets behind it, so that what is
known there may stay as it was. -/
theorem deep_return {env : Env} {cs : List Command} (span : Span) (h : env.Level cs) : env.Deep (env, Code.ofCommands
    (cs ++ freeCommands env.depth span ++ [{ op := .framePop, span }, { op := .ret, span }])) := by
  refine ⟨.refl env, fun hf hs => ?_⟩
  have hd : env.depth < UInt64.size := Nat.lt_of_le_of_lt hf.depth_le hs
  have hfree : depthFlow.Path env.loopDepth env.depth
      (Code.ofCommands (freeCommands env.depth span)) 0 fun x => x = env.depth ∨ x = 0 :=
    Env.Deepens.path_free _ (Nat.zero_le _) hd
  have hpop : depthFlow.Path env.loopDepth 0 (Code.ofCommands [{ op := .framePop, span }]) 0
      fun x => x = 0 ∨ x = 0 := Flow.Path.command rfl rfl fun _ => rfl
  have hret : depthFlow.Path env.loopDepth 0 (Code.ofCommands [{ op := .ret, span }]) env.depth
      fun x => x = 0 ∨ x = env.depth := Flow.Path.command trivial rfl fun hft => by cases hft
  refine ⟨_, ((h hf hd _).appendCommands hfree).appendCommands (hpop.appendCommands hret), fun d hseen => ?_,
    .inl rfl⟩
  have hle := hf.depth_le
  show d ≤ env.frameSize
  omega

/-- An exit gives back what the body of the loop has taken. -/
theorem deep_exit {env : Env} {base : Nat} (exit : LoopExit) (span : Span) (hbase : env.loopDepth = some base) :
    env.Deep (env, Code.ofCommands (freeCommands (env.depth - base) span) ++ [.pending exit span]) := by
  refine ⟨.refl env, fun hf hs => ?_⟩
  have hle := hf.depth_le
  have hb := hf.loop_le base hbase
  refine ⟨_, (Env.Deepens.path_free _ hb (Nat.lt_of_le_of_lt hle hs)).append (Flow.Path.pending hbase),
    fun d hseen => ?_, .inl rfl⟩
  have hseen : (d = env.depth ∨ d = base) ∨ d = base ∨ d = env.depth := hseen
  show d ≤ env.frameSize
  omega

theorem composes_deep : Composes Watch.ignore Env.Level Env.Deep where
  assembles := Env.assembles_level
  simple := .level
  trans := .trans
  enter hs _ := .enter hs
  declared name span h8 := .declared name span h8
  hidden := fun h hf hd => h (hf.hiding _) hd
  store span h8 ho _ hd := .storeLocal span h8 ho hd
  leave := deep_return
  exit := deep_exit
  close span h := h.close span
  ifThen := fun _ hc ⟨hfollows, hdeep⟩ hd => by
    refine ⟨hfollows, fun hf hs => ?_⟩
    have hsize := Nat.lt_of_le_of_lt (Nat.le_trans hf.depth_le hfollows.1.frameSize) hs
    exact .ifThen hf (hc hf hsize) (hdeep hf hs) hd hfollows.1.frameSize
  ifElse := fun _ hc ⟨hfollows₁, hdeep₁⟩ hd₁ ⟨hfollows₂, hdeep₂⟩ hd₂ => by
    refine ⟨hfollows₁.trans hfollows₂, fun hf hs => ?_⟩
    have hs₁ := Nat.lt_of_le_of_lt hfollows₂.1.frameSize hs
    have hsize := Nat.lt_of_le_of_lt (Nat.le_trans hf.depth_le hfollows₁.1.frameSize) hs₁
    exact .ifElse hf (hc hf hsize) (hdeep₁ hf hs₁) hd₁ hfollows₁.1.loopDepth hfollows₁.1.frameSize
      (hdeep₂ (hfollows₁.2 hf) hs) hd₂ hfollows₂.1.frameSize
  loop := fun {env _ r} _ hc ⟨hfollows, hdeep⟩ hd => by
    have hle : env.frameSize ≤ r.1.frameSize := hfollows.1.frameSize
    refine ⟨⟨.closeBlock hle, fun hf => hf.closeBlock hle⟩, fun hf hs => ?_⟩
    have hsize := Nat.lt_of_le_of_lt (Nat.le_trans hf.depth_le hle) hs
    exact .loop hf (hc hf hsize) (hdeep hf.inLoop hs) hd hle

theorem Stmt.ensures_deep (s : Stmt) (env : Env) : Ensures Watch.ignore (s.lower env) fun r => env.Deep r :=
  composes_deep.stmt s (fun t _ env => ensures_level_atom env t) env

theorem Stmt.ensures_follows (s : Stmt) (env : Env) : Ensures Watch.ignore (s.lower env) fun r => env.Follows r.1 :=
  (s.ensures_deep env).mono fun _ h => h.1

/-! ## The points of a function -/

/-- Where the branch of a statement is lowered. -/
def Stmt.branchEnv (s : Stmt) (env : Env) : Env := if s.isBlock then env else env.openBlock

mutual

/-- `env'` is what is known at some point of `s`, which stands in `env`: in front of it, behind it, or
in front of a part of it. -/
inductive Stmt.Point : Stmt → Env → Env → Prop
  | start (s : Stmt) (env : Env) : s.Point env env
  | finish (s : Stmt) (env : Env) (notes : Notes) : s.Point env (s.lower env notes).1.1
  | block {t : Token} {body : List Stmt} {env env' : Env} (h : Stmt.PointOfAll body env.openBlock env') :
    (Stmt.block t body).Point env env'
  | ifThen {t : Token} {c : Expr} {yes : Stmt} {env env' : Env} (h : yes.Point (yes.branchEnv env) env') :
    (Stmt.ifThen t c yes).Point env env'
  | yes {t : Token} {c : Expr} {yes no : Stmt} {env env' : Env} (h : yes.Point (yes.branchEnv env) env') :
    (Stmt.ifElse t c yes no).Point env env'
  | no {t : Token} {c : Expr} {yes no : Stmt} {env env' : Env} (notes : Notes)
    (h : no.Point (no.branchEnv (branch env yes (fun env => yes.lower env) notes).1.1) env') :
    (Stmt.ifElse t c yes no).Point env env'
  | body {t : Token} {c : Expr} {body : Stmt} {env env' : Env}
    (h : body.Point (body.branchEnv { env with loopDepth := some env.depth }) env') :
    (Stmt.while t c body).Point env env'
  | value {name : Token} {ty : TypeExpr} {value : Expr} {env : Env} (notes : Notes) :
    (Stmt.declareAs name ty value).Point env
      { (declareTyped env name ty notes).1.1 with excluded := some name.text }

inductive Stmt.PointOfAll : List Stmt → Env → Env → Prop
  | nil (env : Env) : Stmt.PointOfAll [] env env
  | head {s : Stmt} {rest : List Stmt} {env env' : Env} (h : s.Point env env') :
    Stmt.PointOfAll (s :: rest) env env'
  | tail {s : Stmt} {rest : List Stmt} {env env' : Env} (notes : Notes)
    (h : Stmt.PointOfAll rest (s.lower env notes).1.1 env') : Stmt.PointOfAll (s :: rest) env env'

end

theorem Env.FrameOK.branchEnv (h : env.FrameOK) (s : Stmt) : (s.branchEnv env).FrameOK := by
  unfold Stmt.branchEnv
  split
  · exact h
  · exact h.openBlock

mutual

theorem Stmt.Point.frameOK : ∀ {s : Stmt} {env env' : Env}, s.Point env env' → env.FrameOK → env'.FrameOK
  | _, _, _, .start .., hok => hok
  | _, _, _, .finish s env notes, hok => (Ensures.ignore_iff.mp (s.ensures_follows env) notes).2 hok
  | _, _, _, .block h, hok => h.frameOK hok.openBlock
  | _, _, _, .ifThen h, hok | _, _, _, .yes h, hok => h.frameOK (hok.branchEnv _)
  | .ifElse _ _ yes _, env, _, .no notes h, hok => by
    have hyes := Ensures.ignore_iff.mp (composes_deep.branch env yes yes.ensures_deep) notes
    exact h.frameOK ((hyes.1.1.2 hok).branchEnv _)
  | _, _, _, .body h, hok => h.frameOK (hok.inLoop.branchEnv _)
  | .declareAs name ty _, env, _, .value notes, hok =>
    ((Ensures.ignore_iff.mp (composes_deep.typed env name ty) notes).1.1.2 hok).hiding _

theorem Stmt.PointOfAll.frameOK : ∀ {body : List Stmt} {env env' : Env},
    Stmt.PointOfAll body env env' → env.FrameOK → env'.FrameOK
  | _, _, _, .nil _, hok => hok
  | _, _, _, .head h, hok => h.frameOK hok
  | s :: _, env, _, .tail notes h, hok =>
    h.frameOK ((Ensures.ignore_iff.mp (s.ensures_follows env) notes).2 hok)

end

/-- What is known at a point of a function's body. -/
def FunctionPoint (globals : NameTable SymbolInfo) (name : Token) (signature : Signature)
    (params : List Token) (body : List Stmt) (env : Env) : Prop :=
  ∃ notes, Stmt.PointOfAll body
    (lowerParams (.ofFunction globals name.text signature.returns.length)
      (signature.params.zip params) notes).1.1.openBlock env

theorem FunctionPoint.frameOK {globals : NameTable SymbolInfo} {name : Token} {signature : Signature}
    {params : List Token} {body : List Stmt} (hg : ∀ x s o, globals.get? x = some s → s.storage ≠ some (.stack o))
    (h : FunctionPoint globals name signature params body env) : env.FrameOK := by
  obtain ⟨notes, h⟩ := h
  have hp := Ensures.ignore_iff.mp (composes_deep.params (.ofFunction globals name.text signature.returns.length)
    (signature.params.zip params)) notes
  exact h.frameOK (hp.1.2 (frameOK_ofFunction hg ..)).openBlock

end Wordstack
