/-
Code for statements does what they mean. A statement may be left in three ways: to the
next one, out of the loop around it, or out of the function. Whichever it is, the frame is
then as large as the environment there says, and nothing above the frame has changed.
-/
import Wordstack.Proofs.Agreement
import Wordstack.Proofs.Balance

namespace Wordstack

open Lower Machine

variable {bound depth pc : Nat} {cs : List Command} {env : Env} {s : Stmt} {t : Token} {v : UInt64} {v? : Option UInt64}

/-! ## Code with jumps out of a loop -/

/-- The command that a step becomes at position `i` of a function. -/
def Step.resolve (targets : LoopExit → Nat) (i : Nat) : Step → Command
  | .command c => c
  | .pending e span => { op := .jump, operand := .signed (Function.jumpOffset i (targets e)), span }

/-- `code` stands at `pc` in the code of `f`, and its jumps out of the loop around it go to `targets`, which lie
in the function. -/
def Function.HoldsCode (f : Function) (targets : LoopExit → Nat) (pc : Nat) (code : Code) : Prop :=
  ∀ i s, code[i]? = some s → f.code[pc + i]? = some ⟨s.resolve targets (pc + i), pc + i⟩ ∧
    ∀ e span, s = .pending e span → targets e ≤ f.length

/-- Where the jumps out of a loop that is `total` long and stands at `start` go. -/
def loopTargets (start total : Nat) : LoopExit → Nat
  | .leave => start + total
  | .again => start

/-- A jump is the same relative to the start of a loop and to that of the function. -/
theorem jumpOffset_add (start i t : Nat) : Function.jumpOffset (start + i) (start + t) = Function.jumpOffset i t := by
  simp only [Function.jumpOffset]
  omega

namespace Function.HoldsCode

variable {f : Function} {targets : LoopExit → Nat} {pc : Nat} {a b : Code} {cs : List Command}

theorem left (h : f.HoldsCode targets pc (a ++ b)) : f.HoldsCode targets pc a := by
  intro i s hs
  refine h i s ?_
  rw [List.getElem?_append_left (List.getElem?_eq_some_iff.mp hs).1]
  exact hs

theorem right (h : f.HoldsCode targets pc (a ++ b)) : f.HoldsCode targets (pc + a.length) b := by
  intro i s hs
  rw [Nat.add_assoc]
  refine h (a.length + i) s ?_
  rw [List.getElem?_append_right (Nat.le_add_right _ _), Nat.add_sub_cancel_left]
  exact hs

theorem length_le (h : f.HoldsCode targets pc a) (ha : 0 < a.length) : pc + a.length ≤ f.length := by
  have hs := (h (a.length - 1) a[a.length - 1] (List.getElem?_eq_getElem _)).1
  have := (Array.getElem?_eq_some_iff.mp hs).1
  simp only [length]
  omega

theorem commands : f.HoldsCode targets pc (Code.ofCommands cs) ↔ f.Holds pc cs := by
  constructor
  · intro h i c hc
    exact (h i (.command c) (by simp [Code.ofCommands, hc])).1
  · intro h i s hs
    simp only [Code.ofCommands, List.getElem?_map, Option.map_eq_some_iff] at hs
    obtain ⟨c, hc, rfl⟩ := hs
    exact ⟨h i c hc, fun _ _ hp => by cases hp⟩

theorem settle {start total first : Nat} {body : Code} (htotal : start + total ≤ f.length)
    (h : f.HoldsCode targets (start + first) (Code.settle total first body)) :
    f.HoldsCode (loopTargets start total) (start + first) body := by
  have htargets : ∀ e, loopTargets start total e ≤ f.length
    | .leave => htotal
    | .again => Nat.le_trans (Nat.le_add_right _ _) htotal
  induction body generalizing first with
  | nil => intro i s hs; cases hs
  | cons step body ih =>
    have hcons : f.HoldsCode targets (start + first)
        (.command (step.resolve (loopTargets start total) (start + first)) :: Code.settle total (first + 1) body) := by
      cases step with
      | command c => exact h
      | pending e span =>
        simp only [Step.resolve]
        cases e with
        | leave => exact jumpOffset_add start first total ▸ h
        | again => exact jumpOffset_add start first 0 ▸ h
    have hrest : f.HoldsCode (loopTargets start total) (start + (first + 1)) body := ih (right (a := [_]) hcons)
    intro i s hs
    refine ⟨?_, fun e _ _ => htargets e⟩
    cases i with
    | zero =>
      cases hs
      exact (hcons 0 _ rfl).1
    | succ i =>
      have := (hrest i s hs).1
      rwa [show start + (first + 1) + i = start + first + (i + 1) by omega] at this

/-- The parts of a loop. -/
theorem loop {span : Span} {body : Code} (h : f.HoldsCode targets pc (Code.loop span cs body)) :
    f.Holds pc (cs ++ [{ op := .jumpIfNot, operand := .signed (body.length + 1), span }]) ∧
      f.HoldsCode (loopTargets pc (cs.length + 1 + body.length + 1)) (pc + (cs.length + 1)) body ∧
        f.Holds (pc + (cs.length + 1 + body.length))
          [{ op := .jump, operand := .signed (-(cs.length + 1 + body.length + 1 : Nat)), span }] := by
  have hlen : (Code.ofCommands (cs ++ [{ op := .jumpIfNot, operand := .signed (body.length + 1), span }])).length =
      cs.length + 1 := by simp [Code.ofCommands]
  have hbody := h.left.right
  have hback := h.right
  rw [hlen] at hbody
  rw [List.length_append, hlen, Flow.length_settle] at hback
  have hback := commands.mp hback
  have htotal := hback.length_le (List.cons_ne_nil _ _)
  exact ⟨commands.mp h.left.left, hbody.settle (by simpa [Nat.add_assoc] using htotal), hback⟩

end Function.HoldsCode

/-! ## Room for frames -/

section

variable {roomy : Prop} {m : Machine} {Q : Machine → Prop} {span : Span}

theorem Does.alloc {n : UInt64} (hroom : roomy → m.stackLimit.toNat + n.toNat ≤ m.rsp.toNat)
    (h : m.stackLimit.toNat + n.toNat ≤ m.rsp.toNat → Q { m with steps := m.steps + 1, rsp := m.rsp - n }) :
    Does (.overflow roomy) [{ op := .alloc, operand := .unsigned n, span }] m Q := by
  by_cases hfits : m.stackLimit.toNat + n.toNat ≤ m.rsp.toNat
  · exact command (fun _ _ _ hi => .alloc hi hfits) (h hfits)
  · intro f callers pc hcode
    refine .fault hcode.head ⟨rfl, fun hr => hfits (hroom hr)⟩ fun k => ⟨m.ticked k, ?_⟩
    have hg := growStack_overflow (m := m.ticked k) (Nat.lt_of_not_le hfits)
    simp only [exec, bind, EStateM.bind, hg]

theorem Does.free {F : Faults} {n : UInt64} (hfits : m.rsp.toNat + n.toNat ≤ m.stackTop.toNat)
    (h : Q { m with steps := m.steps + 1, rsp := m.rsp + n }) :
    Does F [{ op := .free, operand := .unsigned n, span }] m Q :=
  command (fun _ _ _ hi => .free hi hfits) h

end

/-! ## Functions that are being executed -/

/-- What the functions of a program work with: the globals, and calls that find `room` bytes for their
frames, each of which takes up to `frame` bytes. -/
structure Setting where
  roomy : Prop
  arity : Arities
  program : Program
  globals : NameTable SymbolInfo
  size : Nat
  frame : Nat
  room : Nat
  call : Caller
  bound : Nat
  statics : StaticsOK globals size
  calls : CallsOK roomy arity program globals size room call

abbrev Setting.faults (S : Setting) : Faults := .overflow S.roomy

/-- A function whose frame has been set up. -/
structure Activation (S : Setting) where
  function : Function
  callers : List Frame
  /-- The machine before anything is taken of the frame. Its operand stack is the one for the callers. -/
  start : Machine
  /-- The base of the caller's frame, which is kept at that of the frame. -/
  saved : UInt64
  returns : Nat
  program : start.program = S.program
  top : Memory.base.toNat + start.memory.bytes.size = start.stackTop.toNat
  statics : Memory.base.toNat + S.size ≤ start.stackLimit.toNat
  base : start.rbp.toNat + 16 ≤ start.stackTop.toNat
  room : S.roomy → start.stackLimit.toNat + S.room + S.frame ≤ start.rbp.toNat
  savedAt : start.memory.load? start.rbp = some saved

/-- What is known of an environment of a function. -/
structure Env.OK (S : Setting) (env : Env) : Prop where
  ready : env.Ready S.arity env.returns (env.loopDepth.map fun _ => 0)
  frame : env.FrameOK
  globals : env.globals = S.globals

namespace Activation

variable {S : Setting} (A : Activation S)

/-- The machine is at a point of the function where `env` is known. -/
structure Within (env : Env) (σ : Store) (m : Machine) : Prop where
  like : A.start.Like A.start.rbp.toNat m
  depth : m.rsp.toNat + env.depth = m.rbp.toNat
  limit : m.stackLimit.toNat ≤ m.rsp.toNat
  blocks : BlocksAgree env.blocks σ.locals m
  world : WorldAgrees env.globals σ.toWorld m

variable {A} {env env' : Env} {σ σ' : Store} {m m' : Machine}

namespace Within

theorem congr (h : A.Within env σ m) (hb : env'.blocks = env.blocks) (hg : env'.globals = env.globals)
    (hd : env'.depth = env.depth) : A.Within env' σ m :=
  ⟨h.like, by rw [hd]; exact h.depth, h.limit, by rw [hb]; exact h.blocks, by rw [hg]; exact h.world⟩

theorem ground (h : A.Within env σ m) : m.Ground S.size env.depth := by
  have hbase := A.base
  refine ⟨?_, ?_, h.limit, Nat.le_of_eq h.depth, ?_⟩
  · rw [h.like.size, h.like.stackTop, A.top]
  · rw [h.like.stackLimit]
    exact A.statics
  · rw [h.like.rbp, h.like.stackTop]
    omega

theorem room (h : A.Within env σ m) (hf : env.FrameOK) (hs : env.frameSize ≤ S.frame) :
    S.roomy → m.stackLimit.toNat + S.room ≤ m.rsp.toNat := by
  intro hr
  have hroom := A.room hr
  have hdepth := h.depth
  have := hf.depth_le
  rw [h.like.rbp] at hdepth
  rw [h.like.stackLimit]
  omega

theorem operands (h : A.Within env σ m) (steps : Nat) (stack : List UInt64) : A.Within env σ { m with steps, stack } :=
  ⟨⟨h.like.program, h.like.stackLimit, h.like.stackTop, h.like.size, h.like.rbp, h.like.above⟩, h.depth, h.limit,
    h.blocks.of_loads fun _ _ _ _ _ _ => rfl, h.world.of_loads rfl fun _ _ _ _ _ => rfl⟩

theorem openBlock (h : A.Within env σ m) : A.Within env.openBlock σ.openBlock m :=
  ⟨h.like, h.depth, h.limit, h.blocks.openBlock, h.world⟩

theorem closeBlock (h : A.Within env σ m) : A.Within { env with blocks := env.blocks.tail } σ.closeBlock m :=
  ⟨h.like, h.depth, h.limit, h.blocks.tail, h.world⟩

/-- What is left of the frame when another amount of it is in use. -/
theorem moved (h : A.Within env σ m) {rsp : UInt64} (hd : rsp.toNat + depth = m.rbp.toNat)
    (hl : m.stackLimit.toNat ≤ rsp.toNat) (steps : Nat) : A.Within { env with depth } σ { m with steps, rsp } :=
  ⟨⟨h.like.program, h.like.stackLimit, h.like.stackTop, h.like.size, h.like.rbp, h.like.above⟩, hd, hl,
    h.blocks.of_loads fun _ _ _ _ _ _ => rfl, h.world.of_loads rfl fun _ _ _ _ _ => rfl⟩

theorem does_free (h : A.Within env σ m) (hd : depth ≤ env.depth) (span : Span) :
    Does S.faults (freeCommands (env.depth - depth) span) m fun m' =>
      m'.stack = m.stack ∧ A.Within { env with depth } σ m' := by
  have hdepth := h.depth
  unfold freeCommands
  split
  next hzero =>
    have heq : depth = env.depth := by omega
    exact .nil ⟨rfl, h.congr rfl rfl heq⟩
  next hpos =>
    have hto := toNat_toUInt64_of_le (n := env.depth - depth) (k := m.rbp.toNat) (by omega) m.rbp.toNat_lt
    have htop := h.ground.base
    have hlt := m.stackTop.toNat_lt
    have hrsp : (m.rsp + (env.depth - depth).toUInt64).toNat = m.rsp.toNat + (env.depth - depth) := by
      rw [UInt64.toNat_add, hto, Nat.mod_eq_of_lt (by omega)]
    refine .free (by omega) ⟨rfl, h.moved (by omega) ?_ _⟩
    have := h.limit
    omega

theorem does_alloc (h : A.Within env σ m) {n : Nat} (hn : n < UInt64.size)
    (hs : (env.alloc n).frameSize ≤ S.frame) (span : Span) :
    Does S.faults [allocCommand n span] m fun m' => m'.stack = m.stack ∧ A.Within (env.alloc n) σ m' := by
  have hto := toNat_toUInt64_of_le (Nat.le_refl n) hn
  have hdepth := h.depth
  have hmax : env.depth + n ≤ (env.alloc n).frameSize := Nat.le_max_right _ _
  refine .alloc (fun hr => ?_) fun hfits => ⟨rfl, ?_⟩
  · have hroom := A.room hr
    rw [h.like.rbp] at hdepth
    rw [h.like.stackLimit, hto]
    omega
  · rw [hto] at hfits
    have hrsp : (m.rsp - n.toUInt64).toNat = m.rsp.toNat - n := by
      rw [UInt64.toNat_sub_of_le _ _ (UInt64.le_iff_toNat_le.mpr (by omega)), hto]
    have hmoved : A.Within { env with depth := env.depth + n } σ
        { m with steps := m.steps + 1, rsp := m.rsp - n.toUInt64 } := h.moved (by omega) (by omega) _
    exact hmoved.congr rfl rfl rfl

theorem holding (h : A.Within env σ m) : Holding m env σ m := ⟨.refl _ _, rfl, h.blocks, h.world⟩

theorem of_holding (h : A.Within env σ m) (hm : Holding m env σ' m') : A.Within env σ' m' := by
  have hrbp := h.like.rbp
  refine ⟨h.like.trans (hrbp ▸ hm.like), ?_, ?_, hm.blocks, hm.world⟩
  · rw [hm.rsp, hm.like.rbp]
    exact h.depth
  · rw [hm.like.stackLimit, hm.rsp]
    exact h.limit

theorem represents (h : A.Within env σ m) (hf : env.FrameOK) (hg : env.globals = S.globals)
    (hs : env.frameSize ≤ S.frame) (harity : env'.AritiesOK S.arity)
    (hlook : ∀ x, env'.lookup? x = (env.blocks.findSome? (NameTable.get? x)).or (env.globals.get? x)) :
    env'.Represents S.faults S.arity S.call none (Holding m env) := by
  have hprogram : m.program = S.program := h.like.program.trans A.program
  refine Holding.represents ?_ hf (hg ▸ S.statics) h.ground (h.room hf hs) harity (.inl rfl) fun x _ => hlook x
  rw [hprogram, hg]
  exact S.calls

theorem represents_self (h : A.Within env σ m) (hok : env.OK S) (hs : env.frameSize ≤ S.frame) :
    env.Represents S.faults S.arity S.call none (Holding m env) :=
  h.represents hok.frame hok.globals hs hok.ready.aritiesOK fun _ => Env.lookup?_eq (by rw [hok.ready.excluded]; nofun)

/-- An expression is computed at a point of the function. -/
theorem does_expr (h : A.Within env σ m) (hok : env.OK S) (hs : env.frameSize ≤ S.frame) {e : Expr}
    {p : Produced} (hc : e.Computed S.faults S.arity S.call none env p) (he : e.eval S.call none σ = some (v?, σ')) :
    Does S.faults p.code m fun m' => p.values = v?.toList.length ∧ m'.stack = v?.toList ++ m.stack ∧ A.Within env σ' m' :=
  (hc _ σ v? σ' (h.represents_self hok hs) he m h.holding).mono fun _ hm => ⟨hm.1, hm.2.1, h.of_holding hm.2.2⟩

theorem does_value (h : A.Within env σ m) (hok : env.OK S) (hs : env.frameSize ≤ S.frame) {e : Expr}
    (hc : e.ComputedValue S.faults S.arity S.call none env cs) (he : (e.eval S.call none σ).bind valueOf? = some (v, σ')) :
    Does S.faults cs m fun m' => m'.stack = v :: m.stack ∧ A.Within env σ' m' :=
  (hc _ σ v σ' (h.represents_self hok hs) he m h.holding).mono fun _ hm => ⟨hm.1, h.of_holding hm.2⟩

/-- A variable is declared that has been taken into use last: all others of the frame lie above it, and the
globals lie below. -/
theorem declared (h : A.Within (env.alloc Ty.slotSize) σ m) (hf : env.FrameOK) (hg : env.globals = S.globals)
    (hne : env.blocks ≠ []) (name : String) {info : SymbolInfo}
    (hk : info.KeptAt (.stack (env.depth + Ty.slotSize))) {i : Nat}
    (hoff : m.memory.offset? (Storage.address m.rbp (.stack (env.depth + Ty.slotSize))) = some i) (v : UInt64) :
    A.Within ((env.alloc Ty.slotSize).enter name info) (σ.declare name v) { m with memory := m.memory.setWordAt i v } := by
  have hground : m.Ground S.size (env.depth + 8) := h.ground
  have haddr : (Storage.address m.rbp (.stack (env.depth + Ty.slotSize))).toNat = m.rbp.toNat - (env.depth + 8) :=
    (hground.local_address (Nat.le_add_left _ _) (Nat.le_refl _)).1
  have hdepth : m.rsp.toNat + (env.depth + 8) = m.rbp.toNat := h.depth
  have hlike := Holding.like_setWordAt h.like hoff (by omega) v
  obtain ⟨block, outer, hblocks⟩ := List.exists_cons_of_ne_nil hne
  obtain ⟨values, locals, hlocals⟩ : ∃ values locals, σ.locals = values :: locals := by
    refine List.exists_cons_of_ne_nil fun hnil => ?_
    have hlen : σ.locals.length = env.blocks.length := h.blocks.length
    rw [hnil, hblocks] at hlen
    cases hlen
  have hagree : BlocksAgree (block :: outer) (values :: locals) m := by
    rw [← hblocks, ← hlocals]
    exact h.blocks
  have henter : (env.alloc Ty.slotSize).enter name info =
      { env.alloc Ty.slotSize with blocks := block.set name info :: outer } := by
    simp only [Env.enter, Env.alloc, hblocks]
  have hdeclare : σ.declare name v = { σ with locals := values.set name v :: locals } := by
    simp only [Store.declare, hlocals]
  rw [henter, hdeclare]
  refine ⟨hlike, h.depth, h.limit, hagree.declare hk (Memory.load?_setWordAt_self v hoff) fun j x s o hs hko => ?_,
    h.world.of_loads rfl fun x s o hs hko => Memory.load?_setWordAt_of_apart v hoff (.inr ?_)⟩
  · obtain ⟨n, -, hn8, hno, hod⟩ := hf.slot_of_kept (hblocks ▸ hs) hko
    refine Memory.load?_setWordAt_of_apart v hoff (.inl ?_)
    rw [haddr, (hground.local_address (by omega) (by omega)).1]
    omega
  · have hs : S.globals.get? x = some s := hg ▸ hs
    exact hground.static_below (S.statics.within x s o hs hko) (Nat.le_add_left _ _) (Nat.le_refl _)

/-- The value on top of the stack becomes that of a new variable. -/
theorem does_declare (h : A.Within (env.alloc Ty.slotSize) σ m) (hf : env.FrameOK) (hg : env.globals = S.globals)
    (hne : env.blocks ≠ []) {st : List UInt64} (hst : m.stack = v :: st) (name : String)
    {info : SymbolInfo} (hk : info.KeptAt (.stack (env.depth + Ty.slotSize))) (span : Span) :
    Does S.faults (storeLocal (env.depth + Ty.slotSize) span) m fun m' =>
      m'.stack = st ∧ A.Within ((env.alloc Ty.slotSize).enter name info) (σ.declare name v) m' := by
  let o : Storage := .stack (env.depth + Ty.slotSize)
  have hrange : m.memory.InRange (o.address m.rbp) :=
    (h.ground.local_address (Nat.le_add_left _ _) (Nat.le_refl _)).2
  have hend := (h.declared hf hg hne name hk hrange.offset? v).operands (m.steps + 1 + 1) st
  refine Does.append (R := fun m₁ => m₁ = { m with steps := m.steps + 1, stack := o.address m.rbp :: m.stack })
    (.address o rfl) ?_
  rintro _ rfl
  exact Does.store (by rw [hst]) hrange.offset? ⟨rfl, hend⟩

end Within

variable (A)

/-- The machine is about to return from the function. -/
structure Returned (v? : Option UInt64) (world : World) (pc : Nat) (m : Machine) : Prop where
  code : ∃ span, A.function.code[pc]? = some ⟨{ op := .ret, span }, pc⟩
  count : v?.toList.length = A.returns
  stack : m.stack = v?.toList ++ A.start.stack
  like : ({ A.start with rbp := A.saved } : Machine).Like A.start.rbp.toNat m
  rsp : m.rsp = A.start.rbp + 8
  world : WorldAgrees S.globals world m

/-- The loop around the point is left or started again. -/
def Left (env : Env) (σ : Store) (m : Machine) : Prop :=
  ∃ depth, env.loopDepth = some depth ∧ A.Within { env with depth } σ m

/-- Where a statement ends, and with which machine. -/
def Ends (next left : Store → Machine → Prop) (finish : Nat) (targets : LoopExit → Nat) (s : Signal) (σ : Store)
    (pc : Nat) (m : Machine) : Prop :=
  match s with
  | .next => pc = finish ∧ m.stack = A.start.stack ∧ next σ m
  | .exit e => pc = targets e ∧ m.stack = A.start.stack ∧ left σ m
  | .returned v? => A.Returned v? σ.toWorld pc m

end Activation

/-- Code from `env` to `r.1` that does what `run` says. -/
def Executed (S : Setting) (env : Env) (run : Store → Option (Signal × Store))
    (left : Activation S → Store → Machine → Prop) (r : Env × Code) : Prop :=
  ∀ (A : Activation S) targets pc σ s σ' m, A.returns = env.returns → r.1.frameSize ≤ S.frame →
    A.function.HoldsCode targets pc r.2 → run σ = some (s, σ') → A.Within env σ m → m.stack = A.start.stack →
      Runs S.faults A.function A.callers pc m (A.Ends (A.Within r.1) (left A) (pc + r.2.length) targets s σ')

/-- The loop around the innermost block of the point is left. -/
def Activation.LeftBlock {S : Setting} (A : Activation S) (env : Env) (σ : Store) (m : Machine) : Prop :=
  A.Left { env with blocks := env.blocks.tail } σ.closeBlock m

section

variable (S : Setting) (env : Env)

/-- Code that does what the statement means. -/
abbrev Stmt.Executed (s : Stmt) : Env × Code → Prop :=
  Wordstack.Executed S env (s.exec S.call S.bound) fun A => A.Left env

/-- Code that does what the branch means. -/
abbrev Stmt.BranchExecuted (s : Stmt) : Env × Code → Prop :=
  Wordstack.Executed S env (s.execBranch S.call S.bound) fun A => A.Left env

/-- Code that does what the statements of a block mean. -/
abbrev Stmt.AllExecuted (ss : List Stmt) : Env × Code → Prop :=
  Wordstack.Executed S env (Stmt.execAll S.call S.bound ss) fun A => A.LeftBlock env

/-- Code that leaves the value of an expression of a function. -/
abbrev Expr.Gives (e : Expr) : List Command → Prop := e.ComputedValue S.faults S.arity S.call none env

/-- Code that leaves what an expression of a function leaves. -/
abbrev Expr.Leaves (e : Expr) : Produced → Prop := e.Computed S.faults S.arity S.call none env

end

section

variable {S : Setting} {A : Activation S} {env env₁ env₂ inner : Env} {a b : Code} {σ : Store} {m : Machine}

theorem Activation.Left.closeBlock (h : A.Left env σ m) : A.LeftBlock env σ m := by
  obtain ⟨depth, hd, hw⟩ := h
  exact ⟨depth, hd, hw.closeBlock⟩

theorem Activation.Left.congr (h : A.Left env σ m) (hb : env₁.blocks = env.blocks) (hg : env₁.globals = env.globals)
    (hl : env₁.loopDepth = env.loopDepth) : A.Left env₁ σ m := by
  obtain ⟨depth, hd, hw⟩ := h
  exact ⟨depth, hl.trans hd, hw.congr hb hg rfl⟩

/-- A statement, as a list of one. -/
theorem Executed.toBlock {run : Store → Option (Signal × Store)} {r : Env × Code}
    (h : Executed S env run (fun A => A.Left env) r) : Executed S env run (fun A => A.LeftBlock env) r := by
  intro A targets pc σ s σ' m hret hsize hcode hrun hm hst
  refine (h A targets pc σ s σ' m hret hsize hcode hrun hm hst).mono fun pc' m' hend => ?_
  cases s with
  | next => exact hend
  | exit e => exact ⟨hend.1, hend.2.1, hend.2.2.closeBlock⟩
  | returned v? => exact hend

theorem Executed.nil : Stmt.AllExecuted S env [] (env, []) := by
  intro A targets pc σ s σ' m _ _ _ hrun hm hst
  simp only [Stmt.execAll] at hrun
  cases hrun
  exact .here ⟨rfl, hst, hm⟩

theorem Executed.cons {stmt : Stmt} {rest : List Stmt}
    (hs : stmt.Executed S env (env₁, a)) (hgrows : env.Grows env₁)
    (hrest : Stmt.AllExecuted S env₁ rest (env₂, b))
    (hgrows₂ : env₁.Grows env₂) :
    Stmt.AllExecuted S env (stmt :: rest) (env₂, a ++ b) := by
  intro A targets pc σ s σ' m hret hsize hcode hrun hm hst
  simp only [Stmt.execAll] at hrun
  obtain ⟨⟨signal, σ₁⟩, h₁, hrun⟩ := Option.bind_eq_some_iff.mp hrun
  have hfirst := hs A targets pc σ signal σ₁ m hret (Nat.le_trans hgrows₂.frameSize hsize) hcode.left h₁ hm hst
  refine hfirst.bind fun pc₁ m₁ hend => ?_
  cases signal with
  | next =>
    obtain ⟨rfl, hst₁, hm₁⟩ := hend
    refine (hrest A targets _ σ₁ s σ' m₁ (hret.trans hgrows.returns.symm) hsize hcode.right hrun hm₁ hst₁).mono
      fun pc₂ m₂ hend => ?_
    rw [List.length_append, ← Nat.add_assoc]
    cases s with
    | next => exact hend
    | exit e => exact ⟨hend.1, hend.2.1, hend.2.2.congr hgrows.outer.symm hgrows.globals.symm hgrows.loopDepth.symm⟩
    | returned v? => exact hend
  | exit e =>
    cases hrun
    exact .here ⟨hend.1, hend.2.1, hend.2.2.closeBlock⟩
  | returned v? =>
    cases hrun
    exact .here hend

/-- A block gives back what it has taken of the frame. -/
theorem Executed.block {run : Store → Option (Signal × Store)}
    (h : Executed S env.openBlock run (fun A => A.LeftBlock env.openBlock) (inner, a))
    (hgrows : env.openBlock.Grows inner) (span : Span) :
    Executed S env (inBlock run) (fun A => A.Left env) (env.close inner a span) := by
  intro A targets pc σ s σ' m hret hsize hcode hrun hm hst
  simp only [inBlock] at hrun
  obtain ⟨⟨signal, σ₁⟩, h₁, hrun⟩ := Option.bind_eq_some_iff.mp hrun
  cases hrun
  have hcode : A.function.HoldsCode targets pc (a ++ Code.ofCommands (freeCommands (inner.depth - env.depth) span)) :=
    hcode
  have hbody := h A targets pc σ.openBlock signal σ₁ m hret hsize hcode.left h₁ hm.openBlock hst
  refine hbody.bind fun pc₁ m₁ hend => ?_
  cases signal with
  | next =>
    obtain ⟨rfl, hst₁, hm₁⟩ := hend
    have hfree := hm₁.does_free hgrows.depth span
    refine (hfree _ _ _ (Function.HoldsCode.commands.mp hcode.right)).mono ?_
    rintro _ m₂ ⟨rfl, hst₂, hm₂⟩
    refine ⟨?_, hst₂.trans hst₁, hm₂.closeBlock.congr hgrows.outer.symm hgrows.globals.symm rfl⟩
    simp only [Env.close, Code.ofCommands, List.length_append, List.length_map, Nat.add_assoc]
    rfl
  | exit e => exact .here hend
  | returned v? => exact .here hend

/-! ## Branches -/

/-- A condition, and the jump behind it that is taken if it does not hold. -/
theorem runs_condition {c : Expr} {d : Int} {t : Nat} {span : Span}
    {σ₁ : Store} {Q : Nat → Machine → Prop} (hok : env.OK S) (hs : env.frameSize ≤ S.frame)
    (hc : c.Gives S env cs)
    (hcode : A.function.Holds pc (cs ++ [{ op := .jumpIfNot, operand := .signed d, span }]))
    (ht : (t : Int) = (pc + cs.length : Nat) + 1 + d) (hlen : t ≤ A.function.length) (hm : A.Within env σ m)
    (hst : m.stack = A.start.stack) (he : (c.eval S.call none σ).bind valueOf? = some (v, σ₁))
    (h : ∀ m₁, m₁.stack = A.start.stack → A.Within env σ₁ m₁ →
      Runs S.faults A.function A.callers (if v = 0 then t else pc + cs.length + 1) m₁ Q) :
    Runs S.faults A.function A.callers pc m Q := by
  refine (hm.does_value hok hs hc he _ _ _ hcode.left).bind ?_
  rintro _ m₁ ⟨rfl, hst₁, hm₁⟩
  rw [hst] at hst₁
  have hjump := hcode.right.head
  refine .step (@Goes.skip _ _ _ _ _ _ _ _ (· = 0) _ (.inr ⟨rfl, fun _ => .rfl⟩) _ _ hjump hst₁ ht hlen) ?_
  exact h _ (by rfl) (hm₁.operands (m₁.steps + 1) A.start.stack)

theorem length_ofCommands (cs : List Command) : (Code.ofCommands cs).length = cs.length := by simp [Code.ofCommands]

theorem length_ifThen (span : Span) (cs : List Command) (yes : Code) :
    (Code.ifThen span cs yes).length = cs.length + 1 + yes.length := by
  simp only [Code.ifThen, length_ofCommands, List.length_append, List.length_singleton]

theorem Executed.ifThen {t : Token} {c : Expr} {yes : Stmt} {cs : List Command} {span : Span} (hok : env.OK S)
    (hc : c.Gives S env cs)
    (hyes : yes.BranchExecuted S env (env.closeBlock inner, a))
    (hs : env.frameSize ≤ inner.frameSize) : (Stmt.ifThen t c yes).Executed S env
      (env.closeBlock inner, .ifThen span cs a) := by
  intro A targets pc σ s σ' m hret hsize hcode hrun hm hst
  simp only [Stmt.exec] at hrun
  obtain ⟨⟨v, σ₁⟩, h₁, hrun⟩ := Option.bind_eq_some_iff.mp hrun
  dsimp only at hrun hcode ⊢
  have hend := hcode.length_le (by rw [length_ifThen]; omega)
  rw [length_ifThen] at hend ⊢
  have hbody := hcode.right
  rw [length_ofCommands, List.length_append, List.length_singleton, ← Nat.add_assoc] at hbody
  refine runs_condition (t := pc + (cs.length + 1 + a.length)) hok (Nat.le_trans hs hsize) hc
    (Function.HoldsCode.commands.mp hcode.left) (by omega) hend hm hst h₁ fun m₁ hst₁ hm₁ => ?_
  by_cases hv : v = 0
  · rw [if_pos hv] at hrun ⊢
    cases hrun
    exact .here ⟨rfl, hst₁, hm₁.congr rfl rfl rfl⟩
  · rw [if_neg hv] at hrun ⊢
    rw [← Nat.add_assoc, ← Nat.add_assoc]
    exact hyes A targets _ σ₁ s σ' m₁ hret hsize hbody hrun hm₁ hst₁

theorem length_ifElse (span : Span) (cs : List Command) (yes no : Code) :
    (Code.ifElse span cs yes no).length = cs.length + 1 + yes.length + 1 + no.length := by
  simp only [Code.ifElse, length_ofCommands, List.length_append, List.length_singleton]

theorem Executed.ifElse {t : Token} {c : Expr} {yes no : Stmt} {cs : List Command} {span : Span} (hok : env.OK S)
    (hc : c.Gives S env cs)
    (hyes : yes.BranchExecuted S env (env.closeBlock env₁, a))
    (hno : no.BranchExecuted S (env.closeBlock env₁) (env.closeBlock env₂, b)) (hs₁ : env.frameSize ≤ env₁.frameSize) (hs₂ : env₁.frameSize ≤ env₂.frameSize) :
    (Stmt.ifElse t c yes no).Executed S env
      (env.closeBlock env₂, .ifElse span cs a b) := by
  intro A targets pc σ s σ' m hret hsize hcode hrun hm hst
  simp only [Stmt.exec] at hrun
  obtain ⟨⟨v, σ₁⟩, h₁, hrun⟩ := Option.bind_eq_some_iff.mp hrun
  dsimp only at hrun hcode ⊢
  have hend := hcode.length_le (by rw [length_ifElse]; omega)
  rw [length_ifElse] at hend ⊢
  have hsize₁ : env₁.frameSize ≤ S.frame := Nat.le_trans hs₂ hsize
  have hcond := Function.HoldsCode.commands.mp hcode.left.left.left
  have hyesCode := hcode.left.left.right
  have hjump := Function.HoldsCode.commands.mp hcode.left.right
  have hnoCode := hcode.right
  simp only [List.length_append, length_ofCommands, List.length_singleton, ← Nat.add_assoc] at hyesCode hjump hnoCode
  refine runs_condition (t := pc + cs.length + 1 + a.length + 1) hok (Nat.le_trans hs₁ hsize₁) hc hcond (by omega)
    (by omega) hm hst h₁ fun m₁ hst₁ hm₁ => ?_
  by_cases hv : v = 0
  · rw [if_pos hv] at hrun ⊢
    have helse := hno A targets _ σ₁ s σ' m₁ hret hsize hnoCode hrun (hm₁.congr rfl rfl rfl) hst₁
    refine helse.mono fun pc₂ m₂ hend => ?_
    cases s with
    | next => exact ⟨by rw [hend.1]; simp only [← Nat.add_assoc], hend.2⟩
    | exit e => exact ⟨hend.1, hend.2.1, hend.2.2.congr rfl rfl rfl⟩
    | returned v? => exact hend
  · rw [if_neg hv] at hrun ⊢
    refine (hyes A targets _ σ₁ s σ' m₁ hret hsize₁ hyesCode hrun hm₁ hst₁).bind fun pc₂ m₂ hend' => ?_
    cases s with
    | next =>
      obtain ⟨rfl, hst₂, hm₂⟩ := hend'
      refine .step (.jump (t := pc + (cs.length + 1 + a.length + 1 + b.length)) hjump.head (by dsimp only; omega) hend)
        (.here ⟨rfl, hst₂, ?_⟩)
      exact (hm₂.operands (m₂.steps + 1) m₂.stack).congr rfl rfl rfl
    | exit e => exact .here hend'
    | returned v? => exact .here hend'

/-! ## Loops -/

theorem length_loop (span : Span) (cs : List Command) (body : Code) :
    (Code.loop span cs body).length = cs.length + 1 + body.length + 1 := by
  simp only [Code.loop, length_ofCommands, List.length_append, List.length_singleton, Flow.length_settle]

theorem Executed.loop {c : Expr} {body : Stmt} {span : Span} (hok : env.OK S)
    (hc : c.Gives S env cs)
    (hbody : body.BranchExecuted S { env with loopDepth := some env.depth }
      (({ env with loopDepth := some env.depth } : Env).closeBlock inner, a))
    (hs : env.frameSize ≤ inner.frameSize) :
    (Stmt.while t c body).Executed S env
      (env.closeBlock inner, .loop span cs a) := by
  intro A targets pc σ s σ' m hret hsize hcode hrun hm hst
  simp only [Stmt.exec] at hrun
  dsimp only at hcode ⊢
  have hend := hcode.length_le (by rw [length_loop]; omega)
  rw [length_loop] at hend ⊢
  obtain ⟨hcond, hbodyCode, hback⟩ := hcode.loop
  have hagain : ∀ {σ m}, A.Left { env with loopDepth := some env.depth } σ m → A.Within env σ m := by
    rintro σ m ⟨depth, hd, hm⟩
    obtain rfl : env.depth = depth := Option.some.inj hd
    exact hm.congr rfl rfl rfl
  -- the induction is on the rounds that are left; the store and the machine change from round to round
  suffices hrounds : ∀ n σ m, iterate (fun σ => (c.eval S.call none σ).bind valueOf?)
      (fun σ => body.execBranch S.call S.bound σ) n σ = some (s, σ') → A.Within env σ m → m.stack = A.start.stack →
        Runs S.faults A.function A.callers pc m (A.Ends (A.Within (env.closeBlock inner)) (A.Left env)
          (pc + (cs.length + 1 + a.length + 1)) targets s σ') from hrounds S.bound σ m hrun hm hst
  intro n
  induction n with
  | zero => intro σ m h; cases h
  | succ n ih =>
    intro σ m hrun hm hst
    simp only [iterate] at hrun
    obtain ⟨⟨v, σ₁⟩, h₁, hrun⟩ := Option.bind_eq_some_iff.mp hrun
    dsimp only at hrun
    refine runs_condition (t := pc + (cs.length + 1 + a.length + 1)) hok (Nat.le_trans hs hsize) hc hcond (by omega)
      hend hm hst h₁ fun m₁ hst₁ hm₁ => ?_
    by_cases hv : v = 0
    · rw [if_pos hv] at hrun ⊢
      cases hrun
      exact .here ⟨rfl, hst₁, hm₁.congr rfl rfl rfl⟩
    · rw [if_neg hv] at hrun ⊢
      obtain ⟨⟨signal, σ₂⟩, h₂, hrun⟩ := Option.bind_eq_some_iff.mp hrun
      have hround := hbody A _ _ σ₁ signal σ₂ m₁ hret hsize hbodyCode h₂ (hm₁.congr rfl rfl rfl) hst₁
      refine hround.bind fun pc₂ m₂ hend₂ => ?_
      cases signal with
      | next =>
        obtain ⟨rfl, hst₂, hm₂⟩ := hend₂
        dsimp only
        rw [Nat.add_assoc]
        refine .step (.jump (t := pc) hback.head (by omega) (by omega)) (ih σ₂ _ hrun ?_ hst₂)
        exact (hm₂.operands (m₂.steps + 1) m₂.stack).congr rfl rfl rfl
      | exit e =>
        cases e with
        | again =>
          obtain ⟨rfl, hst₂, hm₂⟩ := hend₂
          exact ih σ₂ m₂ hrun (hagain hm₂) hst₂
        | leave =>
          cases hrun
          obtain ⟨rfl, hst₂, hm₂⟩ := hend₂
          exact .here ⟨rfl, hst₂, (hagain hm₂).congr rfl rfl rfl⟩
      | returned v? =>
        cases hrun
        exact .here hend₂

/-! ## Leaving a function or a loop -/

/-- Code that runs from its start to its end, as a statement that goes on to the next one. -/
theorem Executed.ofDoes {run : Store → Option (Signal × Store)} {left : Activation S → Store → Machine → Prop} 
    (h : ∀ (A : Activation S) σ s σ' m, A.returns = env.returns → env₁.frameSize ≤ S.frame → run σ = some (s, σ') →
      A.Within env σ m → m.stack = A.start.stack → s = .next ∧
        Does S.faults cs m fun m' => m'.stack = A.start.stack ∧ A.Within env₁ σ' m') :
    Executed S env run left (env₁, Code.ofCommands cs) := by
  intro A targets pc σ s σ' m hret hsize hcode hrun hm hst
  obtain ⟨rfl, hdoes⟩ := h A σ s σ' m hret hsize hrun hm hst
  refine (hdoes _ _ _ (Function.HoldsCode.commands.mp hcode)).mono fun pc' m' hend => ?_
  rw [length_ofCommands]
  exact hend

/-- The function is left, however much of its frame is in use. -/
theorem runs_leave {span : Span} (hg : env.globals = S.globals)
    (hcode : A.function.Holds pc [{ op := .framePop, span }, { op := .ret, span }])
    (hcount : v?.toList.length = A.returns) (hm : A.Within env σ m) (hst : m.stack = v?.toList ++ A.start.stack) :
    Runs S.faults A.function A.callers pc m (A.Returned v? σ.toWorld) := by
  have hsaved : m.memory.load? m.rbp = some A.saved := by
    rw [hm.like.rbp, hm.like.above _ (Nat.le_refl _)]
    exact A.savedAt
  refine .step (.framePop hcode.head hsaved) (.here ⟨⟨span, hcode.tail.head⟩, hcount, hst, ?_, ?_, ?_⟩)
  · exact ⟨hm.like.program, hm.like.stackLimit, hm.like.stackTop, hm.like.size, rfl, hm.like.above⟩
  · show m.rbp + 8 = A.start.rbp + 8
    rw [hm.like.rbp]
  · rw [← hg]
    exact hm.world.of_loads rfl fun _ _ _ _ _ => rfl

theorem runs_return {span : Span} (hg : env.globals = S.globals)
    (hcode : A.function.Holds pc (freeCommands env.depth span ++ [{ op := .framePop, span }, { op := .ret, span }]))
    (hcount : v?.toList.length = A.returns) (hm : A.Within env σ m) (hst : m.stack = v?.toList ++ A.start.stack) :
    Runs S.faults A.function A.callers pc m (A.Returned v? σ.toWorld) := by
  refine (hm.does_free (Nat.zero_le _) span _ _ _ hcode.left).bind ?_
  rintro _ m₁ ⟨rfl, hst₁, hm₁⟩
  exact runs_leave (show ({ env with depth := 0 } : Env).globals = _ from hg) hcode.right hcount hm₁ (hst₁.trans hst)

theorem Executed.return (hok : env.OK S) (hret : env.returns = 0) :
    (Stmt.return t).Executed S env
      (env, Code.ofCommands (freeCommands env.depth t.span ++ [{ op := .framePop, span := t.span }, { op := .ret, span := t.span }])) := by
  intro A targets pc σ s σ' m hA _ hcode hrun hm hst
  simp only [Stmt.exec] at hrun
  cases hrun
  exact runs_return hok.globals (Function.HoldsCode.commands.mp hcode) (hA.trans hret).symm hm hst

theorem Executed.returnWith {t : Token} {values : ExprList} {p : Produced} (hok : env.OK S) (hret : p.values = env.returns)
    (hc : ∀ e, values.items = [e] → e.Leaves S env p) :
    (Stmt.returnWith t values).Executed S env
      (env, Code.ofCommands (p.code ++ freeCommands env.depth t.span ++
        [{ op := .framePop, span := t.span }, { op := .ret, span := t.span }])) := by
  intro A targets pc σ s σ' m hA hsize hcode hrun hm hst
  simp only [Stmt.exec] at hrun
  split at hrun
  next e he =>
    obtain ⟨⟨v, σ₁⟩, h₁, hrun⟩ := Option.bind_eq_some_iff.mp hrun
    cases hrun
    have hcode := Function.HoldsCode.commands.mp hcode
    rw [List.append_assoc] at hcode
    refine (hm.does_expr hok hsize (hc e he) (of_valueOf? h₁) _ _ _ hcode.left).bind ?_
    rintro _ m₁ ⟨rfl, hn, hst₁, hm₁⟩
    exact runs_return hok.globals hcode.right ((hn.symm.trans hret).trans hA.symm) hm₁ (hst₁.trans (by rw [hst]))
  · cases hrun

theorem Executed.exit {e : LoopExit} (hf : env.FrameOK) (hl : env.loopDepth = some depth) :
    (Stmt.exit e t).Executed S env
      (env, Code.ofCommands (freeCommands (env.depth - depth) t.span) ++ [.pending e t.span]) := by
  intro A targets pc σ s σ' m hA _ hcode hrun hm hst
  simp only [Stmt.exec] at hrun
  cases hrun
  have hfree := hm.does_free (hf.loop_le _ hl) t.span
  refine (hfree _ _ _ (Function.HoldsCode.commands.mp hcode.left)).bind ?_
  rintro _ m₁ ⟨rfl, hst₁, hm₁⟩
  obtain ⟨hjump, hlt⟩ := hcode.right 0 _ rfl
  rw [length_ofCommands, Nat.add_zero] at hjump
  refine .step (.jump hjump ?_ (hlt e t.span rfl)) (.here ⟨rfl, hst₁.trans hst, depth, hl, ?_⟩)
  · simp only [Function.jumpOffset]
    omega
  · exact hm₁.operands (m₁.steps + 1) m₁.stack

/-! ## Expressions and declarations -/

theorem does_pops {F : Faults} {vs st : List UInt64} {n : Nat} {span : Span} {Q : Machine → Prop} {m : Machine}
    (hn : n = vs.length) (hst : m.stack = vs ++ st) (h : ∀ steps, Q { m with steps, stack := st }) :
    Does F (popCommands n span) m Q := by
  subst hn
  induction vs generalizing m with
  | nil =>
    have := h m.steps
    rw [← show m.stack = st from hst] at this
    exact .nil this
  | cons v vs ih =>
    refine Does.append (Does.pop (Q := fun m₁ => m₁ = { m with steps := m.steps + 1, stack := vs ++ st }) hst rfl) ?_
    rintro _ rfl
    exact ih rfl h

theorem Executed.expr {t : Token} {e : Expr} {p : Produced} (hok : env.OK S)
    (hc : e.Leaves S env p) :
    (Stmt.expr t e).Executed S env
      (env, Code.ofCommands (p.code ++ popCommands p.values t.span)) := by
  refine .ofDoes fun A σ s σ' m _ hsize hrun hm hst => ?_
  simp only [Stmt.exec] at hrun
  obtain ⟨⟨v?, σ₁⟩, h₁, hrun⟩ := Option.bind_eq_some_iff.mp hrun
  cases hrun
  refine ⟨rfl, (hm.does_expr hok hsize hc h₁).append ?_⟩
  rintro m₁ ⟨hn, hst₁, hm₁⟩
  exact does_pops hn hst₁ fun steps => ⟨hst, hm₁.operands steps m.stack⟩

/-- In its own first value a variable is what its name stood for before. -/
theorem Env.lookup?_hide {name : String} {info : SymbolInfo} (hne : env.blocks ≠ [])
    (hfresh : env.Fresh name) (x : String) :
    ({ env.enter name info with excluded := some name } : Env).lookup? x =
      (env.blocks.findSome? (NameTable.get? x)).or (env.globals.get? x) := by
  obtain ⟨block, outer, hblocks⟩ := List.exists_cons_of_ne_nil hne
  have hnone : block.get? name = none := hfresh block (by simp [hblocks])
  have henter : env.enter name info = { env with blocks := block.set name info :: outer } := by
    simp only [Env.enter, hblocks]
  rw [henter, hblocks, List.findSome?_cons]
  by_cases hx : name = x
  · subst hx
    simp only [Env.lookup?, Env.meanings, if_true, List.filterMap_cons, NameTable.get?_set, hnone, List.cons_append,
      List.tail_cons, List.head?_append, List.head?_filterMap]
    cases env.globals.get? name <;> rfl
  · rw [Env.lookup?_eq (by simpa using hx)]
    simp only [List.findSome?_cons, NameTable.get?_set, if_neg hx]

theorem Env.FrameOK.alloc (h : env.FrameOK) (n : Nat) : (env.alloc n).FrameOK where
  within i x s hs := by
    obtain ⟨h1, h2, h3⟩ := h.within i x s hs
    exact ⟨h1, h2, Nat.le_add_right_of_le h3⟩
  apart := h.apart
  globals := h.globals
  depth_le := Nat.le_max_right _ _
  loop_le b hb := Nat.le_add_right_of_le (h.loop_le b hb)

theorem Ty.size_of_scalar {t : Ty} (ht : t.isArray = false) : t.size = Ty.slotSize := by
  have hlen : t.arrayLen = none := by simpa [Ty.isArray] using ht
  simp [Ty.size, hlen]

theorem localVar_kept (span : Span) (o : Nat) {t : Ty} (ht : t.isArray = false) : (localVar span o t).KeptAt (.stack o) :=
  ⟨rfl, by simp [SymbolInfo.isArray, localVar, ht], rfl⟩

theorem Executed.declareAs {name : Token} {ty : TypeExpr} {value : Expr} {init : List Command} {info : SymbolInfo}
    {span : Span} (hok : env.OK S) (hfresh : env.Fresh name.text)
    (hk : info.KeptAt (.stack (env.depth + Ty.slotSize))) (hc : value.Gives S
      { (env.alloc Ty.slotSize).enter name.text info with excluded := some name.text } init) :
    (Stmt.declareAs name ty value).Executed S env
      ((env.alloc Ty.slotSize).enter name.text info,
        Code.ofCommands ([allocCommand Ty.slotSize span] ++ init ++ storeLocal (env.depth + Ty.slotSize) span)) := by
  have hne := hok.ready.nonempty
  refine .ofDoes fun A σ s σ' m _ hsize hrun hm hst => ?_
  simp only [Stmt.exec] at hrun
  obtain ⟨⟨v, σ₁⟩, h₁, hrun⟩ := Option.bind_eq_some_iff.mp hrun
  cases hrun
  rw [(Env.enter_depth ..).2] at hsize
  have hlocal : info.IsLocal := ⟨by simp [hk.kind], by simp [hk.kind], fun o ho => ⟨_, Option.some.inj (ho.symm.trans hk.storage)⟩⟩
  have hlook : ∀ x, ({ (env.alloc Ty.slotSize).enter name.text info with excluded := some name.text } : Env).lookup? x =
      (env.blocks.findSome? (NameTable.get? x)).or (env.globals.get? x) := Env.lookup?_hide hne hfresh
  have hinit : Does S.faults ([allocCommand Ty.slotSize span] ++ init) m fun m₂ =>
      m₂.stack = v :: A.start.stack ∧ A.Within (env.alloc Ty.slotSize) σ₁ m₂ := by
    refine (hm.does_alloc (by decide) hsize span).append fun m₁ hleft => ?_
    obtain ⟨hst₁, hm₁⟩ := hleft
    have hrep := hm₁.represents (hok.frame.alloc _) hok.globals hsize
      ((hok.ready.alloc Ty.slotSize).hide name.text hlocal) hlook
    refine (hc _ σ v σ₁ hrep h₁ m₁ hm₁.holding).mono fun m₂ hleft => ⟨?_, hm₁.of_holding hleft.2⟩
    rw [hleft.1, hst₁, hst]
  refine ⟨rfl, hinit.append fun m₂ hleft => ?_⟩
  exact hleft.2.does_declare hok.frame hok.globals hne hleft.1 name.text hk span

end

/-! ## Statements -/

section

variable (S : Setting)

theorem Env.OK.of_grows {S : Setting} {env' : Env} (h : env.OK S) (hg : env.Grows env') (hf : env'.FrameOK)
    (hr : env'.Ready S.arity env.returns (env.loopDepth.map fun _ => 0)) : env'.OK S := by
  refine ⟨?_, hf, hg.globals.trans h.globals⟩
  rw [hg.returns, hg.loopDepth]
  exact hr

theorem Env.OK.leadsTo {S : Setting} {env' : Env} (h : env.OK S) (hl : env.LeadsTo S.arity env.returns env' a) : env'.OK S :=
  h.of_grows hl.follows.1 (hl.follows.2 h.frame) (hl.balances h.ready).1

theorem Env.OK.valid {S : Setting} (h : env.OK S) : env.Valid := h.ready.aritiesOK.valid

theorem Env.OK.openBlock {S : Setting} (h : env.OK S) : env.openBlock.OK S :=
  ⟨h.ready.openBlock, h.frame.openBlock, h.globals⟩

theorem Env.OK.inLoop {S : Setting} (h : env.OK S) : ({ env with loopDepth := some env.depth } : Env).OK S :=
  ⟨h.ready.inLoop, h.frame.inLoop, h.globals⟩

theorem execBranch_block {call : Caller} (t : Token) (body : List Stmt) :
    (Stmt.block t body).execBranch call bound = (Stmt.block t body).exec call bound := by
  funext σ
  simp only [Stmt.execBranch]

theorem execBranch_of_not_isBlock {call : Caller} (h : ¬ s.isBlock = true) :
    s.execBranch call bound = inBlock (s.exec call bound) := by
  funext σ
  cases s with
  | block => exact absurd rfl h
  | _ => simp only [Stmt.execBranch]

/-- A branch takes nothing of the frame that it does not give back. -/
structure ExecutedBranch (env : Env) (s : Stmt) (r : Env × Code) : Prop where
  executed : s.BranchExecuted S env r
  ok : r.1.OK S
  closed : ∃ inner, r.1 = env.closeBlock inner ∧ env.frameSize ≤ inner.frameSize

theorem exec_block {call : Caller} (t : Token) (body : List Stmt) :
    (Stmt.block t body).exec call bound = inBlock (Stmt.execAll call bound body) := by
  funext σ
  simp only [Stmt.exec]

/-- A statement that has no meaning here. -/
theorem Executed.none {S : Setting} {r : Env × Code}
    (h : ∀ σ, s.exec S.call S.bound σ = .none := by intro _; simp only [Stmt.exec]) : s.Executed S env r := by
  intro A targets pc σ signal σ' m _ _ _ hrun
  rw [h] at hrun
  cases hrun

theorem Expr.CodedAll.only {e : Expr} {p : Produced} (h : Expr.CodedAll env [e] p) : e.Coded env p.code p.values := by
  cases h with
  | cons hes he =>
    cases hes
    rwa [List.nil_append, Nat.zero_add]

theorem Stmt.Coded.executed {env env' : Env} (h : s.Coded env env' a) : env.OK S → s.Executed S env (env', a) := by
  induction h using Stmt.Coded.rec (motive_2 := fun env s env' a _ => env.OK S → ExecutedBranch S env s (env', a))
    (motive_3 := fun env body env' a _ => env.OK S → Stmt.AllExecuted S env body (env', a)) with
  | block h ih =>
    intro hok
    rw [Stmt.Executed, exec_block]
    exact (ih hok.openBlock).block h.follows.1 _
  | ifThen hc _ ih =>
    intro hok
    obtain ⟨hy, -, inner, rfl, hs⟩ := ih hok
    exact .ifThen hok (hc hok.valid).computed.value hy hs
  | ifElse hc _ _ ihy ihn =>
    intro hok
    obtain ⟨hy, hok₁, inner₁, rfl, hs₁⟩ := ihy hok
    obtain ⟨hn, -, inner₂, rfl, hs₂⟩ := ihn hok₁
    exact .ifElse hok (hc hok.valid).computed.value hy hn hs₁ hs₂
  | «while» hc _ ih =>
    intro hok
    obtain ⟨hb, -, inner, rfl, hs⟩ := ih hok.inLoop
    exact .loop hok (hc hok.valid).computed.value hb hs
  | «return» hn => exact fun hok => .return hok hn.symm
  | @returnWith _ _ _ p h hn =>
    intro hok
    refine .returnWith hok hn fun e he => ?_
    have hp := h hok.valid
    rw [he] at hp
    exact hp.only.computed
  | exit h => exact fun hok => .exit hok.frame h
  | expr h => exact fun hok => .expr hok (h hok.valid).computed
  | declareAs _ hfresh harray hv =>
    intro hok
    have hvalue := hv (hok.ready.hideDeclared ..).valid
    simp only [Env.declared, Ty.size_of_scalar harray] at hvalue ⊢
    exact .declareAs hok hfresh (localVar_kept _ _ harray) hvalue.computed.value
  | exprs | swap | declare | declareMany | declareManyAs | record | enumeration | use | useNothing => exact fun _ => .none
  | @braced env env' s a hs h ih hok =>
    have hok' := hok.leadsTo h.leadsTo
    have hsize := h.follows.1.frameSize
    cases s with
    | block =>
      refine ⟨?_, hok', ?_⟩
      · rw [Stmt.BranchExecuted, execBranch_block]
        exact ih hok
      · cases h with
        | block => exact ⟨_, rfl, hsize⟩
    | _ => cases hs
  | @bare env inner s a hs h ih hok =>
    refine ⟨?_, hok.leadsTo (h.leadsTo.block s.span), inner, rfl, h.follows.1.frameSize⟩
    rw [Stmt.BranchExecuted, execBranch_of_not_isBlock (by simp [hs])]
    exact (ih hok.openBlock).toBlock.block h.follows.1 s.span
  | nil => exact .nil
  | cons h hrest ih ihs hok => exact .cons (ih hok) h.follows.1 (ihs (hok.leadsTo h.leadsTo)) hrest.follows.1

theorem Stmt.CodedAll.executed {env env' : Env} {body : List Stmt} (h : Stmt.CodedAll env body env' a) (hok : env.OK S) :
    Stmt.AllExecuted S env body (env', a) := by
  induction body generalizing env a with
  | nil =>
    cases h
    exact .nil
  | cons s body ih =>
    cases h with
    | cons hs h => exact .cons (hs.executed S hok) hs.follows.1 (ih h (hok.leadsTo hs.leadsTo)) h.follows.1

end

end Wordstack
