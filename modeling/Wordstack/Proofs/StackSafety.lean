/-
Accepted programs do not run out of operands. Each frame of a run stands at a position
with a height, and the values of its callers lie below; so no instruction finds less than
it takes, whatever is in memory, and a function leaves as many values as it declares.
-/
import Wordstack.Machine
import Wordstack.Proofs.Balance
import Wordstack.Proofs.Recording

namespace Wordstack

variable {f : Function} {height : Nat → Nat}

/-- Faults that tell of code that is wrong in itself. -/
def Fault.isUnbalanced : Fault → Bool
  | .stackUnderflow .. | .badJump .. => true
  | .trap _ _ op => op = .invalid
  | _ => false

namespace Machine

variable {α β : Type} {p : Program} {n : Nat}

/-! ## Computations and the height of the stack -/

/-- From a stack of `n` values, `x` comes to a result and a height as `Q` says, or to a fault that is not
its code's. The program stays the same. -/
def Moves (p : Program) (n : Nat) (x : Exec α) (Q : α → Nat → Prop) : Prop :=
  ∀ m, m.program = p → m.stack.length = n →
    match x m with
    | .ok a m' => m'.program = p ∧ Q a m'.stack.length
    | .error e _ => e.isUnbalanced = false

namespace Moves

variable {x : Exec α} {f : α → Exec β} {Q R : α → Nat → Prop} {Q' : β → Nat → Prop}

theorem pure {a : α} (h : Q a n) : Moves p n (Pure.pure a) Q := fun _ hp hn => ⟨hp, hn ▸ h⟩

theorem bind (hx : Moves p n x R) (hf : ∀ a k, R a k → Moves p k (f a) Q') : Moves p n (x >>= f) Q' := by
  intro m hp hn
  have h := hx m hp hn
  simp only [Bind.bind, EStateM.bind]
  cases hm : x m with
  | ok a m' =>
    rw [hm] at h
    exact hf a _ h.2 m' h.1 rfl
  | error e m' =>
    rw [hm] at h
    exact h

/-- The first part leaves a height that is known. -/
theorem seq {k : Nat} (hx : Moves p n x fun _ j => j = k) (hf : ∀ a, Moves p k (f a) Q') : Moves p n (x >>= f) Q' :=
  hx.bind fun a j hj => by
    subst hj
    exact hf a

theorem throw {e : Fault} (h : e.isUnbalanced = false) : Moves p n (throw e : Exec α) Q := fun _ _ _ => h

theorem get {f : Machine → Exec β} (hf : ∀ m, m.program = p → Moves p n (f m) Q') : Moves p n (MonadState.get >>= f) Q' :=
  bind (R := fun m k => m.program = p ∧ k = n) (fun _ hp hn => ⟨hp, hp, hn⟩) fun m k hk => by
    obtain ⟨hp, rfl⟩ := hk
    exact hf m hp

/-- A change of the machine that keeps its program and its operands. -/
theorem modify {g : Machine → Machine} (hp : ∀ m, (g m).program = m.program) (hs : ∀ m, (g m).stack = m.stack) :
    Moves p n (modify g) fun _ k => k = n :=
  fun m hm hn => ⟨(hp m).trans hm, (congrArg List.length (hs m)).trans hn⟩

end Moves

theorem moves_load (address : UInt64) : Moves p n (load address) fun _ k => k = n := by
  refine .get fun m _ => ?_
  split
  · exact .pure rfl
  · exact .throw rfl

theorem moves_store (address value : UInt64) : Moves p n (store address value) fun _ k => k = n := by
  refine .get fun m _ => ?_
  split
  · exact .modify (fun _ => rfl) fun _ => rfl
  · exact .throw rfl

theorem moves_growStack (bytes : UInt64) : Moves p n (growStack bytes) fun _ k => k = n := by
  refine .get fun m _ => ?_
  split
  · exact .pure rfl
  · exact .throw rfl

theorem moves_setRsp (rsp : UInt64) : Moves p n (setRsp rsp) fun _ k => k = n := .modify (fun _ => rfl) fun _ => rfl

theorem moves_setRbp (rbp : UInt64) : Moves p n (setRbp rbp) fun _ k => k = n := .modify (fun _ => rfl) fun _ => rfl

theorem moves_pushNative (value : UInt64) : Moves p n (pushNative value) fun _ k => k = n :=
  (moves_growStack 8).seq fun rsp => (moves_setRsp rsp).seq fun _ => moves_store _ _

theorem moves_popNative : Moves p n popNative fun _ k => k = n :=
  .get fun _ _ => (moves_load _).seq fun _ => .seq (.modify (fun _ => rfl) fun _ => rfl) fun _ => .pure rfl

theorem moves_push (value : UInt64) : Moves p n (push value) fun _ k => k = n + 1 :=
  fun _ hp hn => ⟨hp, congrArg (· + 1) hn⟩

theorem moves_pop (f : Function) (i : Instr) : Moves p (n + 1) (pop f i) fun _ k => k = n := by
  intro m hp hn
  cases hs : m.stack with
  | nil => simp [hs] at hn
  | cons v st =>
    have : pop f i m = .ok v { m with stack := st } := by
      simp [pop, bind, EStateM.bind, get_eq, hs, modify_eq, pure, EStateM.pure]
    rw [this]
    rw [hs] at hn
    exact ⟨hp, Nat.succ.inj hn⟩

theorem moves_clearStack : Moves p n clearStack fun _ k => k = 0 := fun _ hp _ => ⟨hp, rfl⟩

theorem moves_labelAddress (name : String) : Moves p n (labelAddress name) fun _ k => k = n := by
  refine .get fun m _ => ?_
  split
  · exact .pure rfl
  split
  · exact .pure rfl
  split
  · exact .pure rfl
  · exact .throw rfl

/-! ## One instruction -/

/-- Where execution goes on, and how many values there are then: `base` of them are the callers'. -/
def Next.OK (p : Program) (f : Function) (height : Nat → Nat) (base pc : Nat) : Next → Nat → Prop
  | .frame fr, k => fr.function = f ∧ fr.pc ≤ f.length ∧ k = base + height fr.pc
  | .call g, k => g ∈ p.functions ∧ g.external = false ∧
      ∃ below, k = below + g.params ∧ below + g.returns = base + height pc
  | .ret, k => k = base + f.returns

theorem moves_jump {pc : Nat} {i : Instr} (hi : f.code[pc]? = some i)
    {setup : Bool} (hm : f.HeightMap p.arities height setup) (hj : i.op.isJump = true) {base : Nat}
    (hn : n = base + i.moveHeight p.arities (height pc)) :
    Moves p n (exec.jump ⟨f, pc + 1⟩ i) (Next.OK p f height base (pc + 1)) := by
  obtain ⟨d, t, hd, ht, hle, hh⟩ := hm.jump pc i hi hj
  have htarget : f.jumpTarget? i.index = some t := by
    rw [hm.index pc i hi]
    unfold Function.jumpTarget?
    rw [hi]
    obtain ⟨⟨op, operand, span⟩, idx⟩ := i
    obtain rfl : operand = .signed d := hd
    simp only [show op.isJump = true from hj, Bool.true_and, ← ht]
    simp
  unfold exec.jump
  simp only [htarget, hle, if_true]
  exact .pure ⟨rfl, hle, by rw [hh, hn]⟩

theorem heights_unary (arity : Arities) {c : Command} {apply : UInt64 → UInt64} (h : c.op.unary? = some apply) :
    c.pops arity = 1 ∧ c.pushes arity = 1 ∧ c.op.fallsThrough = true ∧ c.op ≠ .setupGlobal := by
  obtain ⟨op, operand, span⟩ := c
  cases op <;> first | exact ⟨rfl, rfl, rfl, nofun⟩ | cases h

theorem heights_binary (arity : Arities) {c : Command} {apply : UInt64 → UInt64 → Option UInt64}
    (h : c.op.binary? = some apply) :
    c.pops arity = 2 ∧ c.pushes arity = 1 ∧ c.op.fallsThrough = true ∧ c.op ≠ .setupGlobal := by
  obtain ⟨op, operand, span⟩ := c
  cases op <;> first | exact ⟨rfl, rfl, rfl, nofun⟩ | cases h

theorem moves_exec {pc : Nat} {i : Instr} (hi : f.code[pc]? = some i)
    {setup : Bool} (hm : f.HeightMap p.arities height setup) {base : Nat} (hb : setup = true → base = 0) :
    Moves p (base + height pc) (exec ⟨f, pc + 1⟩ i) (Next.OK p f height base (pc + 1)) := by
  have hok := hm.fits pc i hi
  have hle : pc + 1 ≤ f.length := (Array.getElem?_eq_some_iff.mp hi).1
  have hpops := hok.pops
  have hmove : i.op ≠ .setupGlobal → ∀ k, k + i.pops p.arities = base + height pc + i.pushes p.arities →
      k = base + i.moveHeight p.arities (height pc) := by
    intro hop k hk
    rw [Command.moveHeight, if_neg hop]
    omega
  -- what stays in the function goes on at the next instruction
  have hstay : i.op.fallsThrough = true → i.op ≠ .setupGlobal → ∀ k,
      k + i.pops p.arities = base + height pc + i.pushes p.arities →
        Next.OK p f height base (pc + 1) (.frame ⟨f, pc + 1⟩) k :=
    fun hft hop k hk => ⟨rfl, hle, by rw [hmove hop k hk, hm.next pc i hi hft]⟩
  have hone : i.pops p.arities = 1 → ∃ r, base + height pc = r + 1 := fun h => ⟨base + height pc - 1, by omega⟩
  have htwo : i.pops p.arities = 2 → ∃ r, base + height pc = r + 1 + 1 := fun h => ⟨base + height pc - 2, by omega⟩
  obtain ⟨⟨op, operand, span⟩, idx⟩ := i
  dsimp only at hpops hmove hstay hone htwo
  unfold exec
  dsimp only
  split
  -- nop
  · exact .pure (hstay rfl (by simp) _ rfl)
  -- setupGlobal
  · refine moves_clearStack.seq fun _ => .pure ⟨rfl, hle, ?_⟩
    rw [hm.next pc _ hi rfl, hb (hm.setup pc _ hi rfl)]
    rfl
  -- pushSign, pushUnsign
  · exact (moves_push _).seq fun _ => .pure (hstay rfl (by simp) _ rfl)
  · exact (moves_push _).seq fun _ => .pure (hstay rfl (by simp) _ rfl)
  -- pushStack, pushGlobal
  · exact .get fun _ _ => (moves_load _).seq fun _ => (moves_push _).seq fun _ => .pure (hstay rfl (by simp) _ rfl)
  · exact (moves_load _).seq fun _ => (moves_push _).seq fun _ => .pure (hstay rfl (by simp) _ rfl)
  -- pushGea
  · exact (moves_push _).seq fun _ => .pure (hstay rfl (by simp) _ rfl)
  · exact (moves_labelAddress _).seq fun _ => (moves_push _).seq fun _ => .pure (hstay rfl (by simp) _ rfl)
  -- pushSea
  · exact .get fun _ _ => (moves_push _).seq fun _ => .pure (hstay rfl (by simp) _ rfl)
  -- pop, clone
  · obtain ⟨r, hr⟩ := hone rfl
    exact hr ▸ (moves_pop f _).seq fun _ => .pure (hstay rfl (by simp) _ hr.symm)
  · obtain ⟨r, hr⟩ := hone rfl
    exact hr ▸ (moves_pop f _).seq fun _ => (moves_push _).seq fun _ => (moves_push _).seq fun _ =>
      .pure (hstay rfl (by simp) _ (congrArg (· + 2) hr.symm))
  -- framePush, framePop
  · exact .get fun _ _ => (moves_pushNative _).seq fun _ => .get fun _ _ => (moves_setRbp _).seq fun _ =>
      .pure (hstay rfl (by simp) _ rfl)
  · exact .get fun _ _ => (moves_setRsp _).seq fun _ => moves_popNative.seq fun _ => (moves_setRbp _).seq fun _ =>
      .pure (hstay rfl (by simp) _ rfl)
  -- alloc, free
  · exact (moves_growStack _).seq fun _ => (moves_setRsp _).seq fun _ => .pure (hstay rfl (by simp) _ rfl)
  · refine .get fun m _ => ?_
    split
    · exact (moves_setRsp _).seq fun _ => .pure (hstay rfl (by simp) _ rfl)
    · exact .throw rfl
  -- load, store
  · obtain ⟨r, hr⟩ := hone rfl
    exact hr ▸ (moves_pop f _).seq fun _ => (moves_load _).seq fun _ => (moves_push _).seq fun _ =>
      .pure (hstay rfl (by simp) _ (congrArg (· + 1) hr.symm))
  · obtain ⟨r, hr⟩ := htwo rfl
    exact hr ▸ (moves_pop f _).seq fun _ => (moves_pop f _).seq fun _ => (moves_store _ _).seq fun _ =>
      .pure (hstay rfl (by simp) _ hr.symm)
  -- jump, jumpIf, jumpIfNot
  · exact moves_jump hi hm rfl (hmove (by simp) _ rfl)
  · obtain ⟨r, hr⟩ := hone rfl
    refine hr ▸ (moves_pop f _).seq fun _ => ?_
    split
    · exact moves_jump hi hm rfl (hmove (by simp) _ hr.symm)
    · exact .pure (hstay rfl (by simp) _ hr.symm)
  · obtain ⟨r, hr⟩ := hone rfl
    refine hr ▸ (moves_pop f _).seq fun _ => ?_
    split
    · exact moves_jump hi hm rfl (hmove (by simp) _ hr.symm)
    · exact .pure (hstay rfl (by simp) _ hr.symm)
  -- ret
  · exact .pure (congrArg (base + ·) (hok.ret rfl))
  -- call
  next name =>
    refine .get fun m hp => ?_
    rw [hp]
    split
    next g hg =>
      split
      · exact .throw rfl
      next hext =>
        have harity : p.arities name = some (g.params, g.returns) := by simp only [Program.arities, hg]
        have hpop : Command.pops p.arities ⟨.call, .label name, span⟩ = g.params := by simp [Command.pops, harity]
        have hpush : Command.pushes p.arities ⟨.call, .label name, span⟩ = g.returns := by
          simp [Command.pushes, harity]
        refine .pure ⟨List.mem_of_find?_eq_some hg, by simpa using hext, base + height pc - g.params, ?_, ?_⟩
        · omega
        · refine hmove (by simp) _ ?_ |>.trans ?_
          · omega
          · rw [hm.next pc _ hi rfl]
    next hnone =>
      split
      next hb =>
        have harity : p.arities name = some (1, 0) := by simp only [Program.arities, hnone, hb]; rfl
        have hpop : Command.pops p.arities ⟨.call, .label name, span⟩ = 1 := by simp [Command.pops, harity]
        have hpush : Command.pushes p.arities ⟨.call, .label name, span⟩ = 0 := by simp [Command.pushes, harity]
        obtain ⟨r, hr⟩ := hone hpop
        refine hr ▸ (moves_pop f _).seq fun _ => .seq (.modify (fun _ => rfl) fun _ => rfl) fun _ =>
          .pure (hstay rfl (by simp) _ ?_)
        omega
      · exact .throw rfl
  -- operations on one or two values
  · split
    next hu =>
      obtain ⟨hpop, hpush, hft, hop⟩ := heights_unary p.arities (c := ⟨op, operand, span⟩) hu
      obtain ⟨r, hr⟩ := hone hpop
      refine hr ▸ (moves_pop f _).seq fun _ => (moves_push _).seq fun _ => .pure (hstay hft hop _ ?_)
      omega
    next _ hbin =>
      obtain ⟨hpop, hpush, hft, hop⟩ := heights_binary p.arities (c := ⟨op, operand, span⟩) hbin
      obtain ⟨r, hr⟩ := htwo hpop
      refine hr ▸ (moves_pop f _).seq fun _ => (moves_pop f _).seq fun _ => ?_
      split
      · refine (moves_push _).seq fun _ => .pure (hstay hft hop _ ?_)
        omega
      · exact .throw rfl
    · exact .throw (decide_eq_false hok.valid)

/-! ## Runs -/

/-- Frames that, taken up with so many values on the stack, come to their ends one after the other and
leave `result` values. -/
inductive Awaits (p : Program) (result : Nat) : List Frame → Nat → Prop
  | nil : Awaits p result [] result
  | cons {frame : Frame} {callers : List Frame} {height : Nat → Nat} {setup : Bool} {base : Nat}
    (hm : frame.function.HeightMap p.arities height setup) (hb : setup = true → base = 0)
    (hpc : frame.pc ≤ frame.function.length) (hr : Awaits p result callers (base + frame.function.returns)) :
    Awaits p result (frame :: callers) (base + height frame.pc)

theorem Awaits.eq_result {result : Nat} (h : Awaits p result [] n) : n = result := by
  cases h
  rfl

/-- A frame at the end of its code is left as by a return. -/
theorem Awaits.leave {result : Nat} {frame : Frame} {callers : List Frame} (h : Awaits p result (frame :: callers) n)
    (hend : frame.function.code[frame.pc]? = none) : Awaits p result callers n := by
  cases h with
  | cons hm hb hpc hr =>
    have hge := Array.getElem?_eq_none_iff.mp hend
    have hpc : frame.pc = frame.function.length := Nat.le_antisymm hpc hge
    rw [hpc, hm.stop]
    exact hr

theorem moves_unwind {result : Nat} (callers : List Frame) (frame : Frame) (h : Awaits p result (frame :: callers) n) :
    Moves p n (unwind frame callers) fun r k => k = n ∧ match r with
      | none => n = result
      | some (i, frame, callers) =>
        frame.function.code[frame.pc]? = some i ∧ Awaits p result (frame :: callers) n := by
  induction callers generalizing frame n with
  | nil =>
    unfold unwind
    split
    next i hi => exact .pure ⟨rfl, hi, h⟩
    next hend => exact moves_popNative.seq fun _ => .pure ⟨rfl, (h.leave hend).eq_result⟩
  | cons caller callers ih =>
    unfold unwind
    split
    next i hi => exact .pure ⟨rfl, hi, h⟩
    next hend => exact moves_popNative.seq fun _ => ih caller (h.leave hend)

section

variable (hfs : ∀ f ∈ p.functions, f.external = false → ∃ height, f.HeightMap p.arities height)
include hfs

theorem moves_runFrom {result : Nat} (fuel : Nat) (frame : Frame) (callers : List Frame)
    (h : Awaits p result (frame :: callers) n) : Moves p n (runFrom fuel frame callers) fun _ k => k = result := by
  induction fuel generalizing frame callers n with
  | zero => exact .get fun _ _ => .throw rfl
  | succ fuel ih =>
    refine (moves_unwind callers frame h).bind fun r k ⟨hk, hr⟩ => ?_
    subst hk
    cases r with
    | none => exact .pure hr
    | some r =>
      obtain ⟨i, ⟨f, pc⟩, callers⟩ := r
      obtain ⟨hi, h⟩ := hr
      refine .seq (.modify (fun _ => rfl) fun _ => rfl) fun _ => ?_
      cases h with
      | @cons _ _ height setup base hm hb hpc hr =>
        refine (moves_exec hi hm hb).bind fun next k hnext => ?_
        cases next with
        | frame frame =>
          obtain ⟨rfl, hle, rfl⟩ := hnext
          exact ih frame callers (.cons hm hb hle hr)
        | call g =>
          obtain ⟨hg, hext, below, rfl, hbelow⟩ := hnext
          obtain ⟨height', hm'⟩ := hfs g hg hext
          have hcaller : Awaits p result (⟨f, pc + 1⟩ :: callers) (below + g.returns) := by
            rw [hbelow]
            exact .cons hm hb (Array.getElem?_eq_some_iff.mp hi).1 hr
          have hcallee : Awaits p result (⟨g, 0⟩ :: ⟨f, pc + 1⟩ :: callers) (below + height' 0) :=
            .cons hm' (by simp) (Nat.zero_le _) hcaller
          rw [hm'.start] at hcallee
          exact (moves_pushNative _).seq fun _ => ih ⟨g, 0⟩ _ hcallee
        | ret =>
          obtain rfl : k = base + f.returns := hnext
          refine moves_popNative.seq fun _ => ?_
          cases callers with
          | nil => exact .pure hr.eq_result
          | cons caller rest => exact ih caller rest hr

/-- A function takes its parameters from the stack and leaves what it returns. -/
theorem moves_run (hm : f.HeightMap p.arities height) (base : Nat) :
    Moves p (base + f.params) (run f) fun _ k => k = base + f.returns := by
  have h : Awaits p (base + f.returns) [⟨f, 0⟩] (base + height 0) := .cons hm (by simp) (Nat.zero_le _) .nil
  rw [hm.start] at h
  exact .seq (.modify (fun _ => rfl) fun _ => rfl) fun _ => (moves_pushNative _).seq fun _ =>
    .get fun _ _ => moves_runFrom hfs _ _ _ h

/-- The setup of the globals works from any stack, since it empties it. -/
theorem moves_run_init {x : Operand} {span : Span} (hm : f.HeightMap p.arities height true)
    (hcode : f.code[0]? = some ⟨⟨.setupGlobal, x, span⟩, 0⟩) : Moves p n (run f) fun _ k => k = f.returns := by
  have hempty : height 1 = 0 := hm.next 0 _ hcode rfl
  have h : Awaits p (0 + f.returns) [⟨f, 1⟩] (0 + height 1) :=
    .cons hm (fun _ => rfl) (Array.getElem?_eq_some_iff.mp hcode).1 .nil
  refine .seq (.modify (fun _ => rfl) fun _ => rfl) fun _ => (moves_pushNative _).seq fun _ => .get fun m _ => ?_
  cases m.fuel with
  | zero => exact .get fun _ _ => .throw rfl
  | succ fuel =>
    have hunwind : Moves p n (unwind ⟨f, 0⟩ []) fun r k => k = n ∧ r = some (⟨⟨.setupGlobal, x, span⟩, 0⟩, ⟨f, 0⟩, []) := by
      unfold unwind
      rw [hcode]
      exact .pure ⟨rfl, rfl⟩
    have hexec : Moves p n (exec ⟨f, 1⟩ ⟨⟨.setupGlobal, x, span⟩, 0⟩) fun next k => k = 0 ∧ next = .frame ⟨f, 1⟩ :=
      moves_clearStack.seq fun _ => .pure ⟨rfl, rfl⟩
    refine hunwind.bind fun r k hstart => ?_
    obtain ⟨rfl, rfl⟩ := hstart
    refine .seq (.modify (fun _ => rfl) fun _ => rfl) fun _ => hexec.bind fun next k hnext => ?_
    obtain ⟨rfl, rfl⟩ := hnext
    rw [hempty, Nat.zero_add] at h
    exact moves_runFrom hfs fuel ⟨f, 1⟩ [] h

/-- A call of a function without parameters leaves what the function returns. -/
theorem call_balanced {x : Operand} {span : Span} (hinit : p.init.HeightMap p.arities height true)
    (hcode : p.init.code[0]? = some ⟨⟨.setupGlobal, x, span⟩, 0⟩) {name : String}
    (hf : p.function? name = some f) (hparams : f.params = 0) :
    Moves p n (call name) fun values _ => values.length = f.returns := by
  refine .get fun m _ => ?_
  split
  case' isTrue =>
    refine .seq (.modify (fun _ => rfl) fun _ => rfl) fun _ => .get fun m hm => hm ▸
      (moves_run_init hfs hinit hcode).seq fun _ => ?_
  -- whether the globals have been set up by this call or before
  all_goals
    refine .get fun m hm => ?_
    rw [hm, hf]
    dsimp only
    split
    · exact .throw rfl
    next hext =>
      obtain ⟨height', hm'⟩ := hfs f (List.mem_of_find?_eq_some hf) (by simpa using hext)
      have hrun := moves_run hfs hm' 0
      rw [hparams, Nat.zero_add] at hrun
      refine moves_clearStack.seq fun _ => hrun.seq fun _ => ?_
      intro m hp hn
      exact ⟨hp, by simpa using hn⟩

end

end Machine

/-! ## Source texts -/

/-- In a program that compiles, heights can be given to all positions so that all edges agree; and a call
of a function without parameters never runs out of operands, jumps out of its code or meets code that
must not be executed. If it returns, it has left as many values as the function declares. -/
theorem stack_safe {name source : String} {c : Compilation} (h : compile name source = .ok c) :
    (∃ height, c.program.init.HeightMap c.program.arities height true) ∧
    (∀ f ∈ c.program.functions, f.external = false → ∃ height, f.HeightMap c.program.arities height) ∧
    ∀ (m : Machine) (x : String) (f : Function), m.program = c.program → c.program.function? x = some f →
      f.params = 0 →
        match Machine.call x m with
        | .ok values _ => values.length = f.returns
        | .error e _ => e.isUnbalanced = false := by
  obtain ⟨hprogram, hparse, hscope, hcode⟩ := of_compile h
  have hmaps := heightMaps_of_accepted (whole_of_parse hparse) hscope hcode
  rw [hprogram]
  refine ⟨hmaps.1, hmaps.2, fun m x f hm hf hparams => ?_⟩
  obtain ⟨height, hinit⟩ := hmaps.1
  obtain ⟨_, _, hfirst⟩ := init_code (parse source).roots (Scope.ofItems (parse source).roots).scope
  have := Machine.call_balanced hmaps.2 hinit hfirst hf hparams m hm rfl
  cases hcall : Machine.call x m with
  | ok values m' =>
    rw [hcall] at this
    exact this.2
  | error e m' =>
    rw [hcall] at this
    exact this

/-- A list with a call that leaves nothing in it, and an operator that may skip its right operand. -/
theorem stack_safe_list :
    ∃ c f, compile "list" "main : () -> u64 = \x7b putchar(65), 7; return 1 && 2; \x7d" = .ok c ∧
      c.program.function? "main" = some f ∧ f.params = 0 ∧ f.returns = 1 ∧
      ∀ m : Machine, m.program = c.program →
        match Machine.call "main" m with
        | .ok values _ => values.length = f.returns
        | .error e _ => e.isUnbalanced = false := by
  obtain ⟨c, hc, hp⟩ := compile_of_errors "list"
    (show (SourceUnit.ofSource "main : () -> u64 = \x7b putchar(65), 7; return 1 && 2; \x7d").errors.any
      CompileError.isFatal = false by decide +kernel)
  have hmain : (c.program.function? "main").map (fun f => (f.params, f.returns)) = some (0, 1) := by
    rw [hp]
    decide +kernel
  obtain ⟨f, hf, heq⟩ := Option.map_eq_some_iff.mp hmain
  obtain ⟨hparams, hreturns⟩ := Prod.mk.inj heq
  exact ⟨c, f, hc, hf, hparams, hreturns, fun m hm => (stack_safe hc).2.2 m "main" f hm hf hparams⟩

end Wordstack
