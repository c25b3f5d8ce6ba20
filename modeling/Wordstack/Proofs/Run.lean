/-
Runs of the machine, instruction by instruction: code placed in a function, what one
instruction does to a run, and runs that go from one configuration to another.
-/
import Wordstack.Code
import Wordstack.Machine
import Wordstack.Proofs.Memory

namespace Wordstack

/-! ## Code in a function -/

/-- `cs` stands at `pc` in the code of `f`. -/
def Function.Holds (f : Function) (pc : Nat) (cs : List Command) : Prop :=
  ∀ i c, cs[i]? = some c → f.code[pc + i]? = some ⟨c, pc + i⟩

namespace Function.Holds

variable {f : Function} {pc : Nat} {c : Command} {cs ds : List Command}

theorem append : f.Holds pc (cs ++ ds) ↔ f.Holds pc cs ∧ f.Holds (pc + cs.length) ds := by
  constructor
  · intro h
    refine ⟨fun i c hc => h i c ?_, fun i c hc => ?_⟩
    · rw [List.getElem?_append_left (List.getElem?_eq_some_iff.mp hc).1]
      exact hc
    · rw [Nat.add_assoc]
      refine h _ c ?_
      rw [List.getElem?_append_right (by omega)]
      simpa using hc
  · intro ⟨h₁, h₂⟩ i c hc
    by_cases hi : i < cs.length
    · rw [List.getElem?_append_left hi] at hc
      exact h₁ i c hc
    · rw [List.getElem?_append_right (by omega)] at hc
      have := h₂ _ c hc
      rw [show pc + cs.length + (i - cs.length) = pc + i by omega] at this
      exact this

theorem cons : f.Holds pc (c :: cs) ↔ f.code[pc]? = some ⟨c, pc⟩ ∧ f.Holds (pc + 1) cs := by
  constructor
  · intro h
    refine ⟨h 0 c rfl, fun i d hd => ?_⟩
    have := h (i + 1) d (by simpa using hd)
    rwa [show pc + (i + 1) = pc + 1 + i by omega] at this
  · intro ⟨h₁, h₂⟩ i d hd
    cases i with
    | zero => simp only [List.getElem?_cons_zero, Option.some.injEq] at hd; subst hd; exact h₁
    | succ i =>
      have := h₂ i d (by simpa using hd)
      rwa [show pc + 1 + i = pc + (i + 1) by omega] at this

theorem left (h : f.Holds pc (cs ++ ds)) : f.Holds pc cs := (append.mp h).1
theorem right (h : f.Holds pc (cs ++ ds)) : f.Holds (pc + cs.length) ds := (append.mp h).2
theorem head (h : f.Holds pc (c :: cs)) : f.code[pc]? = some ⟨c, pc⟩ := (cons.mp h).1
theorem tail (h : f.Holds pc (c :: cs)) : f.Holds (pc + 1) cs := (cons.mp h).2

theorem length_le (h : f.Holds pc cs) (hcs : cs ≠ []) : pc + cs.length ≤ f.length := by
  have hl := List.length_pos_iff.mpr hcs
  have hc := h (cs.length - 1) (cs.getLast hcs) (by simp [List.getLast_eq_getElem])
  have := (Array.getElem?_eq_some_iff.mp hc).1
  simp only [length]
  omega

end Function.Holds

namespace Function

/-- Commands get their positions as indices. -/
theorem emitAll_eq (cs : List Command) (f : Function) :
    f.emitAll cs = { f with code := f.code ++ (cs.mapIdx fun i c => ⟨c, f.code.size + i⟩).toArray } := by
  induction cs generalizing f with
  | nil => simp [emitAll]
  | cons c cs ih =>
    have := ih (f.emit c)
    simp only [emitAll, List.foldl_cons] at this ⊢
    rw [this]
    simp only [emit, Function.mk.injEq, true_and, and_true]
    apply Array.toList_inj.mp
    simp [List.mapIdx_cons, Nat.add_assoc, Nat.add_comm 1]

@[simp] theorem emitAll_name (f : Function) (cs : List Command) : (f.emitAll cs).name = f.name := by rw [emitAll_eq]
@[simp] theorem emitAll_params (f : Function) (cs : List Command) : (f.emitAll cs).params = f.params := by
  rw [emitAll_eq]
@[simp] theorem emitAll_returns (f : Function) (cs : List Command) : (f.emitAll cs).returns = f.returns := by
  rw [emitAll_eq]
@[simp] theorem emitAll_external (f : Function) (cs : List Command) : (f.emitAll cs).external = f.external := by
  rw [emitAll_eq]
@[simp] theorem emitAll_frameSize (f : Function) (cs : List Command) : (f.emitAll cs).frameSize = f.frameSize := by
  rw [emitAll_eq]

variable {f : Function} {cs : List Command}

theorem holds_emitAll (hf : f.code = #[]) (cs : List Command) : (f.emitAll cs).Holds 0 cs := by
  intro i c hc
  rw [emitAll_eq]
  simp [hf, hc]

theorem length_emitAll (hf : f.code = #[]) (cs : List Command) : (f.emitAll cs).length = cs.length := by
  simp [length, emitAll_eq, hf]

theorem getElem?_emitAll (hf : f.code = #[]) {i : Nat} {instr : Instr}
    (h : (f.emitAll cs).code[i]? = some instr) : ∃ c, cs[i]? = some c ∧ instr = ⟨c, i⟩ := by
  rw [emitAll_eq, hf] at h
  simp only [Array.empty_append, List.getElem?_toArray, List.getElem?_mapIdx, Option.map_eq_some_iff, Array.size_empty,
    Nat.zero_add] at h
  obtain ⟨c, hc, rfl⟩ := h
  exact ⟨c, hc, rfl⟩

end Function
end Wordstack

namespace Wordstack.Machine

/-! ## One instruction -/

theorem get_eq (m : Machine) : (get : Exec Machine) m = .ok m m := rfl

theorem modify_eq (f : Machine → Machine) (m : Machine) : (modify f : Exec Unit) m = .ok () (f m) := rfl

theorem throw_eq {α : Type} (e : Fault) (m : Machine) : (throw e : Exec α) m = .error e m := rfl

/-- A computation goes on with what its first step gives. -/
theorem bind_ok {α β : Type} {x : Exec α} {f : α → Exec β} {m m' : Machine} {a : α} (h : x m = .ok a m') :
    (x >>= f) m = f a m' := by
  simp only [bind, EStateM.bind, h]

/-- The machine after an instruction has been counted. -/
abbrev ticked (m : Machine) (n : Nat) : Machine := { m with fuel := n, steps := m.steps + 1 }

theorem runFrom_succ {n f pc callers m i} (h : f.code[pc]? = some i) : runFrom (n + 1) ⟨f, pc⟩ callers m =
      match exec ⟨f, pc + 1⟩ i (m.ticked n) with
      | .ok (.frame frame) m => runFrom n frame callers m
      | .ok (.call g) m =>
        match pushNative returnMarker m with
        | .ok _ m => runFrom n ⟨g, 0⟩ (⟨f, pc + 1⟩ :: callers) m
        | .error e m => .error e m
      | .ok .ret m =>
        match popNative m with
        | .ok _ m =>
          match callers with
          | [] => .ok () m
          | caller :: rest => runFrom n caller rest m
        | .error e m => .error e m
      | .error e m => .error e m := by
  have hu : unwind ⟨f, pc⟩ callers = pure (some (i, ⟨f, pc⟩, callers)) := by
    unfold unwind
    simp only [h]
  rw [runFrom, hu]
  simp only [pure_bind]
  simp only [bind, EStateM.bind, modify_eq]
  cases exec ⟨f, pc + 1⟩ i (m.ticked n) with
  | error e m => rfl
  | ok next m =>
    cases next with
    | frame frame => rfl
    | call g =>
      simp only [EStateM.bind]
      cases pushNative returnMarker m <;> rfl
    | ret =>
      simp only [EStateM.bind]
      cases popNative m with
      | error e m => rfl
      | ok v m => cases callers <;> rfl

section

variable {m m' : Machine} {a n v : UInt64} {i : Nat}

theorem load_eq (h : m.memory.load? a = some v) : load a m = .ok v m := by
  simp [load, bind, EStateM.bind, get_eq, pure, EStateM.pure, h]

theorem store_eq (v : UInt64) (h : m.memory.offset? a = some i) :
    store a v m = .ok () { m with memory := m.memory.setWordAt i v } := by
  simp [store, bind, EStateM.bind, get_eq, h, modify_eq]

theorem growStack_eq (h : m.stackLimit.toNat + n.toNat ≤ m.rsp.toNat) : growStack n m = .ok (m.rsp - n) m := by
  have hn : n ≤ m.rsp := UInt64.le_iff_toNat_le.mpr (by omega)
  have hl : m.stackLimit ≤ m.rsp - n := by
    rw [UInt64.le_iff_toNat_le, UInt64.toNat_sub_of_le _ _ hn]
    omega
  simp [growStack, bind, EStateM.bind, get_eq, hn, hl, pure, EStateM.pure]

theorem growStack_overflow (h : m.rsp.toNat < m.stackLimit.toNat + n.toNat) : growStack n m = .error .stackOverflow m := by
  have hn : ¬ (n ≤ m.rsp ∧ m.stackLimit ≤ m.rsp - n) := by
    rintro ⟨h₁, h₂⟩
    rw [UInt64.le_iff_toNat_le, UInt64.toNat_sub_of_le _ _ h₁] at h₂
    rw [UInt64.le_iff_toNat_le] at h₁
    omega
  simp [growStack, bind, EStateM.bind, get_eq, hn, throw_eq]

theorem pushNative_eq (v : UInt64) (h : m.stackLimit.toNat + 8 ≤ m.rsp.toNat) (ho : m.memory.offset? (m.rsp - 8) = some i) :
    pushNative v m = .ok () { m with rsp := m.rsp - 8, memory := m.memory.setWordAt i v } := by
  have hs := store_eq (m := { m with rsp := m.rsp - 8 }) v ho
  exact (bind_ok (growStack_eq (n := 8) h)).trans hs

theorem pushNative_overflow (v : UInt64) (h : m.rsp.toNat < m.stackLimit.toNat + 8) :
    pushNative v m = .error .stackOverflow m := by
  have hg : growStack 8 m = .error .stackOverflow m := growStack_overflow h
  simp only [pushNative, bind, EStateM.bind, hg]

theorem popNative_eq (h : m.memory.load? m.rsp = some v) : popNative m = .ok v { m with rsp := m.rsp + 8 } :=
  bind_ok (load_eq h)

/-! ### What a success says -/

theorem load_ok (h : load a m = .ok v m') : m.memory.load? a = some v ∧ m' = m := by
  simp only [load, bind, EStateM.bind, get_eq] at h
  cases hl : m.memory.load? a with
  | none =>
    rw [hl] at h
    cases h
  | some w =>
    rw [hl] at h
    cases h
    exact ⟨rfl, rfl⟩

theorem store_eq_error (v : UInt64) (h : m.memory.offset? a = none) : store a v m = .error (.badAddress a) m := by
  simp [store, bind, EStateM.bind, get_eq, throw_eq, h]

theorem store_ok (h : store a v m = .ok () m') :
    ∃ i, m.memory.offset? a = some i ∧ m' = { m with memory := m.memory.setWordAt i v } := by
  cases ho : m.memory.offset? a with
  | none => cases (store_eq_error v ho).symm.trans h
  | some i =>
    rw [store_eq v ho] at h
    exact ⟨i, rfl, (EStateM.Result.ok.inj h).2.symm⟩

theorem pushNative_ok (h : pushNative v m = .ok () m') :
    ∃ i, m.memory.offset? (m.rsp - 8) = some i ∧ m' = { m with rsp := m.rsp - 8, memory := m.memory.setWordAt i v } := by
  by_cases hroom : m.rsp.toNat < m.stackLimit.toNat + 8
  · cases (pushNative_overflow v hroom).symm.trans h
  · have hgrow : growStack 8 m = .ok (m.rsp - 8) m := growStack_eq (Nat.le_of_not_lt hroom)
    exact store_ok (m := { m with rsp := m.rsp - 8 }) ((bind_ok hgrow).symm.trans h)

/-- What is loaded depends on the word in memory alone. -/
theorem load_congr (h : m'.memory.load? a = m.memory.load? a) :
    (∀ w, load a m' = .ok w m' ↔ load a m = .ok w m) ∧ ∀ e, load a m' = .error e m' ↔ load a m = .error e m := by
  simp only [load, bind, EStateM.bind, get_eq, h]
  cases m.memory.load? a <;> simp [throw_eq, pure, EStateM.pure]

/-- **Memory keeps words.** A word can be written where one can be read, which is where its eight bytes are in memory. It is
read back then, what is eight bytes or more away is read as before, and nothing else changes; a failed attempt changes nothing
at all. A word that is pushed on the stack of frames is the next one that is popped, and the stack is as high as before. -/
theorem memory_laws (m : Machine) (a v : UInt64) :
    ((∃ m', store a v m = .ok () m') ↔ ∃ w, load a m = .ok w m) ∧
    ((∃ w, load a m = .ok w m) ↔ Memory.base.toNat ≤ a.toNat ∧ a.toNat + 8 ≤ Memory.base.toNat + m.memory.bytes.size) ∧
    (∀ e m', store a v m = .error e m' → m' = m) ∧
    (∀ m', store a v m = .ok () m' → load a m' = .ok v m' ∧
      (∀ b : UInt64, 8 ≤ ((a.toNat : Int) - b.toNat).natAbs →
        (∀ w, load b m' = .ok w m' ↔ load b m = .ok w m) ∧ ∀ e, load b m' = .error e m' ↔ load b m = .error e m) ∧
      m'.memory.bytes.size = m.memory.bytes.size ∧ m' = { m with memory := m'.memory }) ∧
    ∀ m', pushNative v m = .ok () m' → popNative m' = .ok v { m' with rsp := m.rsp } := by
  have hload : (∃ w, load a m = .ok w m) ↔ m.memory.InRange a := by
    constructor
    · rintro ⟨w, h⟩
      exact Memory.inRange_of_load? (load_ok h).1
    · intro h
      exact ⟨_, load_eq h.load?⟩
  have hstore : (∃ m', store a v m = .ok () m') ↔ m.memory.InRange a := by
    constructor
    · rintro ⟨m', h⟩
      obtain ⟨i, hi, -⟩ := store_ok h
      exact (Memory.offset?_eq_some.mp hi).1
    · intro h
      exact ⟨_, store_eq v h.offset?⟩
  refine ⟨hstore.trans hload.symm, hload, fun e m' h => ?_, fun m' h => ?_, fun m' h => ?_⟩
  · cases ho : m.memory.offset? a with
    | none => cases (store_eq_error v ho).symm.trans h; rfl
    | some i => cases (store_eq v ho).symm.trans h
  · obtain ⟨i, hi, rfl⟩ := store_ok h
    refine ⟨?_, fun b hb => ?_, Memory.size_setWordAt .., rfl⟩
    · exact load_eq (m := { m with memory := m.memory.setWordAt i v }) (Memory.load?_setWordAt_self v hi)
    · have hapart := Memory.load?_setWordAt_of_apart v hi (b := b) (by omega)
      exact @load_congr m { m with memory := m.memory.setWordAt i v } b hapart
  · obtain ⟨i, hi, rfl⟩ := pushNative_ok h
    have hpop := popNative_eq (m := { m with rsp := m.rsp - 8, memory := m.memory.setWordAt i v })
      (Memory.load?_setWordAt_self v hi)
    rwa [show m.rsp - 8 + 8 = m.rsp from UInt64.sub_add_cancel ..] at hpop

end

/-! ## Configurations -/

/-- A machine in the middle of a run. -/
structure Config where
  frame : Frame
  callers : List Frame
  machine : Machine

/-- `k` instructions take a run from `c` to `c'`, however much fuel there is beyond that. -/
structure Goes (k : Nat) (c c' : Config) : Prop where
  steps : c'.machine.steps = c.machine.steps + k
  run (n : Nat) : runFrom (n + k) c.frame c.callers { c.machine with fuel := n + k } =
    runFrom n c'.frame c'.callers { c'.machine with fuel := n }

theorem Goes.refl (c : Config) : Goes 0 c c := ⟨rfl, fun _ => rfl⟩

theorem Goes.trans {j k c c' c''} (h₁ : Goes j c c') (h₂ : Goes k c' c'') : Goes (k + j) c c'' := by
  refine ⟨by rw [h₂.steps, h₁.steps, Nat.add_assoc, Nat.add_comm j], fun n => ?_⟩
  rw [← Nat.add_assoc, h₁.run, h₂.run]

/-- An instruction that stays in its function. -/
theorem Goes.exec {f pc callers m i frame m'} (hi : f.code[pc]? = some i) (hsteps : m'.steps = m.steps + 1)
    (h : ∀ n, Machine.exec ⟨f, pc + 1⟩ i (m.ticked n) = .ok (.frame frame) { m' with fuel := n }) :
    Goes 1 ⟨⟨f, pc⟩, callers, m⟩ ⟨frame, callers, m'⟩ := by
  refine ⟨hsteps, fun n => ?_⟩
  rw [runFrom_succ hi, h]

/-! ## Single instructions -/

theorem pop_eq {m : Machine} {v st} (f : Function) (i : Instr) (h : m.stack = v :: st) :
    pop f i m = .ok v { m with stack := st } := by
  simp [pop, bind, EStateM.bind, get_eq, h, modify_eq, pure, EStateM.pure]

theorem push_eq (m : Machine) (v : UInt64) : push v m = .ok () { m with stack := v :: m.stack } := rfl

section

variable {f : Function} {pc j : Nat} {callers : List Frame} {m : Machine} {span : Span}
  {v o : UInt64} {st : List UInt64}

/-- The instruction at `pc` is executed, and the one behind it is next. -/
abbrev Advances (f : Function) (pc : Nat) (callers : List Frame) (m m' : Machine) : Prop :=
  Goes 1 ⟨⟨f, pc⟩, callers, m⟩ ⟨⟨f, pc + 1⟩, callers, m'⟩

theorem Goes.setupGlobal {x : Operand} (hi : f.code[pc]? = some ⟨⟨.setupGlobal, x, span⟩, j⟩) :
    Advances f pc callers m { m with steps := m.steps + 1, stack := [] } :=
  Goes.exec hi rfl fun _ => by cases x <;> rfl

theorem Goes.pushUnsign (hi : f.code[pc]? = some ⟨⟨.pushUnsign, .unsigned v, span⟩, j⟩) :
    Advances f pc callers m { m with steps := m.steps + 1, stack := v :: m.stack } :=
  Goes.exec hi rfl fun _ => rfl

theorem Goes.pushStack (hi : f.code[pc]? = some ⟨⟨.pushStack, .unsigned o, span⟩, j⟩)
    (h : m.memory.load? (m.rbp - o) = some v) :
    Advances f pc callers m { m with steps := m.steps + 1, stack := v :: m.stack } :=
  Goes.exec hi rfl fun n => bind_ok (load_eq (m := m.ticked n) h)

theorem Goes.pushGlobal (hi : f.code[pc]? = some ⟨⟨.pushGlobal, .unsigned o, span⟩, j⟩)
    (h : m.memory.load? (Memory.base + o) = some v) :
    Advances f pc callers m { m with steps := m.steps + 1, stack := v :: m.stack } :=
  Goes.exec hi rfl fun n => bind_ok (load_eq (m := m.ticked n) h)

theorem Goes.pushGea (hi : f.code[pc]? = some ⟨⟨.pushGea, .unsigned o, span⟩, j⟩) :
    Advances f pc callers m { m with steps := m.steps + 1, stack := (Memory.base + o) :: m.stack } :=
  Goes.exec hi rfl fun _ => rfl

theorem Goes.pushSea (hi : f.code[pc]? = some ⟨⟨.pushSea, .unsigned o, span⟩, j⟩) :
    Advances f pc callers m { m with steps := m.steps + 1, stack := (m.rbp - o) :: m.stack } :=
  Goes.exec hi rfl fun _ => rfl

theorem Goes.pop (hi : f.code[pc]? = some ⟨⟨.pop, .none, span⟩, j⟩) (hs : m.stack = v :: st) :
    Advances f pc callers m { m with steps := m.steps + 1, stack := st } :=
  Goes.exec hi rfl fun n => bind_ok (pop_eq (m := m.ticked n) f _ hs)

theorem Goes.clone (hi : f.code[pc]? = some ⟨⟨.clone, .none, span⟩, j⟩) (hs : m.stack = v :: st) :
    Advances f pc callers m { m with steps := m.steps + 1, stack := v :: v :: st } :=
  Goes.exec hi rfl fun n => bind_ok (pop_eq (m := m.ticked n) f _ hs)

theorem Goes.store {a : UInt64} {i : Nat} (hi : f.code[pc]? = some ⟨⟨.store, .none, span⟩, j⟩)
    (hs : m.stack = a :: v :: st) (ho : m.memory.offset? a = some i) :
    Advances f pc callers m { m with steps := m.steps + 1, stack := st, memory := m.memory.setWordAt i v } := by
  refine Goes.exec hi rfl fun n => ?_
  have hv := pop_eq (m := { m.ticked n with stack := v :: st }) f ⟨⟨.store, .none, span⟩, j⟩ rfl
  have hw := store_eq (m := { m.ticked n with stack := st }) v ho
  exact (bind_ok (pop_eq (m := m.ticked n) f _ hs)).trans ((bind_ok hv).trans (bind_ok hw))

theorem Goes.unary {op : Opcode} {apply : UInt64 → UInt64}
    (hi : f.code[pc]? = some ⟨⟨op, .none, span⟩, j⟩) (hop : op.unary? = some apply) (hs : m.stack = v :: st) :
    Advances f pc callers m { m with steps := m.steps + 1, stack := apply v :: st } := by
  refine Goes.exec hi rfl fun n => ?_
  have hp := pop_eq (m := m.ticked n) f ⟨⟨op, .none, span⟩, j⟩ hs
  cases op <;> simp only [Opcode.unary?, reduceCtorEq, Option.some.injEq] at hop <;> subst hop <;> exact bind_ok hp

/-- A binary operation finds its operands and computes with them, or divides by zero. -/
theorem exec_binary {frame : Frame} {op : Opcode} {apply : UInt64 → UInt64 → Option UInt64} {l r : UInt64}
    (hop : op.binary? = some apply) (hs : m.stack = l :: r :: st) : exec frame ⟨⟨op, .none, span⟩, j⟩ m =
      match apply l r with
      | some v => .ok (.frame frame) { m with stack := v :: st }
      | none => .error (.divisionByZero frame.function.name j) { m with stack := st } := by
  have hl := pop_eq frame.function ⟨⟨op, .none, span⟩, j⟩ hs
  have hr := pop_eq (m := { m with stack := r :: st }) frame.function ⟨⟨op, .none, span⟩, j⟩ rfl
  cases op <;> simp only [Opcode.binary?, reduceCtorEq, Option.some.injEq] at hop <;> subst hop <;>
    simp only [Machine.exec, Opcode.unary?, Opcode.binary?, bind, EStateM.bind, hl, hr] <;>
    first
    | rfl
    | (by_cases hr0 : r = 0 <;> simp only [hr0, ↓reduceIte] <;> rfl)

theorem Goes.binary {op : Opcode} {apply : UInt64 → UInt64 → Option UInt64} {l r : UInt64}
    (hi : f.code[pc]? = some ⟨⟨op, .none, span⟩, j⟩) (hop : op.binary? = some apply)
    (hs : m.stack = l :: r :: st) (hv : apply l r = some v) :
    Advances f pc callers m { m with steps := m.steps + 1, stack := v :: st } := by
  refine Goes.exec hi rfl fun n => ?_
  rw [exec_binary (m := m.ticked n) hop hs, hv]

/-! ## Jumps -/

theorem jumpTarget?_eq {op : Opcode} {d : Int} {t : Nat} (hi : f.code[pc]? = some ⟨⟨op, .signed d, span⟩, pc⟩)
    (hop : op.isJump = true) (ht : (t : Int) = pc + 1 + d) : f.jumpTarget? pc = some t := by
  simp only [Function.jumpTarget?, hi, hop, ← ht, Bool.true_and, Int.natCast_nonneg, decide_true, if_true,
    Int.toNat_natCast]

/-- The jump is made, if its target lies in the function. -/
theorem exec_jump {op : Opcode} {d : Int} {t : Nat} (hi : f.code[pc]? = some ⟨⟨op, .signed d, span⟩, pc⟩)
    (hop : op.isJump = true) (ht : (t : Int) = pc + 1 + d) (hl : t ≤ f.length) (p : Nat) :
    exec.jump ⟨f, p⟩ ⟨⟨op, .signed d, span⟩, pc⟩ m = .ok (.frame ⟨f, t⟩) m := by
  simp only [exec.jump, jumpTarget?_eq hi hop ht, if_pos hl, pure, EStateM.pure]

theorem Goes.jump {d : Int} {t : Nat} (hi : f.code[pc]? = some ⟨⟨.jump, .signed d, span⟩, pc⟩)
    (ht : (t : Int) = pc + 1 + d) (hl : t ≤ f.length) :
    Goes 1 ⟨⟨f, pc⟩, callers, m⟩ ⟨⟨f, t⟩, callers, { m with steps := m.steps + 1 }⟩ :=
  Goes.exec hi rfl fun _ => exec_jump hi rfl ht hl _

/-- A conditional jump is made if the value on top of the stack is as `taken` says. -/
theorem Goes.skip {skip : Opcode} {taken : UInt64 → Prop} [DecidablePred taken]
    (hskip : skip = .jumpIf ∧ (∀ v, taken v ↔ v ≠ 0) ∨ skip = .jumpIfNot ∧ ∀ v, taken v ↔ v = 0) {d : Int} {t : Nat}
    (hi : f.code[pc]? = some ⟨⟨skip, .signed d, span⟩, pc⟩) (hs : m.stack = v :: st) (ht : (t : Int) = pc + 1 + d)
    (hl : t ≤ f.length) : Goes 1 ⟨⟨f, pc⟩, callers, m⟩
      ⟨⟨f, if taken v then t else pc + 1⟩, callers, { m with steps := m.steps + 1, stack := st }⟩ := by
  refine Goes.exec hi rfl fun n => ?_
  have hp := pop_eq (m := m.ticked n) f ⟨⟨skip, .signed d, span⟩, pc⟩ hs
  rcases hskip with ⟨rfl, hv⟩ | ⟨rfl, hv⟩
  all_goals
    simp only [Machine.exec, bind, EStateM.bind, hp, hv, ne_eq]
    split
    · exact exec_jump hi rfl ht hl _
    · rfl

/-! ## Frames -/

theorem Goes.framePush {i : Nat} (hi : f.code[pc]? = some ⟨⟨.framePush, .none, span⟩, j⟩)
    (hr : m.stackLimit.toNat + 8 ≤ m.rsp.toNat) (ho : m.memory.offset? (m.rsp - 8) = some i) :
    Advances f pc callers m { m with
      steps := m.steps + 1, rsp := m.rsp - 8, rbp := m.rsp - 8
      memory := m.memory.setWordAt i m.rbp } :=
  Goes.exec hi rfl fun n => bind_ok (pushNative_eq (m := m.ticked n) m.rbp hr ho)

theorem Goes.framePop (hi : f.code[pc]? = some ⟨⟨.framePop, .none, span⟩, j⟩) (h : m.memory.load? m.rbp = some v) :
    Advances f pc callers m { m with steps := m.steps + 1, rsp := m.rbp + 8, rbp := v } :=
  Goes.exec hi rfl fun n => bind_ok (popNative_eq (m := { m.ticked n with rsp := m.rbp }) h)

theorem Goes.alloc (hi : f.code[pc]? = some ⟨⟨.alloc, .unsigned o, span⟩, j⟩)
    (h : m.stackLimit.toNat + o.toNat ≤ m.rsp.toNat) :
    Advances f pc callers m { m with steps := m.steps + 1, rsp := m.rsp - o } :=
  Goes.exec hi rfl fun n => bind_ok (growStack_eq (m := m.ticked n) h)

theorem Goes.free (hi : f.code[pc]? = some ⟨⟨.free, .unsigned o, span⟩, j⟩) (h : m.rsp.toNat + o.toNat ≤ m.stackTop.toNat) :
    Advances f pc callers m { m with steps := m.steps + 1, rsp := m.rsp + o } := by
  refine Goes.exec hi rfl fun n => ?_
  simp only [Machine.exec, bind, EStateM.bind, get_eq, if_pos h, setRsp, modify_eq, pure, EStateM.pure]

/-! ## Calls and returns -/

theorem exec_call {g : Function} {name : String} {frame : Frame} (hg : m.program.function? name = some g)
    (hx : g.external = false) : exec frame ⟨⟨.call, .label name, span⟩, j⟩ m = .ok (.call g) m := by
  simp [Machine.exec, bind, EStateM.bind, get_eq, hg, hx, pure, EStateM.pure]

theorem Goes.call {g : Function} {name : String} {i : Nat}
    (hi : f.code[pc]? = some ⟨⟨.call, .label name, span⟩, j⟩) (hg : m.program.function? name = some g)
    (hx : g.external = false) (hr : m.stackLimit.toNat + 8 ≤ m.rsp.toNat) (ho : m.memory.offset? (m.rsp - 8) = some i) :
    Goes 1 ⟨⟨f, pc⟩, callers, m⟩ ⟨⟨g, 0⟩, ⟨f, pc + 1⟩ :: callers, { m with
          steps := m.steps + 1, rsp := m.rsp - 8
          memory := m.memory.setWordAt i returnMarker }⟩ := by
  refine ⟨rfl, fun n => ?_⟩
  have he : Machine.exec ⟨f, pc + 1⟩ ⟨⟨.call, .label name, span⟩, j⟩ (m.ticked n) = .ok (.call g) (m.ticked n) :=
    exec_call hg hx
  have hp := pushNative_eq (m := m.ticked n) returnMarker hr ho
  rw [runFrom_succ hi]
  simp only [he, hp]

theorem Goes.putchar (hi : f.code[pc]? = some ⟨⟨.call, .label "putchar", span⟩, j⟩)
    (hg : m.program.function? "putchar" = none) (hs : m.stack = v :: st) :
    Advances f pc callers m { m with steps := m.steps + 1, stack := st, output := m.output.push v.toUInt8 } := by
  refine Goes.exec hi rfl fun n => ?_
  have hp := pop_eq (m := m.ticked n) f ⟨⟨.call, .label "putchar", span⟩, j⟩ hs
  have hb : Builtin.ofName? "putchar" = some .putchar := by decide
  simp only [Machine.exec, bind, EStateM.bind, get_eq, hg, hb, hp, modify_eq, pure, EStateM.pure]

/-- A return takes the native stack back by a word and goes on in the caller, if there is one. -/
theorem runFrom_return (n : Nat) (hi : f.code[pc]? = some ⟨⟨.ret, .none, span⟩, j⟩) (h : m.memory.load? m.rsp = some v) :
    runFrom (n + 1) ⟨f, pc⟩ callers m =
      match callers with
      | [] => .ok () { m.ticked n with rsp := m.rsp + 8 }
      | caller :: rest => runFrom n caller rest { m.ticked n with rsp := m.rsp + 8 } := by
  have hp := popNative_eq (m := m.ticked n) h
  have he : Machine.exec ⟨f, pc + 1⟩ ⟨⟨.ret, .none, span⟩, j⟩ (m.ticked n) = .ok .ret (m.ticked n) := rfl
  rw [runFrom_succ hi]
  simp only [he, hp]

theorem Goes.ret {caller : Frame} (hi : f.code[pc]? = some ⟨⟨.ret, .none, span⟩, j⟩) (h : m.memory.load? m.rsp = some v) :
    Goes 1 ⟨⟨f, pc⟩, caller :: callers, m⟩ ⟨caller, callers, { m with steps := m.steps + 1, rsp := m.rsp + 8 }⟩ :=
  ⟨rfl, fun n => runFrom_return (m := { m with fuel := n + 1 }) n hi h⟩

/-- The return that ends a run. -/
theorem runFrom_ret (n : Nat) (hi : f.code[pc]? = some ⟨⟨.ret, .none, span⟩, j⟩) (h : m.memory.load? m.rsp = some v) :
    runFrom (n + 1) ⟨f, pc⟩ [] m = .ok () { m with fuel := n, steps := m.steps + 1, rsp := m.rsp + 8 } :=
  runFrom_return n hi h

end

end Wordstack.Machine
