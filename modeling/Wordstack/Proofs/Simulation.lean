/-
The assembly of an instruction does what the instruction does. A processor mirrors a
machine if its registers, its memory and the operand stack in it are those of the
machine; the lines of an instruction lead from a mirror of the machine before it to a
mirror of the machine after it, and to the label of the instruction that is next.
-/
import Wordstack.Proofs.Lines
import Wordstack.Proofs.Processor
import Wordstack.Proofs.Run

namespace Wordstack.Assembly

open Processor

variable {a v w : UInt64} {i k t : Nat} {ls : List Line} {m m' : Machine}

/-! ## Mirrors -/

/-- The processor is in the state of the machine. The operand stack lies apart from the memory of the machine, from
where `r15` points on. -/
structure Mirrors (m : Machine) (s : Processor) : Prop where
  rbp : s.regs .rbp = m.rbp
  rsp : s.regs .rsp = m.rsp
  height : s.regs .r14 = m.stack.length.toUInt64
  operands : ∀ (j : Nat) (v : UInt64), m.stack.reverse[j]? = some v →
    readWord s.memory (s.regs .r15 + j.toUInt64 * 8) = v
  data : ∀ (o : Nat) (b : UInt8), m.memory.bytes[o]? = some b → s.memory (Memory.base + o.toUInt64) = b
  room : Memory.base.toNat + m.memory.bytes.size ≤ UInt64.size
  apart : ∀ k o : Nat, k < 8 * operandStackWords → o < m.memory.bytes.size →
    s.regs .r15 + k.toUInt64 ≠ Memory.base + o.toUInt64

/-- The registers that hold more than intermediate results are the same, and so is the memory. -/
structure Keeps (s s' : Processor) : Prop where
  memory : s'.memory = s.memory
  regs : ∀ r ∈ [Reg.rbp, .rsp, .r14, .r15], s'.regs r = s.regs r

theorem Keeps.refl (s : Processor) : Keeps s s := ⟨rfl, fun _ _ => rfl⟩

theorem Keeps.trans {s s' s'' : Processor} (h₁ : Keeps s s') (h₂ : Keeps s' s'') : Keeps s s'' :=
  ⟨h₂.memory.trans h₁.memory, fun r hr => (h₂.regs r hr).trans (h₁.regs r hr)⟩

theorem Keeps.set {s : Processor} {r : Reg} (h : r ∉ [Reg.rbp, .rsp, .r14, .r15]) (w : UInt64) : Keeps s (s.set r w) :=
  ⟨rfl, fun _ hr' => s.regs_set_of_ne w fun heq => h (heq ▸ hr')⟩

theorem Keeps.setFlags (s : Processor) (flags : Option Flags) : Keeps s (s.setFlags flags) := ⟨rfl, fun _ _ => rfl⟩

namespace Mirrors

variable {m : Machine} {s s' : Processor}

theorem keeps (h : Mirrors m s) (hk : Keeps s s') : Mirrors m s' where
  rbp := (hk.regs .rbp (by simp)).trans h.rbp
  rsp := (hk.regs .rsp (by simp)).trans h.rsp
  height := (hk.regs .r14 (by simp)).trans h.height
  operands j v hv := by
    rw [hk.memory, hk.regs .r15 (by simp)]
    exact h.operands j v hv
  data o b hb := by
    rw [hk.memory]
    exact h.data o b hb
  room := h.room
  apart k o hk' ho := by
    rw [hk.regs .r15 (by simp)]
    exact h.apart k o hk' ho

end Mirrors

/-! ## The memory of the machine -/

theorem toNat_toUInt64 (n : Nat) : n.toUInt64.toNat = n % 0x10000000000000000 := rfl

/-- An address in the memory of the machine, byte by byte. -/
theorem add_of_inRange {mem : Memory} (h : mem.InRange a) (k : Nat) :
    a + k.toUInt64 = Memory.base + (a.toNat - Memory.base.toNat + k).toUInt64 := by
  have hle := h.1
  apply UInt64.toNat_inj.mp
  rw [UInt64.toNat_add, UInt64.toNat_add, toNat_toUInt64, toNat_toUInt64]
  omega

theorem getElem?_setWordAt (mem : Memory) (w : UInt64) (hk : k < 8) (hi : i + 8 ≤ mem.bytes.size) :
    (mem.setWordAt i w).bytes[i + k]? = (Memory.wordBytes w)[k]? := by
  have hsize : ∀ k, k < 8 → i + k < mem.bytes.size := by omega
  simp only [Memory.setWordAt, Array.getElem?_setIfInBounds]
  have hcases : k = 0 ∨ k = 1 ∨ k = 2 ∨ k = 3 ∨ k = 4 ∨ k = 5 ∨ k = 6 ∨ k = 7 := by omega
  rcases hcases with rfl | rfl | rfl | rfl | rfl | rfl | rfl | rfl <;> simp [Memory.wordBytes, hsize, show i < mem.bytes.size by omega]

namespace Mirrors

variable {m : Machine} {s : Processor} {a v : UInt64}

theorem byte (h : Mirrors m s) (hr : m.memory.InRange a) (hk : k < 8) :
    s.memory (a + k.toUInt64) = m.memory.bytes.getD (a.toNat - Memory.base.toNat + k) 0 := by
  have hlt : a.toNat - Memory.base.toNat + k < m.memory.bytes.size := by
    obtain ⟨h₁, h₂⟩ := hr
    omega
  rw [add_of_inRange hr, h.data _ _ (Array.getElem?_eq_getElem hlt), Array.getD_eq_getD_getElem?, Array.getElem?_eq_getElem hlt]
  rfl

/-- What the machine reads the processor reads. -/
theorem load (h : Mirrors m s) (hl : m.memory.load? a = some v) : readWord s.memory a = v := by
  have hr := Memory.inRange_of_load? hl
  rw [hr.load?] at hl
  rw [← Option.some.inj hl]
  have hbyte := fun k hk => h.byte (k := k) hr hk
  have h0 := hbyte 0 (by decide)
  have h1 := hbyte 1 (by decide)
  have h2 := hbyte 2 (by decide)
  have h3 := hbyte 3 (by decide)
  have h4 := hbyte 4 (by decide)
  have h5 := hbyte 5 (by decide)
  have h6 := hbyte 6 (by decide)
  have h7 := hbyte 7 (by decide)
  unfold readWord Memory.wordAt
  dsimp only
  rw [← h0, ← h1, ← h2, ← h3, ← h4, ← h5, ← h6, ← h7]
  rfl

theorem slot_byte (base : UInt64) (j l : Nat) : base + j.toUInt64 * 8 + l.toUInt64 = base + (j * 8 + l).toUInt64 := by
  apply UInt64.toNat_inj.mp
  simp only [UInt64.toNat_add, UInt64.toNat_mul, toNat_toUInt64, UInt64.toNat_ofNat]
  omega

theorem slot_apart (base : UInt64) {j l : Nat} (hij : i ≠ j) (hi : i < operandStackWords)
    (hj : j < operandStackWords) (hk : k < 8) (hl : l < 8) :
    base + i.toUInt64 * 8 + k.toUInt64 ≠ base + j.toUInt64 * 8 + l.toUInt64 := by
  have hwords : operandStackWords = 65536 := rfl
  rw [slot_byte, slot_byte]
  intro heq
  have heq := congrArg UInt64.toNat heq
  rw [UInt64.toNat_add, UInt64.toNat_add, toNat_toUInt64, toNat_toUInt64] at heq
  omega

/-- What lies in the memory of the machine is not on the operand stack. -/
theorem operand_apart (h : Mirrors m s) (hr : m.memory.InRange a) {j : Nat} (hj : j < operandStackWords) {l : Nat}
    (hk : k < 8) (hl : l < 8) : a + k.toUInt64 ≠ s.regs .r15 + j.toUInt64 * 8 + l.toUInt64 := by
  obtain ⟨h₁, h₂⟩ := hr
  rw [add_of_inRange ⟨h₁, h₂⟩, slot_byte]
  exact (h.apart (j * 8 + l) (a.toNat - Memory.base.toNat + k) (by omega) (by omega)).symm

theorem ofNat_of_lt_eight {k : UInt64} (hk : k < 8) : k = k.toNat.toUInt64 ∧ k.toNat < 8 :=
  ⟨(UInt64.ofNat_toNat).symm, by simpa [UInt64.lt_iff_toNat_lt] using hk⟩

/-- What the machine writes the processor writes. -/
theorem store (h : Mirrors m s) (hr : m.memory.InRange a) (hd : m.stack.length ≤ operandStackWords) {mem : Memory}
    (hmem : mem = m.memory.setWordAt (a.toNat - Memory.base.toNat) v) : Mirrors { m with memory := mem } (s.write a v) where
  rbp := h.rbp
  rsp := h.rsp
  height := h.height
  operands j w hw := by
    have hj : j < operandStackWords := by
      have := (List.getElem?_eq_some_iff.mp hw).1
      rw [List.length_reverse] at this
      exact Nat.lt_of_lt_of_le this hd
    refine (readWord_congr fun l hl => writeWord_of_apart v fun k hk => ?_).trans (h.operands j w hw)
    obtain ⟨hk', hk⟩ := ofNat_of_lt_eight hk
    obtain ⟨hl', hl⟩ := ofNat_of_lt_eight hl
    rw [hk', hl']
    exact h.operand_apart hr hj hk hl
  data o b hb := by
    have hroom := h.room
    obtain ⟨h₁, h₂⟩ := hr
    have hb : mem.bytes[o]? = some b := hb
    have ho : o < mem.bytes.size := (Array.getElem?_eq_some_iff.mp hb).1
    rw [hmem] at hb ho
    rw [Memory.size_setWordAt] at ho
    have hbase : (Memory.base + o.toUInt64).toNat = Memory.base.toNat + o := by
      have : UInt64.size = 2 ^ 64 := rfl
      rw [UInt64.toNat_add, toNat_toUInt64]
      omega
    by_cases hin : a.toNat - Memory.base.toNat ≤ o ∧ o < a.toNat - Memory.base.toNat + 8
    · obtain ⟨k, rfl⟩ := Nat.exists_eq_add_of_le hin.1
      rw [getElem?_setWordAt _ _ (by omega) (by omega)] at hb
      have hk : k < 8 := by omega
      have hlt : k.toUInt64 < 8 := by
        rw [UInt64.lt_iff_toNat_lt, toNat_toUInt64]
        exact Nat.lt_of_le_of_lt (Nat.mod_le _ _) hk
      rw [← add_of_inRange ⟨h₁, h₂⟩]
      refine (writeWord_add _ _ _ hlt).trans ?_
      rw [toNat_toUInt64, Nat.mod_eq_of_lt (by omega), List.getD_eq_getElem?_getD, hb]
      rfl
    · rw [Memory.getElem?_setWordAt_of_apart _ _ (by omega)] at hb
      refine (writeWord_of_apart v fun k hk heq => hin ?_).trans (h.data o b hb)
      obtain ⟨hk', hk⟩ := ofNat_of_lt_eight hk
      have heq := congrArg UInt64.toNat heq
      rw [hk', add_of_inRange ⟨h₁, h₂⟩, UInt64.toNat_add, toNat_toUInt64, hbase] at heq
      have : UInt64.size = 2 ^ 64 := rfl
      omega
  room := by
    show _ + mem.bytes.size ≤ _
    rw [hmem, Memory.size_setWordAt]
    exact h.room
  apart k o hk ho := by
    have ho : o < mem.bytes.size := ho
    rw [hmem, Memory.size_setWordAt] at ho
    exact h.apart k o hk ho

/-- Pushes a value to the operand stack. -/
theorem push (h : Mirrors m s) (hd : m.stack.length < operandStackWords) (v : UInt64) :
    Mirrors { m with stack := v :: m.stack }
      ((s.write (s.regs .r15 + s.regs .r14 * 8) v).set .r14 (s.regs .r14 + 1)) where
  rbp := h.rbp
  rsp := h.rsp
  height := by
    rw [regs_set_self, h.height]
    exact (UInt64.ofNat_add ..).symm
  operands j w hw := by
    rw [List.reverse_cons] at hw
    rcases Nat.lt_or_ge j m.stack.length with hj | hj
    · rw [List.getElem?_append_left (by rwa [List.length_reverse])] at hw
      refine (readWord_congr fun l hl => writeWord_of_apart v fun k hk => ?_).trans (h.operands j w hw)
      obtain ⟨hk', hk⟩ := ofNat_of_lt_eight hk
      obtain ⟨hl', hl⟩ := ofNat_of_lt_eight hl
      rw [hk', hl', h.height]
      exact slot_apart _ (Nat.ne_of_gt hj) hd (Nat.lt_trans hj hd) hk hl
    · obtain rfl : j = m.stack.length := by
        have := (List.getElem?_eq_some_iff.mp hw).1
        simp at this
        omega
      rw [List.getElem?_append_right (by simp), List.length_reverse, Nat.sub_self] at hw
      obtain rfl : v = w := by simpa using hw
      rw [← h.height]
      exact readWord_writeWord_self _ _ v
  data o b hb := by
    refine (writeWord_of_apart v fun k hk => ?_).trans (h.data o b hb)
    obtain ⟨hk', hk⟩ := ofNat_of_lt_eight hk
    rw [hk', h.height, slot_byte]
    exact h.apart _ o (by omega) (Array.getElem?_eq_some_iff.mp hb).1
  room := h.room
  apart k o hk ho := h.apart k o hk ho

theorem setRsp (h : Mirrors m s) (w : UInt64) : Mirrors { m with rsp := w } (s.set .rsp w) :=
  ⟨h.rbp, rfl, h.height, h.operands, h.data, h.room, h.apart⟩

theorem setRbp (h : Mirrors m s) (w : UInt64) : Mirrors { m with rbp := w } (s.set .rbp w) :=
  ⟨rfl, h.rsp, h.height, h.operands, h.data, h.room, h.apart⟩

/-- Pops a value from the operand stack. -/
theorem pop {rest : List UInt64} (h : Mirrors m s) (hs : m.stack = v :: rest) :
    Mirrors { m with stack := rest } (s.set .r14 (s.regs .r14 - 1)) ∧
      readWord s.memory (s.regs .r15 + (s.regs .r14 - 1) * 8) = v := by
  have hrev : m.stack.reverse = rest.reverse ++ [v] := by rw [hs, List.reverse_cons]
  have hheight : s.regs .r14 - 1 = rest.length.toUInt64 := by
    rw [h.height, hs, List.length_cons]
    exact (congrArg (· - 1) (UInt64.ofNat_add ..)).trans (UInt64.add_sub_cancel ..)
  refine ⟨⟨h.rbp, h.rsp, ?_, fun j w hw => ?_, h.data, h.room, h.apart⟩, ?_⟩
  · rw [regs_set_self, hheight]
  · refine h.operands j w ?_
    rw [hrev, List.getElem?_append_left (List.getElem?_eq_some_iff.mp hw).1]
    exact hw
  · rw [hheight]
    refine h.operands _ v ?_
    rw [hrev, List.getElem?_append_right (by simp)]
    simp

end Mirrors

/-! ## Lines for computations of the machine -/

/-- What succeeds has succeeded in its first part. -/
theorem ok_of_bind {α β : Type} {x : Machine.Exec α} {f : α → Machine.Exec β} {m'' : Machine} {b : β}
    (h : (x >>= f) m = .ok b m'') : ∃ a m', x m = .ok a m' ∧ f a m' = .ok b m'' := by
  have h : EStateM.bind x f m = .ok b m'' := h
  unfold EStateM.bind at h
  cases hx : x m with
  | error e m' =>
    rw [hx] at h
    cases h
  | ok a m' =>
    rw [hx] at h
    exact ⟨a, m', rfl, h⟩

section

variable (place : String → UInt64) {α β : Type}

/-- The lines do what `x` does, if `x` succeeds: from a mirror of the machine before it, in a state as `P` says and with
at most `n` operands, they lead to a mirror of the machine after it, in a state as `Q` says and with at most `n'`. -/
def Simulates (n : Nat) (P : Processor → Prop) (lines : List Line) (x : Machine.Exec α) (n' : Nat)
    (Q : α → Processor → Prop) : Prop :=
  ∀ m s, Mirrors m s → m.stack.length ≤ n → P s → ∀ a m', x m = .ok a m' →
    ∃ s', s.row place lines = some (s', none) ∧ Mirrors m' s' ∧ m'.stack.length ≤ n' ∧ Q a s'

variable {place} {n n' n'' : Nat} {P : Processor → Prop} {Q R : α → Processor → Prop} {Q' : β → Processor → Prop}
  {lines more : List Line} {x : Machine.Exec α} {f : α → Machine.Exec β}

namespace Simulates

theorem pure {a : α} (h : ∀ s, P s → Q a s) : Simulates place n P [] (Pure.pure a) n Q := by
  intro m s hm hn hp a' m' heq
  cases heq
  exact ⟨s, rfl, hm, hn, h s hp⟩

theorem throw {e : Fault} : Simulates place n P lines (throw e : Machine.Exec α) n' Q := by
  intro m s _ _ _ a m' heq
  cases heq

theorem bind (hx : Simulates place n P lines x n' R) (hf : ∀ a, Simulates place n' (R a) more (f a) n'' Q') :
    Simulates place n P (lines ++ more) (x >>= f) n'' Q' := by
  intro m s hm hn hp b m'' heq
  obtain ⟨a, m', hxm, hfm⟩ := ok_of_bind heq
  obtain ⟨s', hrow, hm', hn', hr⟩ := hx m s hm hn hp a m' hxm
  obtain ⟨s'', hrow', hrest⟩ := hf a m' s' hm' hn' hr b m'' hfm
  exact ⟨s'', row_append hrow hrow', hrest⟩

/-- Nothing is left to do. -/
theorem finish {b : β} (hx : Simulates place n P lines x n' R) (hb : ∀ s, Q' b s) :
    Simulates place n P lines (do let _ ← x; Pure.pure b) n' Q' := by
  rw [← List.append_nil lines]
  exact hx.bind fun _ => .pure fun s _ => hb s

theorem mono (hx : Simulates place n P lines x n' Q) (hk : n' ≤ k) : Simulates place n P lines x k Q := by
  intro m s hm hn hp a m' heq
  obtain ⟨s', hrow, hm', hn', hq⟩ := hx m s hm hn hp a m' heq
  exact ⟨s', hrow, hm', Nat.le_trans hn' hk, hq⟩

/-- Lines that only work out an intermediate result. -/
theorem prepare {P' : Processor → Prop} (h : ∀ m s, Mirrors m s → P s → ∃ s', s.row place lines = some (s', none) ∧ Keeps s s' ∧ P' s')
    (hx : Simulates place n P' more x n' Q) : Simulates place n P (lines ++ more) x n' Q := by
  intro m s hm hn hp a m' heq
  obtain ⟨s', hrow, hkeeps, hp'⟩ := h m s hm hp
  obtain ⟨s'', hrow', hrest⟩ := hx m s' (hm.keeps hkeeps) hn hp' a m' heq
  exact ⟨s'', row_append hrow hrow', hrest⟩

/-- What the machine knows of its frame the processor knows too. -/
theorem get {f : Machine → Machine.Exec β}
    (h : ∀ m, Simulates place n (fun s => P s ∧ s.regs .rbp = m.rbp ∧ s.regs .rsp = m.rsp) lines (f m) n' Q') :
    Simulates place n P lines (MonadState.get >>= f) n' Q' :=
  fun m s hm hn hp => h m m s hm hn ⟨hp, hm.rbp, hm.rsp⟩

end Simulates

/-- Only registers of `rs` may have changed. -/
def Agree (rs : List Reg) (s s' : Processor) : Prop := ∀ r, r ∉ rs → s'.regs r = s.regs r

theorem pop_ok {g : Function} {i : Instr} (h : Machine.pop g i m = .ok v m') :
    ∃ rest, m.stack = v :: rest ∧ m' = { m with stack := rest } := by
  cases hs : m.stack with
  | nil =>
    have : Machine.pop g i m = .error (.stackUnderflow g.name i.index) m := by
      simp [Machine.pop, bind, EStateM.bind, Machine.get_eq, hs, Machine.throw_eq]
    rw [this] at h
    cases h
  | cons v' rest =>
    rw [Machine.pop_eq g i hs] at h
    cases h
    exact ⟨rest, rfl, rfl⟩

/-- Pops a value to a register that holds nothing that is needed. -/
theorem simulates_pop (g : Function) (i : Instr) {r : Reg} (hr : r ∉ [Reg.rbp, .rsp, .r14, .r15])
    (hP : ∀ s s', Agree [r, .r14] s s' → P s → P s') :
    Simulates place n P (popTo r) (Machine.pop g i) n fun v s => s.regs r = v ∧ P s := by
  intro m s hm hn hp v m' heq
  obtain ⟨rest, hs, rfl⟩ := pop_ok heq
  obtain ⟨hm', hread⟩ := hm.pop hs
  refine ⟨_, rfl, (hm'.keeps (.setFlags _ _)).keeps (.set hr _), ?_, ?_, ?_⟩
  · rw [hs] at hn
    exact Nat.le_of_succ_le hn
  · exact hread ▸ regs_set_self ..
  · refine hP s _ (fun r' hr' => ?_) hp
    simp only [List.mem_cons, List.not_mem_nil, or_false, not_or] at hr'
    exact (regs_set_of_ne _ _ hr'.1).trans (regs_set_of_ne _ _ hr'.2)

/-- Pushes the value in `rax`. -/
theorem simulates_push (hn : n < operandStackWords) (hP : ∀ s, P s → s.regs .rax = v) :
    Simulates place n P pushRax (Machine.push v) (n + 1) fun _ _ => True := by
  intro m s hm hle hp a m' heq
  cases heq
  refine ⟨_, rfl, ?_, Nat.succ_le_succ hle, trivial⟩
  rw [← hP s hp]
  exact (hm.push (Nat.lt_of_le_of_lt hle hn) _).keeps (.setFlags _ _)

/-- Reads to `rax`. -/
theorem simulates_load {a : Address} (ha : ∀ s, P s → s.address place a = w) :
    Simulates place n P [Assembly.binary .mov (.reg .rax) (.mem a)] (Machine.load w) n fun v s => s.regs .rax = v := by
  intro m s hm hn hp v m' heq
  obtain ⟨hl, rfl⟩ := Machine.load_ok heq
  refine ⟨_, rfl, hm.keeps (.set (by simp) _), hn, (regs_set_self ..).trans ?_⟩
  rw [← hm.load hl, ← ha s hp]

/-- Writes the value in `rcx` to the address in `rax`. -/
theorem simulates_store (hn : n ≤ operandStackWords) (hv : ∀ s, P s → s.regs .rcx = v) (ha : ∀ s, P s → s.regs .rax = a) :
    Simulates place n P [Assembly.binary .mov (.mem (.at .rax)) (.reg .rcx)] (Machine.store a v) n fun _ _ => True := by
  intro m s hm hle hp _ m' heq
  obtain ⟨i, ho, rfl⟩ := Machine.store_ok heq
  obtain ⟨hr, hi⟩ := Memory.offset?_eq_some.mp ho
  refine ⟨_, rfl, ?_, hle, trivial⟩
  show Mirrors _ (s.write (s.regs .rax) (s.regs .rcx))
  rw [hv s hp, ha s hp]
  exact hm.store hr (Nat.le_trans hle hn) (by rw [hi])

/-- A value that is worked out in `rax` and pushed. -/
theorem simulates_value {frame : Frame} (hn : n < operandStackWords)
    (h : ∀ m s, Mirrors m s → P s → ∃ s', s.row place ls = some (s', none) ∧ Keeps s s' ∧ s'.regs .rax = v) :
    Simulates place n P (ls ++ pushRax) (do Machine.push v; return Machine.Next.frame frame) (n + 1)
      fun next _ => next = .frame frame := by
  exact .prepare h ((simulates_push hn fun _ h => h).finish fun _ => rfl)

/-- Pushes what is on top of the operand stack once more. -/
theorem simulates_clone (g : Function) (i : Instr) (frame : Frame) (hn : n < operandStackWords) :
    Simulates place n P (Assembly.binary .mov (.reg .rax) (.mem .top) :: pushRax)
      (do let v ← Machine.pop g i; Machine.push v; Machine.push v; return Machine.Next.frame frame) (n + 1)
      fun next _ => next = .frame frame := by
  intro m s hm hle hp next m' heq
  obtain ⟨v, m₁, hpop, hrest⟩ := ok_of_bind heq
  obtain ⟨rest, hs, rfl⟩ := pop_ok hpop
  cases hrest
  have htop : s.address place .top = s.regs .r15 + (s.regs .r14 - 1) * 8 := by
    show s.regs .r15 + s.regs .r14 * 8 - 8 = _
    apply UInt64.toNat_inj.mp
    simp only [UInt64.toNat_add, UInt64.toNat_mul, UInt64.toNat_sub, UInt64.toNat_ofNat]
    omega
  have hread : readWord s.memory (s.address place .top) = v := htop ▸ (hm.pop hs).2
  -- the machine pops the value and pushes it twice, the processor only pushes it
  obtain ⟨s', hrow, hm', hlen, -⟩ := simulates_push hn (fun _ h => h) m (s.set .rax (readWord s.memory (s.address place .top)))
    (hm.keeps (.set (by simp) _)) hle ((regs_set_self ..).trans hread) () _ (Machine.push_eq m v)
  rw [hs] at hm' hlen
  exact ⟨s', row_append (a := [Assembly.binary .mov (.reg .rax) (.mem .top)]) rfl hrow, hm', hlen, rfl⟩

/-! ## The stack of frames -/

theorem growStack_ok {k : UInt64} (h : Machine.growStack k m = .ok w m') : w = m.rsp - k ∧ m' = m := by
  obtain ⟨m₀, m₁, hget, h⟩ := ok_of_bind h
  cases hget
  split at h
  · cases h
    exact ⟨rfl, rfl⟩
  · cases h

/-- Asks for a piece of stack; it is taken into use afterwards. -/
theorem simulates_growStack (k : UInt64) :
    Simulates place n P [] (Machine.growStack k) n fun w s => w = s.regs .rsp - k := by
  intro m s hm hle hp w m' heq
  obtain ⟨rfl, rfl⟩ := growStack_ok heq
  exact ⟨s, rfl, hm, hle, congrArg (· - k) hm.rsp.symm⟩

/-- Pushes `rbp` to the stack of frames. -/
theorem simulates_pushNative (hn : n ≤ operandStackWords) (hP : ∀ s, P s → s.regs .rbp = w) :
    Simulates place n P [Assembly.unary .push .rbp] (Machine.pushNative w) n fun _ _ => True := by
  intro m s hm hle hp _ m' heq
  obtain ⟨i, ho, rfl⟩ := Machine.pushNative_ok heq
  obtain ⟨hr, hi⟩ := Memory.offset?_eq_some.mp ho
  refine ⟨_, rfl, ?_, hle, trivial⟩
  show Mirrors _ ((s.set .rsp (s.regs .rsp - 8)).write (s.regs .rsp - 8) (s.regs .rbp))
  rw [hP s hp, hm.rsp]
  exact (hm.setRsp (m.rsp - 8)).store hr (Nat.le_trans hle hn) (by rw [hi])

/-- Pops `rbp` from the stack of frames. -/
theorem simulates_popNative (frame : Frame) :
    Simulates place n P [Assembly.unary .pop .rbp]
      (do Machine.setRbp (← Machine.popNative); return Machine.Next.frame frame) n fun next _ => next = .frame frame := by
  intro m s hm hle hp _ m' heq
  obtain ⟨w, m₁, hpop, hset⟩ := ok_of_bind heq
  obtain ⟨_, m₂, hget, hrest⟩ := ok_of_bind hpop
  cases hget
  obtain ⟨v, m₃, hload, hmoved⟩ := ok_of_bind hrest
  obtain ⟨hl, rfl⟩ := Machine.load_ok hload
  cases hmoved
  cases hset
  refine ⟨_, rfl, ?_, hle, rfl⟩
  show Mirrors _ ((s.set .rsp (s.regs .rsp + 8)).set .rbp (readWord s.memory (s.regs .rsp)))
  rw [hm.rsp, hm.load hl]
  exact (hm.setRsp _).setRbp _

/-- One operation that moves the stack pointer. -/
theorem simulates_setRsp {o : Op} (h : ∀ s, P s → ∃ flags, s.exec place o = some ((s.set .rsp w).setFlags flags, none)) :
    Simulates place n P [.op o] (Machine.setRsp w) n fun _ _ => True := by
  intro m s hm hle hp _ m' heq
  cases heq
  obtain ⟨flags, ho⟩ := h s hp
  refine ⟨_, ?_, (hm.setRsp w).keeps (.setFlags _ flags), hle, trivial⟩
  rw [row_single, ho]

/-- The base of a frame is put where the stack ends. -/
theorem simulates_setRbp (hP : ∀ s, P s → s.regs .rsp = w) :
    Simulates place n P [regs .mov .rbp .rsp] (Machine.setRbp w) n fun _ _ => True := by
  intro m s hm hle hp _ m' heq
  cases heq
  refine ⟨_, rfl, ?_, hle, trivial⟩
  show Mirrors _ (s.set .rbp (s.regs .rsp))
  rw [hP s hp]
  exact hm.setRbp w

/-! ## Operations on values -/

/-- The outcome of a comparison, which moves without flags do not disturb. -/
theorem row_compare {outcome : Binary} {condition : Flags → Bool} (h : outcome.condition? = some condition) (s : Processor) :
    ∃ s', s.row place (compare outcome) = some (s', none) ∧ Keeps s s' ∧
      s'.regs .rax = Word.ofBool (condition (.ofSub (s.regs .rax) (s.regs .rcx))) := by
  let s₁ := ((s.set .rdx 1).setFlags (some (.ofSub (s.regs .rax) (s.regs .rcx)))).set .rax 0
  have hkeeps : Keeps s s₁ := ((Keeps.set (by simp) 1).trans (.setFlags _ _)).trans (.set (by simp) 0)
  have hrow : s.row place (compare outcome) =
      some (if condition (.ofSub (s.regs .rax) (s.regs .rcx)) then s₁.set .rax 1 else s₁, none) := by
    cases outcome <;> cases h <;> rfl
  refine ⟨_, hrow, ?_, ?_⟩
  · split
    · exact hkeeps.trans (.set (by simp) 1)
    · exact hkeeps
  · unfold Word.ofBool
    split <;> rfl

theorem lessEq_eq (a b : UInt64) : Word.lessEq a b = !Word.less b a := by
  simp only [Word.lessEq, Word.less, ← decide_not]
  exact decide_eq_decide.mpr Int64.not_lt.symm

theorem less_swap (a b : UInt64) : Word.less b a = (!decide (a = b) && !Word.less a b) := by
  have hinj : a = b ↔ a.toInt64.toInt = b.toInt64.toInt :=
    ⟨fun h => h ▸ rfl, fun h => by simpa using congrArg Int64.toUInt64 (Int64.toInt_inj.mp h)⟩
  simp only [Word.less, Int64.lt_iff_toInt_lt, hinj, ← decide_not, ← Bool.decide_and]
  exact decide_eq_decide.mpr (by omega)

theorem ofSub_not_less (a b : UInt64) : ((Flags.ofSub a b).sign == (Flags.ofSub a b).overflow) = !Word.less a b := by
  rw [← ofSub_less, bne, Bool.not_not]

variable (place) in
/-- Operations on one value. -/
theorem row_change {op : Opcode} {apply : UInt64 → UInt64} (hl : change? op = some ls)
    (ha : op.unary? = some apply) (s : Processor) :
    ∃ s', s.row place ls = some (s', none) ∧ Keeps s s' ∧ s'.regs .rax = apply (s.regs .rax) := by
  cases op <;> cases hl <;> cases ha
  case neg => exact ⟨_, rfl, (Keeps.set (by simp) _).trans (.setFlags _ _), rfl⟩
  case bitNot => exact ⟨_, rfl, .set (by simp) _, rfl⟩
  case logNot =>
    let s₁ := ((s.setFlags (some (.ofBits (s.regs .rax &&& s.regs .rax)))).set .rdx 1).set .rax 0
    have hkeeps : Keeps s s₁ := ((Keeps.setFlags s _).trans (.set (by simp) 1)).trans (.set (by simp) 0)
    have hrow : s.row place
        [regs .test .rax .rax, Assembly.binary .mov (.half .rdx) (.imm 1), Assembly.binary .mov (.half .rax) (.imm 0),
          regs .cmovz .rax .rdx] =
        some (if decide (s.regs .rax &&& s.regs .rax = 0) then s₁.set .rax 1 else s₁, none) := rfl
    rw [UInt64.and_self] at hrow
    refine ⟨_, hrow, ?_, ?_⟩
    · split
      · exact hkeeps.trans (.set (by simp) 1)
      · exact hkeeps
    · show _ = Word.ofBool (s.regs .rax = 0)
      unfold Word.ofBool
      split <;> rfl

theorem row_shift (s : Processor) (result : UInt64) (h : s.regs .rcx &&& 63 = 0 → result = s.regs .rax) :
    Keeps s (s.shift .rax (s.regs .rcx) result) ∧ result = (s.shift .rax (s.regs .rcx) result).regs .rax := by
  unfold Processor.shift
  split
  next hzero => exact ⟨.refl s, h hzero⟩
  · exact ⟨(Keeps.set (by simp) result).trans (.setFlags _ _), (regs_set_self s .rax result).symm⟩

variable (place) in
/-- Operations on two values, without the divisions. -/
theorem row_combine {op : Opcode} {apply : UInt64 → UInt64 → Option UInt64} (hl : combine? op = some ls)
    (ha : op.binary? = some apply) (hd : op ≠ .div) (hm : op ≠ .mod) (s : Processor) :
    ∃ s', s.row place ls = some (s', none) ∧ Keeps s s' ∧ apply (s.regs .rax) (s.regs .rcx) = some (s'.regs .rax) := by
  have hset : ∀ w flags, Keeps s ((s.set .rax w).setFlags flags) := fun w flags =>
    (Keeps.set (by simp) w).trans (.setFlags _ flags)
  have hcompare : ∀ {outcome condition}, Binary.condition? outcome = some condition → ∀ v,
      condition (.ofSub (s.regs .rax) (s.regs .rcx)) = v →
      ∃ s', s.row place (compare outcome) = some (s', none) ∧ Keeps s s' ∧ some (Word.ofBool v) = some (s'.regs .rax) := by
    rintro outcome condition hc v rfl
    obtain ⟨s', hrow, hkeeps, hrax⟩ := row_compare hc s
    exact ⟨s', hrow, hkeeps, congrArg some hrax.symm⟩
  cases op <;> cases hl <;> cases ha
  case add | sub | mul | bitAnd | bitOr | bitXor => exact ⟨_, rfl, hset _ _, rfl⟩
  case div => exact absurd rfl hd
  case mod => exact absurd rfl hm
  case shiftLeft =>
    have hshift := row_shift s (s.regs .rax <<< (s.regs .rcx &&& 63)) fun h => by rw [h, UInt64.shiftLeft_zero]
    exact ⟨_, rfl, hshift.1, congrArg some hshift.2⟩
  case shiftRight =>
    have hshift := row_shift s (s.regs .rax >>> (s.regs .rcx &&& 63)) fun h => by rw [h, UInt64.shiftRight_zero]
    exact ⟨_, rfl, hshift.1, congrArg some hshift.2⟩
  case cmpEq => exact hcompare rfl _ (ofSub_zero _ _)
  case cmpNeq => exact hcompare rfl _ (by rw [ofSub_zero, ← decide_not])
  case cmpLt => exact hcompare rfl _ (ofSub_less _ _)
  case cmpGt => exact hcompare rfl _ (by rw [ofSub_zero, ofSub_not_less, less_swap (s.regs .rax)])
  case cmpLte => exact hcompare rfl _ (by rw [ofSub_zero, ofSub_less, lessEq_eq, less_swap (s.regs .rax), Bool.not_and, Bool.not_not, Bool.not_not])
  case cmpGte => exact hcompare rfl _ (by rw [ofSub_not_less, lessEq_eq])

/-! ## Instructions -/

/-- The instructions whose lines neither leave the function nor divide, nor need a symbol that is not among the data. -/
def inline (i : Instr) : Bool :=
  match i.op, i.operand with
  | .div, _ | .mod, _ | .call, _ | .ret, _ | .brk, _ | .setupGlobal, _ | .pushGea, .label _ => false
  | .alloc, .unsigned n | .free, .unsigned n => n ≤ pageSize
  | _, _ => true

variable {p : Program} {f : Function} {frame : Frame} {i : Instr}

/-- Pops the first operand. -/
theorem simulates_popRax (g : Function) (i : Instr) :
    Simulates place n (fun _ => True) (popTo .rax) (Machine.pop g i) n fun v s => s.regs .rax = v ∧ True :=
  simulates_pop g i (r := .rax) (by simp) fun _ _ _ h => h

/-- Pops the second operand. -/
theorem simulates_popRcx (g : Function) (i : Instr) (v : UInt64) :
    Simulates place n (fun s => s.regs .rax = v ∧ True) (popTo .rcx) (Machine.pop g i) n
      fun w s => s.regs .rcx = w ∧ s.regs .rax = v ∧ True :=
  simulates_pop g i (r := .rcx) (by simp) fun _ _ ha h => ⟨(ha .rax (by simp)).trans h.1, trivial⟩

theorem simulates_change {apply : UInt64 → UInt64} (hn : n < operandStackWords)
    (hl : change? i.op = some ls) (ha : i.op.unary? = some apply) :
    Simulates place n (fun _ => True) (popTo .rax ++ ls ++ pushRax)
      (do Machine.push (apply (← Machine.pop frame.function i)); return Machine.Next.frame frame) (n + 1)
      fun next _ => next = .frame frame := by
  rw [List.append_assoc]
  refine (simulates_popRax _ _).bind fun v => simulates_value hn fun m s _ hs => ?_
  rw [← hs.1]
  exact row_change place hl ha s

theorem simulates_combine {apply : UInt64 → UInt64 → Option UInt64} (hn : n < operandStackWords)
    (hl : combine? i.op = some ls) (ha : i.op.binary? = some apply) (hd : i.op ≠ .div) (hm : i.op ≠ .mod) :
    Simulates place n (fun _ => True) (instrLines p f i) (Machine.exec frame i) (n + 1) fun next _ => next = .frame frame := by
  have hlines : instrLines p f i = popTo .rax ++ popTo .rcx ++ ls ++ pushRax := by
    obtain ⟨⟨op, operand, span⟩, index⟩ := i
    cases op <;> cases hl <;> rfl
  have hexec : Machine.exec frame i = (do
      let left ← Machine.pop frame.function i
      let right ← Machine.pop frame.function i
      (apply left right).elim (throw (.divisionByZero frame.function.name i.index)) fun v => do
        Machine.push v
        return Machine.Next.frame frame) := by
    obtain ⟨⟨op, operand, span⟩, index⟩ := i
    cases op <;> cases ha <;> first | rfl | exact absurd rfl hd | exact absurd rfl hm
  rw [hlines, hexec]
  rw [List.append_assoc, List.append_assoc]
  refine (simulates_popRax _ _).bind fun v => (simulates_popRcx _ _ v).bind fun w => ?_
  cases happly : apply v w with
  | none => exact .throw
  | some r =>
    refine simulates_value hn fun m s _ hs => ?_
    obtain ⟨s', hrow, hkeeps, hrax⟩ := row_combine place hl ha hd hm s
    rw [hs.1, hs.2.1, happly] at hrax
    exact ⟨s', hrow, hkeeps, (Option.some.inj hrax).symm⟩

/-- A value that one operation puts into `rax`. -/
theorem simulates_single {o : Op} (hn : n < operandStackWords)
    (h : ∀ s, P s → s.exec place o = some (s.set .rax v, none)) :
    Simulates place n P (.op o :: pushRax) (do Machine.push v; return Machine.Next.frame frame) (n + 1)
      fun next _ => next = .frame frame := by
  rw [← List.singleton_append]
  refine simulates_value hn fun m s _ hp => ⟨s.set .rax v, ?_, .set (by simp) v, regs_set_self ..⟩
  rw [row_single, h s hp]

/-- A value that is read from the memory of the machine. -/
theorem simulates_read {a : Address} (hn : n < operandStackWords) (ha : ∀ s, P s → s.address place a = w) :
    Simulates place n P (Assembly.binary .mov (.reg .rax) (.mem a) :: pushRax)
      (do Machine.push (← Machine.load w); return Machine.Next.frame frame) (n + 1) fun next _ => next = .frame frame := by
  rw [← List.singleton_append]
  exact (simulates_load ha).bind fun v => (simulates_push hn fun _ h => h).finish fun _ => rfl

/-- A value that is dropped. -/
theorem simulates_drop (g : Function) (i : Instr) :
    Simulates place n P [Assembly.unary .dec .r14] (Machine.pop g i) n fun _ _ => True := by
  intro m s hm hle _ v m' heq
  obtain ⟨rest, hs, rfl⟩ := pop_ok heq
  refine ⟨_, rfl, (hm.pop hs).1.keeps (.setFlags _ _), ?_, trivial⟩
  rw [hs] at hle
  exact Nat.le_of_succ_le hle

theorem ofInt_toNat (v : UInt64) : UInt64.ofInt v.toNat = v := by
  have hv : ((v.toNat : Int) % 2 ^ 64).toNat = v.toNat := by
    have := v.toNat_lt
    omega
  rw [UInt64.ofInt, hv, UInt64.ofNat_toNat]

/-- The lines of an instruction that does not jump do what it does. -/
theorem simulates_exec (hplace : place "globals" = Memory.base) (hi : inline i = true) (hj : i.op.isJump = false)
    (hn : n < operandStackWords) :
    Simulates place n (fun _ => True) (instrLines p f i) (Machine.exec frame i) (n + 1) fun next _ => next = .frame frame := by
  have hle := Nat.le_succ n
  obtain ⟨⟨op, operand, span⟩, index⟩ := i
  cases op
  case nop =>
    intro m s hm hle _ _ _ heq
    cases heq
    exact ⟨s, rfl, hm, Nat.le_succ_of_le hle, rfl⟩
  case pushSign =>
    cases operand with
    | signed v => exact simulates_single hn fun _ _ => rfl
    | _ => exact .throw
  case pushUnsign =>
    cases operand with
    | unsigned v =>
      refine simulates_single hn fun s _ => ?_
      split
      · exact congrArg (fun w => some (s.set .rax w, none)) (ofInt_toNat v)
      · rfl
    | _ => exact .throw
  case pushStack =>
    cases operand with
    | unsigned o => exact .get fun m => simulates_read hn fun s hs => congrArg (· - o) hs.2.1
    | _ => exact .throw
  case pushGlobal =>
    cases operand with
    | unsigned o => exact simulates_read hn fun s _ => congrArg (· + o) hplace
    | _ => exact .throw
  case pushGea =>
    cases operand with
    | unsigned o => exact simulates_single hn fun s _ => congrArg (fun w => some (s.set .rax (w + o), none)) hplace
    | label name => cases hi
    | _ => exact .throw
  case pushSea =>
    cases operand with
    | unsigned o => exact .get fun m => simulates_single hn fun s hs => hs.2.1 ▸ rfl
    | _ => exact .throw
  case pop => exact .mono ((simulates_drop _ _).finish fun _ => rfl) hle
  case clone => exact simulates_clone _ _ _ hn
  case framePush =>
    refine .mono (.get fun m => ?_) hle
    refine (simulates_pushNative (Nat.le_of_lt hn) fun _ hs => hs.2.1).bind fun _ => .get fun m' => ?_
    exact (simulates_setRbp fun _ hs => hs.2.2).finish fun _ => rfl
  case framePop =>
    refine .mono (.get fun m => ?_) hle
    refine (simulates_setRsp fun s hs => ⟨s.flags, ?_⟩).bind fun _ => simulates_popNative frame
    rw [← hs.2.1]
    rfl
  case alloc =>
    cases operand with
    | unsigned k =>
      refine .mono ?_ hle
      have hk : ¬k > pageSize := UInt64.not_lt.mpr (of_decide_eq_true hi)
      simp only [instrLines, if_neg hk]
      refine (simulates_growStack k).bind fun w => (simulates_setRsp fun s hs => ?_).finish fun _ => rfl
      have hw : w = s.regs .rsp - UInt64.ofInt k.toNat := by rw [hs, ofInt_toNat]
      rw [hw]
      exact ⟨_, rfl⟩
    | _ => exact .throw
  case free =>
    cases operand with
    | unsigned k =>
      refine .mono (.get fun m => ?_) hle
      split
      · refine (simulates_setRsp fun s hs => ?_).finish fun _ => rfl
        have hw : m.rsp + k = s.regs .rsp + UInt64.ofInt k.toNat := by rw [hs.2.2, ofInt_toNat]
        rw [hw]
        exact ⟨_, rfl⟩
      · exact .throw
    | _ => exact .throw
  case load =>
    refine (simulates_popRax _ _).bind fun a => ?_
    exact simulates_read hn fun _ hs => hs.1
  case store =>
    refine .mono ((simulates_popRax _ _).bind fun a => (simulates_popRcx _ _ a).bind fun v => ?_) hle
    exact (simulates_store (Nat.le_of_lt hn) (fun _ hs => hs.1) fun _ hs => hs.2.1).finish fun _ => rfl
  case neg | bitNot | logNot => exact simulates_change hn rfl rfl
  case add | sub | mul | bitAnd | bitOr | bitXor | shiftLeft | shiftRight | cmpEq | cmpNeq | cmpLt | cmpGt | cmpLte | cmpGte =>
    exact simulates_combine hn rfl rfl nofun nofun
  case invalid => exact .throw
  case call | div | mod | ret | brk | setupGlobal => cases hi
  case jump | jumpIf | jumpIfNot => cases hj

/-! ## Jumps -/

theorem jump_ok {next : Machine.Next} (h : Machine.exec.jump frame i m = .ok next m') :
    ∃ t, frame.function.jumpTarget? i.index = some t ∧ t ≤ frame.function.length ∧
      next = .frame { frame with pc := t } ∧ m' = m := by
  unfold Machine.exec.jump at h
  cases ht : frame.function.jumpTarget? i.index with
  | none =>
    rw [ht] at h
    cases h
  | some t =>
    rw [ht] at h
    dsimp only at h
    split at h
    next hle =>
      cases h
      exact ⟨t, rfl, hle, rfl, rfl⟩
    · cases h

theorem jumpLines_eq (op : Transfer) (lead : List Line) (ht : f.jumpTarget? i.index = some t) (htf : t ≤ f.length) :
    jumpLines f i op lead = lead ++ [transfer op (indexLabel t)] := by
  simp only [jumpLines, ht, Option.filter, decide_eq_true htf, if_true]

/-- A condition that is popped is in the flags. -/
theorem simulates_testTop (g : Function) (i : Instr) :
    Simulates place n (fun _ => True) testTop (Machine.pop g i) n fun v s => s.flags = some (.ofBits v) := by
  intro m s hm hle hp v m' heq
  obtain ⟨s', hrow, hm', hle', hrax, -⟩ := simulates_popRax g i m s hm hle hp v m' heq
  refine ⟨_, row_append hrow rfl, hm'.keeps (.setFlags _ _), hle', ?_⟩
  show some (Flags.ofBits (s'.regs .rax &&& s'.regs .rax)) = _
  rw [hrax, UInt64.and_self]

end

section

variable {place : String → UInt64} {p : Program} {f : Function} {i : Instr} {m m' : Machine} {s : Processor} {k : Nat}
  {next : Machine.Next}

/-- Where the lines of an instruction lead: to the line behind them, or to the label of the target of a jump. -/
def LeadsTo (f : Function) (k : Nat) (l : Option String) (pc : Nat) : Prop :=
  l = none ∧ pc = k ∨ l = some (indexLabel pc) ∧ pc ≤ f.length

/-- A conditional jump goes to its target if the flags say so. -/
theorem row_branch {op : Transfer} (taken : UInt64 → Prop) [DecidablePred taken]
    (hop : ∀ s : Processor, ∀ v l, s.flags = some (.ofBits v) →
      s.exec place (.transfer op l) = some (s, if taken v then some l else none))
    (ht : f.jumpTarget? i.index = some t) (htf : t ≤ f.length) (hm : Mirrors m s)
    (h : (do if taken (← Machine.pop f i) then Machine.exec.jump ⟨f, k⟩ i else return .frame ⟨f, k⟩ : Machine.Exec Machine.Next) m =
      .ok next m') :
    ∃ s' l pc, s.row place (jumpLines f i op testTop) = some (s', l) ∧ Mirrors m' s' ∧ next = .frame ⟨f, pc⟩ ∧
      LeadsTo f k l pc := by
  obtain ⟨v, m₁, hpop, hrest⟩ := ok_of_bind h
  obtain ⟨s', hrow, hm', -, hflags⟩ := simulates_testTop f i m s hm (Nat.le_refl _) trivial v m₁ hpop
  have hexec := hop s' v (indexLabel t) hflags
  have hrow : s.row place (jumpLines f i op testTop) = some (s', if taken v then some (indexLabel t) else none) := by
    rw [jumpLines_eq op testTop ht htf]
    exact row_append hrow ((row_single ..).trans hexec)
  split at hrest
  next htaken =>
    rw [if_pos htaken] at hrow
    obtain ⟨t', ht', hle, rfl, rfl⟩ := jump_ok hrest
    rw [ht] at ht'
    cases ht'
    exact ⟨s', _, t, hrow, hm', rfl, .inr ⟨rfl, htf⟩⟩
  next htaken =>
    rw [if_neg htaken] at hrow
    cases hrest
    exact ⟨s', _, k, hrow, hm', rfl, .inl ⟨rfl, rfl⟩⟩

/-- The lines of an instruction lead from a mirror of the machine to a mirror of the machine after it. -/
theorem row_instrLines (hplace : place "globals" = Memory.base) (hi : inline i = true)
    (ht : i.op.isJump = true → ∃ t, f.jumpTarget? i.index = some t ∧ t ≤ f.length) (hm : Mirrors m s)
    (hd : m.stack.length < operandStackWords) (h : Machine.exec ⟨f, k⟩ i m = .ok next m') :
    ∃ s' l pc, s.row place (instrLines p f i) = some (s', l) ∧ Mirrors m' s' ∧ next = .frame ⟨f, pc⟩ ∧ LeadsTo f k l pc := by
  cases hj : i.op.isJump with
  | false =>
    obtain ⟨s', hrow, hm', -, hnext⟩ := simulates_exec hplace hi hj hd m s hm (Nat.le_refl _) trivial next m' h
    exact ⟨s', none, k, hrow, hm', hnext, .inl ⟨rfl, rfl⟩⟩
  | true =>
    obtain ⟨t, ht, htf⟩ := ht hj
    obtain ⟨⟨op, operand, span⟩, index⟩ := i
    cases op
    case jump =>
      obtain ⟨t', ht', -, rfl, rfl⟩ := jump_ok h
      rw [ht] at ht'
      cases ht'
      refine ⟨s, some (indexLabel t), t, ?_, hm, rfl, .inr ⟨rfl, htf⟩⟩
      show s.row place (jumpLines _ _ _ _) = _
      rw [jumpLines_eq .jmp [] ht htf]
      rfl
    case jumpIf =>
      refine row_branch (· ≠ 0) (fun s v l hs => ?_) ht htf hm h
      show s.flags.map _ = _
      rw [hs]
      by_cases hv : v = 0 <;> simp [Flags.ofBits, Flags.ofResult, hv]
    case jumpIfNot =>
      refine row_branch (· = 0) (fun s v l hs => ?_) ht htf hm h
      show s.flags.map _ = _
      rw [hs]
      by_cases hv : v = 0 <;> simp [Flags.ofBits, Flags.ofResult, hv]

    all_goals cases hj

/-! ## Functions -/

/-- The code of a function holds the lines of an instruction between its label and that of the next one. -/
theorem functionLines_at (p : Program) (label : String) (hindex : ∀ (j : Nat) (i : Instr), f.code[j]? = some i → i.index = j)
    (hi : f.code[k]? = some i) : ∃ front back, functionLines p label f =
      front ++ .label (indexLabel k) :: (instrLines p f i ++ .label (indexLabel (k + 1)) :: back) := by
  have hlt : k < f.code.toList.length := (Array.getElem?_eq_some_iff.mp hi).1
  have hsplit : f.code.toList = f.code.toList.take k ++ i :: f.code.toList.drop (k + 1) := by
    have hget : f.code.toList[k] = i := (Array.getElem?_eq_some_iff.mp hi).2
    rw [← hget, List.getElem_cons_drop, List.take_append_drop]
  have hrest : ∃ back, (f.code.toList.drop (k + 1)).flatMap (fun i => .label (indexLabel i.index) :: instrLines p f i) ++
      [.label (indexLabel f.length), plain .ret, .blank] = .label (indexLabel (k + 1)) :: back := by
    cases hdrop : f.code.toList.drop (k + 1) with
    | nil =>
      have hlen : f.length = k + 1 := by
        have := List.drop_eq_nil_iff.mp hdrop
        rw [Array.length_toList] at this hlt
        exact Nat.le_antisymm this hlt
      rw [hlen]
      exact ⟨_, rfl⟩
    | cons j rest =>
      have hj : f.code[k + 1]? = some j := by
        rw [← Array.getElem?_toList, ← List.head?_drop, hdrop]
        rfl
      rw [List.flatMap_cons, hindex _ j hj]
      exact ⟨_, rfl⟩
  obtain ⟨back, hback⟩ := hrest
  refine ⟨[.comment f.name, .label label] ++
    (f.code.toList.take k).flatMap (fun i => .label (indexLabel i.index) :: instrLines p f i), back, ?_⟩
  rw [← hback, functionLines]
  conv => lhs; rw [hsplit]
  rw [List.flatMap_append, List.flatMap_cons, hindex k i hi]
  simp only [List.append_assoc, List.cons_append, List.nil_append]

/-- The end of the code has a label too, to which a jump may lead. -/
theorem label_mem_functionLines (p : Program) (label : String)
    (hindex : ∀ (j : Nat) (i : Instr), f.code[j]? = some i → i.index = j) (ht : t ≤ f.length) :
    .label (indexLabel t) ∈ functionLines p label f := by
  rcases Nat.lt_or_eq_of_le ht with hlt | rfl
  · obtain ⟨front, back, heq⟩ := functionLines_at p label hindex (Array.getElem?_eq_getElem hlt)
    rw [heq]
    simp
  · simp [functionLines]

/-- The line on which the label of an instruction stands; no other line of the code has it. -/
def StandsAt (lines : List Line) (n pc : Nat) : Prop :=
  ∀ n', lines[n']? = some (.label (indexLabel pc)) ↔ n' = n

end

/-- A jump over the instruction behind it. -/
def leaving : Instr := ⟨{ op := .jumpIf, operand := .signed 1, span := default }, 0⟩

def leave : Function := { name := "leave", code := #[leaving, ⟨{ op := .nop, span := default }, 1⟩] }

/-- A machine with one word of memory and a condition on its operand stack. -/
def waiting : Machine :=
  { program := {}, memory := ⟨Array.replicate 8 7⟩, strings := [], stackLimit := Memory.base, stackTop := Memory.base + 8,
    rsp := Memory.base + 8, rbp := Memory.base, stack := [1], fuel := 0 }

def waitingProcessor : Processor where
  regs
    | .rsp => Memory.base + 8
    | .rbp => Memory.base
    | .r14 => 1
    | .r15 => 0x100000
    | _ => 0
  flags := none
  memory a := if a = 0x100000 then 1 else if a < 0x100000 then 7 else 0

theorem mirrors_waiting : Mirrors waiting waitingProcessor where
  rbp := rfl
  rsp := rfl
  height := rfl
  operands
    | 0, v, hv => by
      cases hv
      rfl
    | _ + 1, _, hv => by cases hv
  data o b hb := by
    have hb : (Array.replicate 8 (7 : UInt8))[o]? = some b := hb
    rw [Array.getElem?_replicate] at hb
    have hall : ∀ o < 8, waitingProcessor.memory (Memory.base + o.toUInt64) = 7 := by decide
    split at hb
    next ho => rw [hall o ho, Option.some.inj hb]
    · cases hb
  room := by decide
  apart k o hk ho heq := by
    have hk : k < 8 * 65536 := hk
    have ho : o < 8 := ho
    have heq := congrArg UInt64.toNat heq
    have h₁ : (waitingProcessor.regs .r15).toNat = 0x100000 := rfl
    have h₂ : Memory.base.toNat = 0x1000 := rfl
    rw [UInt64.toNat_add, UInt64.toNat_add, toNat_toUInt64, toNat_toUInt64, h₁, h₂] at heq
    omega

end Wordstack.Assembly
