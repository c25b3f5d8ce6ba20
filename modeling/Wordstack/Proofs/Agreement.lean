/-
Stores and memory. The variables of blocks lie in the frame, the globals in front of the
stack. Since no two of them overlap, a write to one of them changes no other, and what a
callee does below the stack pointer changes none at all.
-/
import Wordstack.Proofs.Evaluation

namespace Wordstack

open Machine

variable {env : Env} {i : Nat} {locals : List (NameTable UInt64)} {v : UInt64} {x : String}

/-! ## Names in blocks -/

/-- The member at position `i` of a list is the first one that `k` has an answer for. -/
def FirstAt {α β : Type} (k : α → Option β) (l : List α) (i : Nat) (b : β) : Prop :=
  (l[i]?).bind k = some b ∧ ∀ j < i, (l[j]?).bind k = none

theorem findSome?_eq_some_iff {α β : Type} {k : α → Option β} {l : List α} {b : β} :
    l.findSome? k = some b ↔ ∃ i, FirstAt k l i b := by
  induction l with
  | nil => simp [FirstAt]
  | cons a l ih =>
    rw [List.findSome?_cons]
    cases ha : k a with
    | some c =>
      constructor
      · intro h
        exact ⟨0, by simpa [ha] using h, fun j hj => absurd hj (Nat.not_lt_zero j)⟩
      · rintro ⟨i, hi, hlt⟩
        cases i with
        | zero => simpa [ha] using hi
        | succ i => simpa [ha] using hlt 0 (Nat.succ_pos i)
    | none =>
      rw [ih]
      constructor
      · rintro ⟨i, hi, hlt⟩
        refine ⟨i + 1, by simpa using hi, fun j hj => ?_⟩
        cases j with
        | zero => simpa using ha
        | succ j => simpa using hlt j (Nat.lt_of_succ_lt_succ hj)
      · rintro ⟨i, hi, hlt⟩
        cases i with
        | zero => simp [ha] at hi
        | succ i =>
          refine ⟨i, by simpa using hi, fun j hj => ?_⟩
          simpa using hlt (j + 1) (Nat.succ_lt_succ hj)

/-- What a name stands for in the block at position `i`, counted from the innermost one. -/
def blockGet? {α : Type} (blocks : List (NameTable α)) (i : Nat) (x : String) : Option α :=
  (blocks[i]?).bind (NameTable.get? x)

section

variable {α : Type} {blocks : List (NameTable α)} {x : String}

theorem findSome?_eq_none_iff : blocks.findSome? (NameTable.get? x) = none ↔ ∀ i, blockGet? blocks i x = none := by
  rw [List.findSome?_eq_none_iff]
  constructor
  · intro h i
    unfold blockGet?
    cases hi : blocks[i]? with
    | none => rfl
    | some block => exact h block (List.mem_of_getElem? hi)
  · intro h block hb
    obtain ⟨i, hi, rfl⟩ := List.getElem_of_mem hb
    simpa [blockGet?, List.getElem?_eq_getElem hi] using h i

theorem blockGet?_cons_succ {α : Type} (block : NameTable α) (blocks : List (NameTable α)) (i : Nat) (x : String) :
    blockGet? (block :: blocks) (i + 1) x = blockGet? blocks i x := rfl

theorem blockGet?_set {α : Type} (block : NameTable α) (blocks : List (NameTable α)) (name : String) (a : α) (i : Nat)
    (x : String) : blockGet? (block.set name a :: blocks) i x =
      if i = 0 ∧ name = x then some a else blockGet? (block :: blocks) i x := by
  cases i with
  | zero => simp [blockGet?]
  | succ i => simp [blockGet?]

theorem blockGet?_tail {α : Type} (blocks : List (NameTable α)) (i : Nat) (x : String) :
    blockGet? blocks.tail i x = blockGet? blocks (i + 1) x := by
  cases blocks <;> rfl

end

/-- A variable that is assigned to is the innermost one of its name, and no other changes. -/
theorem Store.of_assign {locals' : List (NameTable UInt64)} (h : Store.assign x v locals = some locals') :
    ∃ i w, blockGet? locals i x = some w ∧ (∀ j < i, blockGet? locals j x = none) ∧ locals'.length = locals.length ∧
      ∀ j y, blockGet? locals' j y = if j = i ∧ y = x then some v else blockGet? locals j y := by
  induction locals generalizing locals' with
  | nil => cases h
  | cons block locals ih =>
    unfold Store.assign at h
    split at h
    next hsome =>
      cases h
      obtain ⟨w, hw⟩ := Option.isSome_iff_exists.mp hsome
      refine ⟨0, w, by simpa [blockGet?] using hw, fun j hj => absurd hj (Nat.not_lt_zero j), rfl, fun j y => ?_⟩
      cases j with
      | zero => simp [blockGet?, eq_comm]
      | succ j => simp [blockGet?]
    next hnone =>
      obtain ⟨rest, hrest, rfl⟩ := Option.map_eq_some_iff.mp h
      obtain ⟨i, w, hw, hlt, hlen, hall⟩ := ih hrest
      refine ⟨i + 1, w, hw, fun j hj => ?_, by simp [hlen], fun j y => ?_⟩
      · cases j with
        | zero => simpa [blockGet?] using hnone
        | succ j => exact hlt j (Nat.lt_of_succ_lt_succ hj)
      · cases j with
        | zero => simp [blockGet?]
        | succ j => simpa [blockGet?_cons_succ] using hall j y

theorem Store.assign_eq_none (h : Store.assign x v locals = none) : ∀ i, blockGet? locals i x = none := by
  induction locals with
  | nil => exact fun i => by simp [blockGet?]
  | cons block locals ih =>
    unfold Store.assign at h
    split at h
    · cases h
    next hnone =>
      intro i
      cases i with
      | zero => simpa [blockGet?] using hnone
      | succ i => exact ih (Option.map_eq_none_iff.mp h) i

theorem Env.lookup?_eq (h : env.excluded ≠ some x) :
    env.lookup? x = (env.blocks.findSome? (NameTable.get? x)).or (env.globals.get? x) := by
  unfold Env.lookup? Env.meanings
  rw [if_neg h, List.head?_append, List.head?_filterMap]
  cases env.globals.get? x <;> rfl

/-! ## Where variables lie -/

/-- How memory is divided: the globals come first, then the part that is left for the stack, and above `rsp`
the frames, the innermost of which has `depth` bytes in use. -/
structure Machine.Ground (size depth : Nat) (m : Machine) : Prop where
  top : Memory.base.toNat + m.memory.bytes.size = m.stackTop.toNat
  statics : Memory.base.toNat + size ≤ m.stackLimit.toNat
  limit : m.stackLimit.toNat ≤ m.rsp.toNat
  frame : m.rsp.toNat + depth ≤ m.rbp.toNat
  base : m.rbp.toNat ≤ m.stackTop.toNat

/-- The globals lie side by side in the first `size` bytes. -/
structure StaticsOK (globals : NameTable SymbolInfo) (size : Nat) : Prop where
  within : ∀ x s o, globals.get? x = some s → s.KeptAt (.static o) → o + 8 ≤ size
  apart : ∀ x y s t o p, x ≠ y → globals.get? x = some s → globals.get? y = some t → s.KeptAt (.static o) →
    t.KeptAt (.static p) → o + 8 ≤ p ∨ p + 8 ≤ o

theorem toNat_toUInt64_of_le {n k : Nat} (h : n ≤ k) (hk : k < UInt64.size) : n.toUInt64.toNat = n :=
  UInt64.toNat_ofNat_of_lt' (Nat.lt_of_le_of_lt h hk)

section

variable {size depth o p : Nat} {m : Machine}

theorem Machine.Ground.local_address (h : m.Ground size depth) (h8 : 8 ≤ o) (ho : o ≤ depth) :
    (Storage.address m.rbp (.stack o)).toNat = m.rbp.toNat - o ∧ m.memory.InRange (Storage.address m.rbp (.stack o)) := by
  obtain ⟨htop, hstatics, hlimit, hframe, hbase⟩ := h
  have hto := toNat_toUInt64_of_le (n := o) (k := m.rbp.toNat) (by omega) m.rbp.toNat_lt
  have haddr : (Storage.address m.rbp (.stack o)).toNat = m.rbp.toNat - o := by
    show (m.rbp - o.toUInt64).toNat = _
    rw [UInt64.toNat_sub_of_le _ _ (UInt64.le_iff_toNat_le.mpr (by omega)), hto]
  refine ⟨haddr, ?_, ?_⟩
  · omega
  · omega

theorem Machine.Ground.static_address (h : m.Ground size depth) (ho : o + 8 ≤ size) :
    (Storage.address m.rbp (.static o)).toNat = Memory.base.toNat + o ∧
      m.memory.InRange (Storage.address m.rbp (.static o)) := by
  obtain ⟨htop, hstatics, hlimit, hframe, hbase⟩ := h
  have hlt := m.stackLimit.toNat_lt
  have hto := toNat_toUInt64_of_le (n := o) (k := m.stackLimit.toNat) (by omega) hlt
  have haddr : (Storage.address m.rbp (.static o)).toNat = Memory.base.toNat + o := by
    show (Memory.base + o.toUInt64).toNat = _
    rw [UInt64.toNat_add, hto, Nat.mod_eq_of_lt (by omega)]
  refine ⟨haddr, ?_, ?_⟩
  · omega
  · omega

theorem Env.slot?_eq (env : Env) (i : Nat) (x : String) :
    env.slot? i x = (blockGet? env.blocks i x).bind SymbolInfo.slot? := by
  unfold Env.slot? blockGet?
  cases env.blocks[i]? <;> rfl

theorem Env.FrameOK.slot_of_kept (h : env.FrameOK) {s : SymbolInfo}
    (hs : blockGet? env.blocks i x = some s) (hk : s.KeptAt (.stack o)) :
    ∃ n, env.slot? i x = some ⟨o, n⟩ ∧ 8 ≤ n ∧ n ≤ o ∧ o ≤ env.depth := by
  have hslot : env.slot? i x = some ⟨o, (s.type?.map Ty.size).getD Ty.slotSize⟩ := by
    rw [Env.slot?_eq, hs]
    simp [SymbolInfo.slot?, hk.storage]
  obtain ⟨h1, h2, h3⟩ := h.within i x _ hslot
  exact ⟨_, hslot, h1, h2, h3⟩

/-- Two variables of blocks do not overlap. -/
theorem Env.FrameOK.addresses_apart (h : env.FrameOK) (hg : m.Ground size env.depth) {j : Nat}
    {y : String} {s t : SymbolInfo} (hs : blockGet? env.blocks i x = some s) (hk : s.KeptAt (.stack o))
    (ht : blockGet? env.blocks j y = some t) (hl : t.KeptAt (.stack p)) (hne : (i, x) ≠ (j, y)) :
    (Storage.address m.rbp (.stack o)).toNat + 8 ≤ (Storage.address m.rbp (.stack p)).toNat ∨
      (Storage.address m.rbp (.stack p)).toNat + 8 ≤ (Storage.address m.rbp (.stack o)).toNat := by
  obtain ⟨a, ha, ha8, hao, hod⟩ := h.slot_of_kept hs hk
  obtain ⟨b, hb, hb8, hbp, hpd⟩ := h.slot_of_kept ht hl
  have hle := (h.apart i x j y _ _ ha hb hne).le (by simp only []; omega) (by simp only []; omega)
  rw [(hg.local_address (by omega) hod).1, (hg.local_address (by omega) hpd).1]
  have := hg.frame
  simp only [] at hle
  omega

/-- A variable of a block does not overlap a global. -/
theorem Machine.Ground.static_below (h : m.Ground size depth) (ho : o + 8 ≤ size) (h8 : 8 ≤ p) (hp : p ≤ depth) :
    (Storage.address m.rbp (.static o)).toNat + 8 ≤ (Storage.address m.rbp (.stack p)).toNat := by
  rw [(h.local_address h8 hp).1, (h.static_address ho).1]
  obtain ⟨htop, hstatics, hlimit, hframe, hbase⟩ := h
  omega

end

/-! ## Machines that agree with stores -/

/-- The globals and the output are those of `world`. -/
structure WorldAgrees (globals : NameTable SymbolInfo) (world : World) (m : Machine) : Prop where
  values : ∀ x v, world.globals.get? x = some v → ∃ s o, globals.get? x = some s ∧ s.KeptAt (.static o) ∧
    m.memory.load? (Storage.address m.rbp (.static o)) = some v
  output : m.output = world.output

/-- The variables of blocks are those of a store. -/
structure BlocksAgree (blocks : List (NameTable SymbolInfo)) (locals : List (NameTable UInt64)) (m : Machine) :
    Prop where
  length : locals.length = blocks.length
  absent : ∀ i x, blockGet? locals i x = none → blockGet? blocks i x = none
  values : ∀ i x v, blockGet? locals i x = some v → ∃ s o, blockGet? blocks i x = some s ∧ s.KeptAt (.stack o) ∧
    m.memory.load? (Storage.address m.rbp (.stack o)) = some v

section

variable {globals : NameTable SymbolInfo} {blocks : List (NameTable SymbolInfo)} {world : World}
  {locals : List (NameTable UInt64)} {m m' : Machine}

theorem WorldAgrees.of_loads (h : WorldAgrees globals world m) (hout : m'.output = m.output)
    (hload : ∀ x s o, globals.get? x = some s → s.KeptAt (.static o) →
      m'.memory.load? (Storage.address m'.rbp (.static o)) = m.memory.load? (Storage.address m.rbp (.static o))) :
    WorldAgrees globals world m' := by
  refine ⟨fun x v hv => ?_, hout.trans h.output⟩
  obtain ⟨s, o, hs, hk, hl⟩ := h.values x v hv
  exact ⟨s, o, hs, hk, (hload x s o hs hk).trans hl⟩

theorem BlocksAgree.of_loads (h : BlocksAgree blocks locals m)
    (hload : ∀ i x s o, blockGet? blocks i x = some s → s.KeptAt (.stack o) →
      m'.memory.load? (Storage.address m'.rbp (.stack o)) = m.memory.load? (Storage.address m.rbp (.stack o))) :
    BlocksAgree blocks locals m' := by
  refine ⟨h.length, h.absent, fun i x v hv => ?_⟩
  obtain ⟨s, o, hs, hk, hl⟩ := h.values i x v hv
  exact ⟨s, o, hs, hk, (hload i x s o hs hk).trans hl⟩

/-- The innermost variable of a name is the same one on both sides. -/
theorem BlocksAgree.found (h : BlocksAgree blocks locals m)
    (hv : blockGet? locals i x = some v) (hlt : ∀ j < i, blockGet? locals j x = none) :
    ∃ s o, blocks.findSome? (NameTable.get? x) = some s ∧ blockGet? blocks i x = some s ∧ s.KeptAt (.stack o) ∧
      m.memory.load? (Storage.address m.rbp (.stack o)) = some v := by
  obtain ⟨s, o, hs, hk, hl⟩ := h.values i x v hv
  exact ⟨s, o, findSome?_eq_some_iff.mpr ⟨i, hs, fun j hj => h.absent j x (hlt j hj)⟩, hs, hk, hl⟩

theorem BlocksAgree.missed (h : BlocksAgree blocks locals m)
    (hx : ∀ i, blockGet? locals i x = none) : blocks.findSome? (NameTable.get? x) = none :=
  findSome?_eq_none_iff.mpr fun i => h.absent i x (hx i)

theorem BlocksAgree.tail (h : BlocksAgree blocks locals m) : BlocksAgree blocks.tail locals.tail m := by
  refine ⟨by simp [h.length], fun i x hx => ?_, fun i x v hv => ?_⟩
  · rw [blockGet?_tail] at hx ⊢
    exact h.absent (i + 1) x hx
  · rw [blockGet?_tail] at hv ⊢
    exact h.values (i + 1) x v hv

/-- A variable is entered into the innermost block on both sides. -/
theorem BlocksAgree.declare {block : NameTable SymbolInfo} {values : NameTable UInt64}
    (h : BlocksAgree (block :: blocks) (values :: locals) m) {name : String} {info : SymbolInfo} {o : Nat}
    (hk : info.KeptAt (.stack o)) {v : UInt64} (hnew : m'.memory.load? (Storage.address m'.rbp (.stack o)) = some v)
    (hold : ∀ i x s o, blockGet? (block :: blocks) i x = some s → s.KeptAt (.stack o) →
      m'.memory.load? (Storage.address m'.rbp (.stack o)) = m.memory.load? (Storage.address m.rbp (.stack o))) :
    BlocksAgree (block.set name info :: blocks) (values.set name v :: locals) m' := by
  refine ⟨h.length, fun i x hx => ?_, fun i x w hw => ?_⟩
  · rw [blockGet?_set] at hx ⊢
    split at hx
    · cases hx
    next hne =>
      rw [if_neg hne]
      exact h.absent i x hx
  · rw [blockGet?_set] at hw ⊢
    split at hw
    next heq =>
      obtain rfl : v = w := Option.some.inj hw
      rw [if_pos heq]
      exact ⟨info, o, rfl, hk, hnew⟩
    next hne =>
      rw [if_neg hne]
      obtain ⟨s, p, hs, hkp, hl⟩ := h.values i x w hw
      exact ⟨s, p, hs, hkp, (hold i x s p hs hkp).trans hl⟩

theorem BlocksAgree.openBlock (h : BlocksAgree blocks locals m) : BlocksAgree ([] :: blocks) ([] :: locals) m := by
  refine ⟨by simp [h.length], fun i x hx => ?_, fun i x v hv => ?_⟩
  · cases i with
    | zero => rfl
    | succ i => exact h.absent i x hx
  · cases i with
    | zero => cases hv
    | succ i => exact h.values i x v hv

end

/-! ## Frames in memory -/

/-- The frames are those of `m₀`, and memory is as it is there from the address `a` on. -/
structure Machine.Like (a : Nat) (m₀ m : Machine) : Prop where
  program : m.program = m₀.program
  stackLimit : m.stackLimit = m₀.stackLimit
  stackTop : m.stackTop = m₀.stackTop
  size : m.memory.bytes.size = m₀.memory.bytes.size
  rbp : m.rbp = m₀.rbp
  above : ∀ x : UInt64, a ≤ x.toNat → m.memory.load? x = m₀.memory.load? x

namespace Machine.Like

variable {a b : Nat} {m₀ m₁ m₂ : Machine}

theorem refl (a : Nat) (m : Machine) : m.Like a m := ⟨rfl, rfl, rfl, rfl, rfl, fun _ _ => rfl⟩

theorem trans (h₁ : m₀.Like a m₁) (h₂ : m₁.Like a m₂) : m₀.Like a m₂ where
  program := h₂.program.trans h₁.program
  stackLimit := h₂.stackLimit.trans h₁.stackLimit
  stackTop := h₂.stackTop.trans h₁.stackTop
  size := h₂.size.trans h₁.size
  rbp := h₂.rbp.trans h₁.rbp
  above x hx := (h₂.above x hx).trans (h₁.above x hx)

theorem mono (h : m₀.Like a m₁) (hab : a ≤ b) : m₀.Like b m₁ :=
  ⟨h.program, h.stackLimit, h.stackTop, h.size, h.rbp, fun x hx => h.above x (Nat.le_trans hab hx)⟩

theorem ground {size depth : Nat} (h : m₀.Like a m₁) (hrsp : m₁.rsp = m₀.rsp) (hg : m₀.Ground size depth) :
    m₁.Ground size depth := by
  obtain ⟨htop, hstatics, hlimit, hframe, hbase⟩ := hg
  refine ⟨?_, ?_, ?_, ?_, ?_⟩
  · rw [h.size, h.stackTop, htop]
  · rwa [h.stackLimit]
  · rwa [h.stackLimit, hrsp]
  · rwa [hrsp, h.rbp]
  · rwa [h.rbp, h.stackTop]

end Machine.Like

/-- The variables are those of `σ`; all else is as in `m₀`, as far as it lies above the frame. -/
structure Holding (m₀ : Machine) (env : Env) (σ : Store) (m : Machine) : Prop where
  like : m₀.Like m₀.rbp.toNat m
  rsp : m.rsp = m₀.rsp
  blocks : BlocksAgree env.blocks σ.locals m
  world : WorldAgrees env.globals σ.toWorld m

namespace Holding

variable {m₀ m : Machine} {env : Env} {σ σ' : Store} {size : Nat} {x : String} {v : UInt64} {hidden : Option String}

theorem read (h : Holding m₀ env σ m) (hv : σ.read hidden x = some v) :
    (hidden = some x → ∃ i w, blockGet? σ.locals i x = some w) ∧
      ∃ s o, (env.blocks.findSome? (NameTable.get? x)).or (env.globals.get? x) = some s ∧ s.KeptAt o ∧
        m.memory.load? (o.address m.rbp) = some v := by
  unfold Store.read at hv
  split at hv
  next w hw =>
    obtain ⟨i, hi, hlt⟩ := findSome?_eq_some_iff.mp hw
    obtain rfl : w = v := Option.some.inj hv
    obtain ⟨s, o, hs, -, hk, hl⟩ := h.blocks.found hi hlt
    exact ⟨fun _ => ⟨i, w, hi⟩, s, .stack o, by rw [hs]; rfl, hk, hl⟩
  next hnone =>
    split at hv
    · cases hv
    next hhid =>
      obtain ⟨s, o, hs, hk, hl⟩ := h.world.values x v hv
      rw [h.blocks.missed (findSome?_eq_none_iff.mp hnone)]
      exact ⟨fun h => absurd h hhid, s, .static o, hs, hk, hl⟩

/-- A word is written below the frame's base, and the frames are what they were. -/
theorem like_setWordAt {a : UInt64} (h : m₀.Like m₀.rbp.toNat m) (ha : m.memory.offset? a = some i)
    (hlt : a.toNat + 8 ≤ m.rbp.toNat) (v : UInt64) : m₀.Like m₀.rbp.toNat { m with memory := m.memory.setWordAt i v } := by
  refine ⟨h.program, h.stackLimit, h.stackTop, ?_, h.rbp, fun x hx => ?_⟩
  · rw [Memory.size_setWordAt, h.size]
  · rw [h.rbp] at hlt
    rw [← h.above x hx]
    exact Memory.load?_setWordAt_of_apart v ha (.inl (Nat.le_trans hlt hx))

theorem write_local (h : Holding m₀ env σ m) (hf : env.FrameOK) (hst : StaticsOK env.globals size)
    (hg : m₀.Ground size env.depth) (hw : Store.assign x v σ.locals = some locals) :
    ∃ s o i, env.blocks.findSome? (NameTable.get? x) = some s ∧ s.KeptAt o ∧ m.memory.offset? (o.address m.rbp) = some i ∧
        Holding m₀ env { σ with locals } { m with memory := m.memory.setWordAt i v } := by
  obtain ⟨k, w, hk, hlt, hlen, hall⟩ := Store.of_assign hw
  obtain ⟨s, o, hs, hks, hkept, -⟩ := h.blocks.found hk hlt
  obtain ⟨n, -, hn8, hno, hod⟩ := hf.slot_of_kept hks hkept
  have hg := h.like.ground h.rsp hg
  obtain ⟨haddr, hrange⟩ := hg.local_address (Nat.le_trans hn8 hno) hod
  have hoff := hrange.offset?
  have hbase := hg.frame
  refine ⟨s, .stack o, _, hs, hkept, hoff, like_setWordAt h.like hoff (by omega) v, h.rsp, ⟨?_, ?_, ?_⟩, ?_⟩
  · exact hlen.trans h.blocks.length
  · intro j y hy
    rw [hall] at hy
    split at hy
    · cases hy
    · exact h.blocks.absent j y hy
  · intro j y u hu
    rw [hall] at hu
    split at hu
    next heq =>
      obtain ⟨rfl, rfl⟩ := heq
      obtain rfl : v = u := Option.some.inj hu
      exact ⟨s, o, hks, hkept, Memory.load?_setWordAt_self v hoff⟩
    next hne =>
      obtain ⟨t, p, ht, hkt, hl⟩ := h.blocks.values j y u hu
      refine ⟨t, p, ht, hkt, (Memory.load?_setWordAt_of_apart v hoff ?_).trans hl⟩
      exact hf.addresses_apart hg hks hkept ht hkt fun heq => hne (by cases heq; exact ⟨rfl, rfl⟩)
  · refine h.world.of_loads rfl fun y t p ht hkt => ?_
    exact Memory.load?_setWordAt_of_apart v hoff
      (.inr (hg.static_below (hst.within y t p ht hkt) (Nat.le_trans hn8 hno) hod))

theorem write_global (h : Holding m₀ env σ m) (hf : env.FrameOK) (hst : StaticsOK env.globals size)
    (hg : m₀.Ground size env.depth) {w : UInt64} (hw : σ.globals.get? x = some w) :
    ∃ s o i, env.globals.get? x = some s ∧ s.KeptAt o ∧ m.memory.offset? (o.address m.rbp) = some i ∧
      Holding m₀ env { σ with globals := σ.globals.set x v } { m with memory := m.memory.setWordAt i v } := by
  obtain ⟨s, o, hs, hkept, -⟩ := h.world.values x w hw
  have ho := hst.within x s o hs hkept
  have hg := h.like.ground h.rsp hg
  obtain ⟨haddr, hrange⟩ := hg.static_address ho
  have hoff := hrange.offset?
  have hbase : (Storage.address m.rbp (.static o)).toNat + 8 ≤ m.rbp.toNat := by
    have := hg.statics
    have := hg.limit
    have := hg.frame
    omega
  refine ⟨s, .static o, _, hs, hkept, hoff, like_setWordAt h.like hoff hbase v, h.rsp, ?_, ⟨?_, h.world.output⟩⟩
  · refine h.blocks.of_loads fun j y t p ht hkt => ?_
    obtain ⟨n, -, hn8, hnp, hpd⟩ := hf.slot_of_kept ht hkt
    exact Memory.load?_setWordAt_of_apart v hoff (.inl (hg.static_below ho (Nat.le_trans hn8 hnp) hpd))
  · intro y u hu
    rw [NameTable.get?_set] at hu
    split at hu
    next heq =>
      subst heq
      obtain rfl : v = u := Option.some.inj hu
      exact ⟨s, o, hs, hkept, Memory.load?_setWordAt_self v hoff⟩
    next hne =>
      obtain ⟨t, p, ht, hkt, hl⟩ := h.world.values y u hu
      refine ⟨t, p, ht, hkt, (Memory.load?_setWordAt_of_apart v hoff ?_).trans hl⟩
      rw [haddr, (hg.static_address (hst.within y t p ht hkt)).1]
      have := hst.apart x y s t o p hne hs ht hkept hkt
      omega

theorem write (h : Holding m₀ env σ m) (hf : env.FrameOK) (hst : StaticsOK env.globals size)
    (hg : m₀.Ground size env.depth) (hw : σ.write hidden x v = some σ') :
    (hidden = some x → ∃ i w, blockGet? σ.locals i x = some w) ∧
      ∃ s o i, (env.blocks.findSome? (NameTable.get? x)).or (env.globals.get? x) = some s ∧ s.KeptAt o ∧
        m.memory.offset? (o.address m.rbp) = some i ∧ Holding m₀ env σ' { m with memory := m.memory.setWordAt i v } := by
  unfold Store.write at hw
  split at hw
  next locals hassign =>
    cases hw
    obtain ⟨s, o, i, hs, hk, ho, hm⟩ := h.write_local hf hst hg hassign
    obtain ⟨k, w, hkw, -⟩ := Store.of_assign hassign
    exact ⟨fun _ => ⟨k, w, hkw⟩, s, o, i, by rw [hs]; rfl, hk, ho, hm⟩
  next hnone =>
    split at hw
    · cases hw
    next hvis =>
      cases hw
      rw [not_or] at hvis
      obtain ⟨w, hget⟩ := Option.ne_none_iff_exists'.mp hvis.2
      obtain ⟨s, o, i, hs, hk, ho, hm⟩ := h.write_global hf hst hg hget
      refine ⟨fun heq => absurd heq hvis.1, s, o, i, ?_, hk, ho, hm⟩
      rw [h.blocks.missed (Store.assign_eq_none hnone), hs]
      rfl

end Holding

/-! ## Calls -/

/-- Calls by name do what `call` says, if there are `room` bytes for their frames. They leave everything
above `rsp` as it was. -/
def CallsOK (roomy : Prop) (arity : Arities) (program : Program) (globals : NameTable SymbolInfo) (size room : Nat)
    (call : Caller) : Prop :=
  ∀ {name args world v? world' m stack} span, call name args world = some (v?, world') → m.program = program →
    m.Ground size 0 → (roomy → m.stackLimit.toNat + room ≤ m.rsp.toNat) → WorldAgrees globals world m →
    m.stack = args ++ stack → Does (.overflow roomy) [{ op := .call, operand := .label name, span }] m fun m' =>
      (∀ a, arity name = some a → a.2 = v?.toList.length) ∧ m'.stack = v?.toList ++ stack ∧
        m.Like m.rsp.toNat m' ∧ m'.rsp = m.rsp ∧ WorldAgrees globals world' m'

namespace Holding

variable {m₀ m : Machine} {env env' : Env} {σ : Store} {size room : Nat} {hidden : Option String} {roomy : Prop}
  {arity : Arities} {call : Caller}

theorem operands (h : Holding m₀ env σ m) (steps : Nat) (stack : List UInt64) : Holding m₀ env σ { m with steps, stack } :=
  ⟨⟨h.like.program, h.like.stackLimit, h.like.stackTop, h.like.size, h.like.rbp, h.like.above⟩, h.rsp,
    h.blocks.of_loads fun _ _ _ _ _ _ => rfl, h.world.of_loads rfl fun _ _ _ _ _ => rfl⟩

/-- A callee leaves the variables of blocks as they are. -/
theorem called (h : Holding m₀ env σ m) (hf : env.FrameOK) (hg : m₀.Ground size env.depth) {m' : Machine}
    {world : World} (hlike : m.Like m.rsp.toNat m') (hrsp : m'.rsp = m.rsp)
    (hworld : WorldAgrees env.globals world m') : Holding m₀ env { σ with toWorld := world } m' := by
  have hg := h.like.ground h.rsp hg
  refine ⟨h.like.trans ?_, hrsp.trans h.rsp, h.blocks.of_loads fun i x s o hs hk => ?_, hworld⟩
  · have hframe := hg.frame
    rw [h.like.rbp] at hframe
    exact hlike.mono (by omega)
  · obtain ⟨n, -, hn8, hno, hod⟩ := hf.slot_of_kept hs hk
    rw [hlike.rbp]
    refine hlike.above _ ?_
    rw [(hg.local_address (Nat.le_trans hn8 hno) hod).1]
    have := hg.frame
    omega

/-- What is hidden from a store is not looked up in blocks. -/
theorem visible (h : Holding m₀ env σ m) (hhid : hidden = none ∨ env.blocks = [])
    (hx : hidden = some x → ∃ i w, blockGet? σ.locals i x = some w) : hidden ≠ some x := by
  intro heq
  rcases hhid with hnone | hnil
  · rw [hnone] at heq
    cases heq
  · obtain ⟨i, w, hw⟩ := hx heq
    have hlen := h.blocks.length
    rw [hnil, List.length_nil, List.length_eq_zero_iff] at hlen
    rw [hlen] at hw
    cases hw

theorem represents (hcalls : CallsOK roomy arity m₀.program env.globals size room call) (hf : env.FrameOK)
    (hst : StaticsOK env.globals size) (hg : m₀.Ground size env.depth)
    (hroom : roomy → m₀.stackLimit.toNat + room ≤ m₀.rsp.toNat) (harity : env'.AritiesOK arity)
    (hhid : hidden = none ∨ env.blocks = []) (hlook : ∀ x, hidden ≠ some x →
      env'.lookup? x = (env.blocks.findSome? (NameTable.get? x)).or (env.globals.get? x)) :
    env'.Represents (.overflow roomy) arity call hidden (Holding m₀ env) where
  arities := harity
  stack steps stack h := h.operands steps stack
  read h hv := by
    obtain ⟨hx, s, o, hs, hk, hl⟩ := h.read hv
    exact ⟨s, o, (hlook _ (h.visible hhid hx)).trans hs, hk, hl⟩
  write h hw := by
    obtain ⟨hx, s, o, i, hs, hk, ho, hm⟩ := h.write hf hst hg hw
    exact ⟨s, o, i, (hlook _ (h.visible hhid hx)).trans hs, hk, ho, hm⟩
  calls {σ m name args v? world stack} span h hcall hstack := by
    have hgm := h.like.ground h.rsp hg
    have hframe := hgm.frame
    have hg0 : m.Ground size 0 := ⟨hgm.top, hgm.statics, hgm.limit, by omega, hgm.base⟩
    refine (hcalls span hcall h.like.program hg0 ?_ h.world hstack).mono ?_
    · rw [h.like.stackLimit, h.rsp]
      exact hroom
    · rintro m' ⟨hret, hs, hlike, hrsp, hworld⟩
      exact ⟨hret, hs, h.called hf hg hlike hrsp hworld⟩

end Holding

end Wordstack
