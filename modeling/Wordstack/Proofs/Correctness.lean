/-
Programs do what they mean. A machine that is about to run a program finds the literals in
their slots; the code for the other values runs first, then the function `main`, and what
they leave is what the text says, unless the frames take more room than there is.
-/
import Mathlib
import Wordstack.Proofs.Recording
import Wordstack.Proofs.Statics

namespace Wordstack

open Lower Machine

/-! ## A machine at its start -/

theorem Memory.wordAt_wordBytes (front back : List UInt8) (w : UInt64) :
    (Memory.mk (front ++ wordBytes w ++ back).toArray).wordAt front.length = w := by
  have byte (k : Nat) : (front ++ wordBytes w ++ back).toArray.getD (front.length + k) 0 =
      (wordBytes w ++ back).getD k 0 := by
    rw [Array.getD_eq_getD_getElem?, List.getD_eq_getElem?_getD, List.getElem?_toArray, List.append_assoc,
      List.getElem?_append_right (Nat.le_add_right _ _), Nat.add_sub_cancel_left]
  simp only [wordAt, byte]
  simp [wordBytes, word_of_bytes]

theorem Memory.length_flatMap_wordBytes (ws : List UInt64) : (ws.flatMap wordBytes).length = ws.length * 8 := by
  induction ws with
  | nil => rfl
  | cons w ws ih =>
    rw [List.flatMap_cons, List.length_append, ih, List.length_cons, Nat.succ_mul, Nat.add_comm]
    rfl

/-- What a program keeps in memory besides its stack of frames: the globals, then the texts. -/
def Program.data (p : Program) : List UInt8 :=
  p.globals.flatMap Memory.wordBytes ++ (p.strings.texts.map StringTable.bytes).flatten

/-- There are addresses for all of the memory. -/
def Program.Fits (p : Program) : Prop :=
  Memory.base.toNat + roundUp p.data.length + stackSize < UInt64.size

instance (p : Program) : Decidable p.Fits := inferInstanceAs (Decidable (_ < _))

namespace Machine

theorem le_roundUp (n : Nat) : n ≤ roundUp n := by
  unfold roundUp
  omega

variable (p : Program) (fuel : Nat)

theorem memory_ofProgram : (ofProgram p fuel).memory =
    ⟨(p.data ++ List.replicate (roundUp p.data.length - p.data.length + stackSize) 0).toArray⟩ := by
  simp [ofProgram, Program.data]

theorem size_ofProgram : (ofProgram p fuel).memory.bytes.size = roundUp p.data.length + stackSize := by
  have hle := le_roundUp p.data.length
  rw [memory_ofProgram, List.size_toArray, List.length_append, List.length_replicate]
  omega

variable {p}

theorem stackLimit_ofProgram (h : p.Fits) :
    (ofProgram p fuel).stackLimit.toNat = Memory.base.toNat + roundUp p.data.length := by
  unfold Program.Fits at h
  show (Memory.base + (roundUp p.data.length).toUInt64).toNat = _
  rw [UInt64.toNat_add, toNat_toUInt64_of_le (Nat.le_refl _) (by omega), Nat.mod_eq_of_lt]
  have : 2 ^ 64 = UInt64.size := rfl
  omega

theorem stackTop_ofProgram (h : p.Fits) :
    (ofProgram p fuel).stackTop.toNat = Memory.base.toNat + (ofProgram p fuel).memory.bytes.size := by
  have hsize := size_ofProgram p fuel
  unfold Program.Fits at h
  show (Memory.base + (ofProgram p fuel).memory.bytes.size.toUInt64).toNat = _
  rw [UInt64.toNat_add, toNat_toUInt64_of_le (Nat.le_refl _) (by omega), Nat.mod_eq_of_lt]
  have : 2 ^ 64 = UInt64.size := rfl
  omega

/-- The globals come first in memory, then there is room for the frames. -/
theorem ground_ofProgram (h : p.Fits) : (ofProgram p fuel).Ground (p.globals.length * 8) 0 := by
  have htop := stackTop_ofProgram fuel h
  have hlimit := stackLimit_ofProgram fuel h
  have hsize := size_ofProgram p fuel
  have hround := le_roundUp p.data.length
  have hdata : p.globals.length * 8 ≤ p.data.length := by
    rw [Program.data, List.length_append, Memory.length_flatMap_wordBytes]
    exact Nat.le_add_right _ _
  have hrsp : (ofProgram p fuel).rsp = (ofProgram p fuel).stackTop := rfl
  have hrbp : (ofProgram p fuel).rbp = (ofProgram p fuel).stackTop := rfl
  refine ⟨htop.symm, ?_, ?_, ?_, ?_⟩
  · omega
  · rw [hrsp]
    omega
  · rw [hrsp, hrbp]
    omega
  · simp only [hrbp, Nat.le_refl]

/-- Each global holds what its slot says. -/
theorem load?_ofProgram (h : p.Fits) {i : Nat} {v : UInt64} (hv : p.globals[i]? = some v) :
    (ofProgram p fuel).memory.load? (Memory.base + (i * 8).toUInt64) = some v := by
  have hg := ground_ofProgram fuel h
  have hi := (List.getElem?_eq_some_iff.mp hv).1
  obtain ⟨haddr, hrange⟩ := hg.static_address (show i * 8 + 8 ≤ p.globals.length * 8 by omega)
  show (ofProgram p fuel).memory.load? (Storage.address (ofProgram p fuel).rbp (.static (i * 8))) = some v
  rw [hrange.load?, haddr, Nat.add_sub_cancel_left]
  have hsplit : p.globals = p.globals.take i ++ v :: p.globals.drop (i + 1) := by
    rw [← (List.getElem?_eq_some_iff.mp hv).2, List.getElem_cons_drop, List.take_append_drop]
  have hfront : ((p.globals.take i).flatMap Memory.wordBytes).length = i * 8 := by
    rw [Memory.length_flatMap_wordBytes, List.length_take, Nat.min_eq_left (Nat.le_of_lt hi)]
  have hdata : p.data = (p.globals.take i).flatMap Memory.wordBytes ++ (Memory.wordBytes v ++
      ((p.globals.drop (i + 1)).flatMap Memory.wordBytes ++ (p.strings.texts.map StringTable.bytes).flatten)) := by
    unfold Program.data
    conv => lhs; rw [hsplit]
    rw [List.flatMap_append, List.flatMap_cons, List.append_assoc, List.append_assoc]
  rw [memory_ofProgram, hdata, List.append_assoc, List.append_assoc, ← List.append_assoc, ← hfront]
  exact congrArg some (Memory.wordAt_wordBytes _ _ v)

end Machine

/-- Before anything runs the globals hold their literals. -/
theorem worldAgrees_start {items : List Stmt} {scope : Scope} (h : scope.Traced items) {p : Program}
    (hs : SlotsFilled items scope items.length p.globals) (hfits : p.Fits) (fuel : Nat) :
    WorldAgrees ((Layout.ofItems scope items).symbols scope) { globals := initialGlobals items } (ofProgram p fuel) := by
  refine ⟨fun x v hv => ?_, rfl⟩
  obtain ⟨y, hy, heq⟩ := List.mem_map.mp (NameTable.mem_of_get? hv)
  obtain ⟨rfl, rfl⟩ := Prod.mk.inj heq
  obtain ⟨item, hmem, hvar⟩ := List.mem_filterMap.mp hy
  obtain ⟨e, he, hk⟩ := h.var hmem (.inl hvar)
  obtain ⟨o, s, ho, hsym, hkept⟩ := h.placed he hk
  have hfrom := h.entry y e he
  have hslot := hs.value y e o (h.word he hk ho)
  rw [if_pos (List.getElem?_eq_some_iff.mp hfrom.item).1, ← hfrom.literal_eq hk] at hslot
  refine ⟨s, o, hsym, hkept, ?_⟩
  have hload := load?_ofProgram fuel hfits hslot
  rwa [show o / Ty.slotSize * 8 = o from (h.word he hk ho).slot.2.1] at hload

/-! ## Runs from the start of a function -/

namespace Machine

/-- What there is when a run of a function starts: an empty stack of frames, and on it where to return to. -/
def entered (i : Nat) (m : Machine) : Machine :=
  { m with rsp := m.stackTop - 8, rbp := m.stackTop, memory := m.memory.setWordAt i returnMarker }

section

variable (i : Nat) (m : Machine)

@[simp] theorem entered_program : (m.entered i).program = m.program := by simp only [entered]
@[simp] theorem entered_stackLimit : (m.entered i).stackLimit = m.stackLimit := by simp only [entered]
@[simp] theorem entered_stackTop : (m.entered i).stackTop = m.stackTop := by simp only [entered]
@[simp] theorem entered_rsp : (m.entered i).rsp = m.stackTop - 8 := by simp only [entered]
@[simp] theorem entered_rbp : (m.entered i).rbp = m.stackTop := by simp only [entered]
@[simp] theorem entered_steps : (m.entered i).steps = m.steps := by simp only [entered]
@[simp] theorem entered_stack : (m.entered i).stack = m.stack := by simp only [entered]
@[simp] theorem entered_output : (m.entered i).output = m.output := by simp only [entered]
@[simp] theorem entered_memory : (m.entered i).memory = m.memory.setWordAt i returnMarker := by simp only [entered]

end

theorem load?_entered {i : Nat} {m : Machine} (hi : m.memory.offset? (m.stackTop - 8) = some i) :
    (m.entered i).memory.load? (m.entered i).rsp = some returnMarker := by
  simpa using Memory.load?_setWordAt_self returnMarker hi

theorem run_eq (f : Function) {m : Machine} {i : Nat} (hroom : m.stackLimit.toNat + 8 ≤ m.stackTop.toNat)
    (hi : m.memory.offset? (m.stackTop - 8) = some i) : run f m = runFrom m.fuel ⟨f, 0⟩ [] (m.entered i) := by
  have hp := pushNative_eq (m := { m with rsp := m.stackTop, rbp := m.stackTop }) returnMarker hroom hi
  simp only [run, bind, EStateM.bind, modify_eq, hp, get_eq]
  rfl

/-- With any fuel beyond what it takes, a computation comes to an end as `Q` says, or it ends in a fault. -/
def Ends {α : Type} (F : Faults) (x : Exec α) (m : Machine) (Q : α → Machine → Prop) : Prop :=
  ∃ k, (∃ a m', Q a m' ∧ m'.steps = m.steps + k ∧ ∀ n, x { m with fuel := n + k } = .ok a { m' with fuel := n }) ∨
    ∃ e, F e (m.steps + k) ∧ ∀ n, ∃ m', x { m with fuel := n + k } = .error e m'

/-- A run of `f` is at a return, and what comes of it is as `Q` says. -/
def AtReturn (f : Function) (Q : Machine → Prop) (pc : Nat) (m : Machine) : Prop :=
  (∃ span, f.code[pc]? = some ⟨{ op := .ret, span }, pc⟩) ∧ (∃ v, m.memory.load? m.rsp = some v) ∧
    Q { m with steps := m.steps + 1, rsp := m.rsp + 8 }

/-- No function is running, and memory is divided as it was at the start. -/
structure Idle (p : Program) (size : Nat) (m : Machine) : Prop where
  program : m.program = p
  top : Memory.base.toNat + m.memory.bytes.size = m.stackTop.toNat
  statics : Memory.base.toNat + size ≤ m.stackLimit.toNat
  frames : m.stackLimit.toNat + stackSize = m.stackTop.toNat

/-- No function is running, and the globals are those of `world`. -/
structure Between (p : Program) (globals : NameTable SymbolInfo) (size : Nat) (world : World) (m : Machine) : Prop
    extends m.Idle p size where
  world : WorldAgrees globals world m

theorem idle_ofProgram {p : Program} (h : p.Fits) (fuel : Nat) : (ofProgram p fuel).Idle p (p.globals.length * 8) := by
  have hg := ground_ofProgram fuel h
  refine ⟨rfl, hg.top, hg.statics, ?_⟩
  rw [stackLimit_ofProgram fuel h, stackTop_ofProgram fuel h, size_ofProgram, Nat.add_assoc]

variable {p : Program} {globals : NameTable SymbolInfo} {size : Nat} {world world' : World} {m m' : Machine}

namespace Idle

theorem ground (h : m.Idle p size) : ({ m with rsp := m.stackTop, rbp := m.stackTop } : Machine).Ground size 0 := by
  have := h.frames
  exact ⟨h.top, h.statics, by show m.stackLimit.toNat ≤ m.stackTop.toNat; omega, Nat.le_refl _, Nat.le_refl _⟩

/-- The operand stack, the fuel and the stack of frames are not part of it. -/
theorem update (h : m.Idle p size) (fuel steps : Nat) (rsp : UInt64) (stack : List UInt64) (initialized : Bool) :
    ({ m with fuel, steps, rsp, stack, initialized } : Machine).Idle p size :=
  ⟨h.program, h.top, h.statics, h.frames⟩

/-- Where a run puts what it returns to. -/
theorem entry (h : m.Idle p size) : m.stackLimit.toNat + 8 ≤ m.stackTop.toNat ∧
    (m.stackTop - 8).toNat + 8 = m.stackTop.toNat ∧ ∃ i, m.memory.offset? (m.stackTop - 8) = some i := by
  have hroom : m.stackLimit.toNat + 8 ≤ m.stackTop.toNat := by
    have := h.frames
    unfold stackSize at this
    omega
  obtain ⟨hsub, hrange⟩ := h.ground.push hroom
  exact ⟨hroom, hsub, _, hrange.offset?⟩

/-- What is said about a machine holds of it once a function has been entered. -/
theorem entered (h : m.Idle p size) (i : Nat) : (m.entered i).Idle p size ∧ (m.entered i).Ground size 0 := by
  obtain ⟨hroom, hsub, -⟩ := h.entry
  have hm : (m.entered i).Idle p size :=
    ⟨by simpa using h.program, by simpa using h.top, by simpa using h.statics, by simpa using h.frames⟩
  refine ⟨hm, hm.top, hm.statics, ?_, ?_, ?_⟩
  · rw [entered_rsp, entered_stackLimit]
    omega
  · rw [entered_rsp, entered_rbp]
    omega
  · simp only [entered_rbp, entered_stackTop, Nat.le_refl]

theorem of_like {a : Nat} (h : m.Idle p size) (hlike : m.Like a m') : m'.Idle p size := by
  refine ⟨hlike.program.trans h.program, ?_, ?_, ?_⟩
  · rw [hlike.size, hlike.stackTop]
    exact h.top
  · rw [hlike.stackLimit]
    exact h.statics
  · rw [hlike.stackLimit, hlike.stackTop]
    exact h.frames

/-- A function that comes to its return whenever it is entered comes to its end. -/
theorem run_ends (h : m.Idle p size) {F : Faults} {f : Function} {Q : Machine → Prop}
    (hruns : ∀ i, m.memory.offset? (m.stackTop - 8) = some i → Runs F f [] 0 (m.entered i) (AtReturn f Q)) :
    Ends F (run f) m fun _ => Q := by
  obtain ⟨hroom, -, i, hi⟩ := h.entry
  have hrun : ∀ n, run f { m with fuel := n } = runFrom n ⟨f, 0⟩ [] { m.entered i with fuel := n } :=
    fun n => run_eq (m := { m with fuel := n }) f hroom hi
  have hsteps := entered_steps i m
  rcases hruns i hi with ⟨k, pc, m', hgoes, ⟨span, hret⟩, ⟨v, hv⟩, hq⟩ | ⟨k, e, he, hs⟩
  · refine ⟨k + 1, .inl ⟨(), _, hq, congrArg (· + 1) (hgoes.steps.trans (congrArg (· + k) hsteps)), fun n => ?_⟩⟩
    have := hgoes.run (n + 1)
    rw [Nat.add_right_comm] at this
    rw [hrun, ← Nat.add_assoc, this]
    exact runFrom_ret (m := { m' with fuel := n + 1 }) n hret hv
  · refine ⟨k, .inr ⟨e, hsteps ▸ he, fun n => ?_⟩⟩
    rw [hrun]
    exact hs n

end Idle

namespace Between

theorem update (h : m.Between p globals size world) (fuel steps : Nat) (rsp : UInt64) (stack : List UInt64)
    (initialized : Bool) : ({ m with fuel, steps, rsp, stack, initialized } : Machine).Between p globals size world :=
  ⟨h.toIdle.update .., h.world.of_loads rfl fun _ _ _ _ _ => rfl⟩

theorem entered (h : m.Between p globals size world) (hst : StaticsOK globals size) {i : Nat}
    (hi : m.memory.offset? (m.stackTop - 8) = some i) : (m.entered i).Between p globals size world := by
  obtain ⟨hroom, hsub, -⟩ := h.entry
  have hworld : WorldAgrees globals world { m with rsp := m.stackTop, rbp := m.stackTop } :=
    h.world.of_loads rfl fun _ _ _ _ _ => rfl
  exact ⟨(h.toIdle.entered i).1,
    hworld.pushed hst h.ground hi (by show m.stackLimit.toNat ≤ _; omega) (entered_memory i m) (entered_output i m)⟩

end Between

section

variable {name : String} {f : Function} {m₁ : Machine}

/-- The first call sets up the globals, then it runs the function. -/
theorem call_eq (hfirst : m.initialized = false) (hinit : run m.program.init { m with initialized := true } = .ok () m₁)
    (hf : m₁.program.function? name = some f) (hx : f.external = false) :
    call name m = match run f { m₁ with stack := [] } with
      | .ok _ m₂ => .ok m₂.stack.reverse { m₂ with stack := [] }
      | .error e m₂ => .error e m₂ := by
  simp only [call, bind, EStateM.bind, get_eq, hfirst, Bool.not_false, if_true,
    modify_eq, hinit, hf, hx, clearStack]
  simp only [Bool.false_eq_true, if_false, EStateM.bind, modify_eq]
  cases run f { m₁ with stack := [] } <;> rfl

theorem call_eq_error {e : Fault} (hfirst : m.initialized = false)
    (hinit : run m.program.init { m with initialized := true } = .error e m₁) : call name m = .error e m₁ := by
  simp only [call, bind, EStateM.bind, get_eq, hfirst, Bool.not_false, if_true,
    modify_eq, hinit]

/-- A first call comes to an end if the setup of the globals does and then the function does. -/
theorem call_ends {F : Faults} {Q₁ : Machine → Prop} {Q : List UInt64 → Machine → Prop} (hfirst : m.initialized = false)
    (hinit : Ends F (run m.program.init) { m with initialized := true } fun _ => Q₁)
    (hf : ∀ m₁, Q₁ m₁ → ∃ f, m₁.program.function? name = some f ∧ f.external = false ∧
      Ends F (run f) { m₁ with stack := [] } fun _ m₂ => Q m₂.stack.reverse { m₂ with stack := [] }) :
    Ends F (call name) m Q := by
  obtain ⟨k₁, ⟨_, m₁, hm₁, hsteps₁, hrun₁⟩ | ⟨e, he, hrun₁⟩⟩ := hinit
  · obtain ⟨f, hf, hx, k₂, hend⟩ := hf m₁ hm₁
    have hcall : ∀ n, call name { m with fuel := n + k₁ } = _ := fun n =>
      call_eq (m := { m with fuel := n + k₁ }) hfirst (hrun₁ n) hf hx
    have hsteps : m₁.steps + k₂ = m.steps + (k₂ + k₁) := by
      have : m₁.steps = m.steps + k₁ := hsteps₁
      omega
    refine ⟨k₂ + k₁, ?_⟩
    rcases hend with ⟨_, m₂, hq, hsteps₂, hrun₂⟩ | ⟨e, he, hrun₂⟩
    · refine .inl ⟨_, _, hq, hsteps₂.trans hsteps, fun n => ?_⟩
      rw [← Nat.add_assoc, hcall (n + k₂), hrun₂ n]
    · refine .inr ⟨e, hsteps ▸ he, fun n => ?_⟩
      obtain ⟨m₂, hrun₂⟩ := hrun₂ n
      exact ⟨m₂, by rw [← Nat.add_assoc, hcall (n + k₂), hrun₂]⟩
  · refine ⟨k₁, .inr ⟨e, he, fun n => ?_⟩⟩
    obtain ⟨m₁, hrun₁⟩ := hrun₁ n
    exact ⟨m₁, call_eq_error (m := { m with fuel := n + k₁ }) hfirst hrun₁⟩

end

end Machine

/-! ## The functions of a program -/

section

variable {items : List Stmt} {scope : Scope} (h : scope.Traced items) (hs : ∀ p ∈ scope, p.2.OK items p.1) (S : Setting)
  (hglobals : S.globals = (GlobalContext.ofItems items scope).env.globals) (harity : S.arity = scope.arities)
include h hs hglobals harity

/-- What a function of the text says is what the function made of it does. -/
theorem ensures_implements_item {root : Nat} {item : Stmt} (hroot : items[root]? = some item) (hw : item.Whole)
    (hscalar : item.isScalarItem = true) :
    Ensures accepted (lowerItem (.ofItems items scope) root item) fun f? => ∀ f ∈ f?, ∃ r,
      items.findSome? (Stmt.routine? f.name) = some r ∧ f.external = false ∧ f.returns = r.returns ∧
        (f.frameSize ≤ S.frame → f.Implements S r) := by
  have hg : GlobalsOK S.arity S.globals := by
    rw [hglobals, harity]
    exact globalsOK_symbols hs _
  have hstatic : ∀ x s o, S.globals.get? x = some s → s.storage ≠ some (.stack o) := by
    rw [hglobals]
    exact fun x s o hx => storage_symbols scope _ hx
  unfold lowerItem
  cases hw with
  | @define name brace ty body _ hb =>
    dsimp only
    split
    next sig hfor =>
      obtain ⟨e, he, hk, hr, -⟩ := of_signatureFor? hfor
      obtain ⟨t, sig', ht, hfor', ⟨ty', _, _, heq, hwritten⟩ | ⟨_, heq⟩⟩ := item_of_func hs hroot he hk hr
      · cases heq
        cases hfor.symm.trans hfor'
        obtain ⟨r, hfirst⟩ := (h.entry _ e he).func hk
        have hr : r = ⟨sig.params.map Parameter.name, sig.returns.length, body⟩ := by
          have := hfirst.1
          rw [hr, hroot, Option.bind_some, Stmt.routine?, if_pos rfl] at this
          rw [hwritten.params, hwritten.returns]
          exact (Option.some.inj this).symm
        rw [← hglobals]
        refine ((ensures_implements S hg hstatic name sig hwritten.length brace hb).and
          (ensures_heightMap_function S.arity hg name sig hwritten.length brace hb)).bind fun f => .pure ?_
        rintro ⟨himp, hf, -⟩ f' ⟨⟩
        refine ⟨r, ?_, hf.2.2.2, by rw [hr, hf.2.2.1], fun hframe => hr ▸ himp hframe⟩
        rw [hf.1]
        exact findSome?_eq_some_iff.mpr ⟨_, hfirst⟩
      · cases heq
    · exact .pure fun f hf => by cases hf
  | declare _ | declareAs _ _ => exact .pure fun f hf => by cases hf
  | _ => cases hscalar

end

/-! ## Programs -/

section

variable {items : List Stmt} {scope : Scope}

variable (hw : Stmt.WholeAll items) (h : scope.Traced items) (hs : ∀ p ∈ scope, p.2.OK items p.1)
  (hscalar : ∀ item ∈ items, item.isScalarItem = true)
  (hc : ∀ e ∈ (Program.ofItems items scope).errors, e.diagnostic.isWarning = true)
include hw hs hc

include h

/-- What the text does not define the program does not have. -/
theorem function?_ofItems_eq_none (name : String) (hname : items.findSome? (Stmt.routine? name) = none) :
    (Program.ofItems items scope).program.function? name = none := by
  refine Option.not_isSome_iff_eq_none.mp fun hsome => ?_
  obtain ⟨e, he, hk⟩ := ((functions_ofItems hw hs hc).2.2 name).mp hsome
  obtain ⟨r, hfirst⟩ := (h.entry _ e he).func hk
  cases hname.symm.trans (findSome?_eq_some_iff.mpr ⟨_, hfirst⟩)

include hscalar

/-- Calls of the program find what the text defines. -/
theorem implements_ofItems (S : Setting) (hprogram : S.program = (Program.ofItems items scope).program)
    (harity : S.arity = S.program.arities) (hglobals : S.globals = (Layout.ofItems scope items).symbols scope)
    (hframe : ∀ f ∈ S.program.functions, f.frameSize ≤ S.frame) : S.Implements items := by
  rw [hprogram] at harity hframe
  rw [arities_ofItems hw hs hc] at harity
  obtain ⟨-, fs, himp, hmem, -⟩ := of_parts (W := accepted) trivial hc (ensures_height_initItems hs hw 0 _)
    (ensures_items fun i item hi => ensures_implements_item h hs S hglobals harity (by rwa [Nat.zero_add])
      (hw.get item (List.mem_of_getElem? hi)) (hscalar item (List.mem_of_getElem? hi)))
  intro name r hr
  obtain ⟨e, he, hk, -⟩ := h.func hr
  obtain ⟨f, hf⟩ := Option.isSome_iff_exists.mp (((functions_ofItems hw hs hc).2.2 name).mpr ⟨e, he, hk⟩)
  obtain ⟨r', hr', hx, hreturns, hf'⟩ := himp f (hmem f (List.mem_of_find?_eq_some hf))
  obtain rfl := Program.name_of_function? hf
  obtain rfl := Option.some.inj (hr.symm.trans hr')
  exact ⟨f, hprogram ▸ hf, hx, hreturns, hf' (hframe f (List.mem_of_find?_eq_some hf))⟩

section

variable {roomy : Prop} {depth bound frame fuel : Nat} {world world' : World} {m : Machine}

/-- Calls do what they mean, nested up to `depth`. -/
theorem callsOK_ofItems {program : Program} (hp : program = (Program.ofItems items scope).program)
    (hframe : ∀ f ∈ program.functions, f.frameSize ≤ frame) (roomy : Prop) (bound depth : Nat) :
    CallsOK roomy scope.arities program ((Layout.ofItems scope items).symbols scope)
      (Layout.ofItems scope items).size (depth * (frame + 16)) (calls items bound depth) := by
  subst hp
  rw [← arities_ofItems hw hs hc]
  refine callsOK (staticsOK_symbols items scope) (fun S hprogram harity hglobals hframe' => ?_)
    (function?_ofItems_eq_none hw h hs hc) roomy depth
  refine implements_ofItems hw h hs hscalar hc S hprogram (harity.trans (hprogram ▸ rfl)) hglobals ?_
  rw [hprogram, hframe']
  exact hframe

/-- The setup of the globals leaves them as they are meant to be. -/
theorem runs_init (hframe : ∀ f ∈ (Program.ofItems items scope).program.functions, f.frameSize ≤ frame)
    (hroom : roomy → depth * (frame + 16) + 8 ≤ stackSize)
    (hm : m.Between (Program.ofItems items scope).program ((Layout.ofItems scope items).symbols scope)
      (Layout.ofItems scope items).size world)
    (hinit : initGlobals (calls items bound depth) [] items world = some world') {i : Nat}
    (hi : m.memory.offset? (m.stackTop - 8) = some i) :
    Runs (.overflow roomy) (Program.ofItems items scope).program.init [] 0 (m.entered i)
      (AtReturn (Program.ofItems items scope).program.init fun m' => m'.Between (Program.ofItems items scope).program
        ((Layout.ofItems scope items).symbols scope) (Layout.ofItems scope items).size world') := by
  obtain ⟨-, hsub, -⟩ := hm.entry
  have hrsp : (m.entered i).rsp.toNat + 8 = (m.entered i).stackTop.toNat := by simpa using hsub
  have hm₀ := hm.entered (staticsOK_symbols items scope) hi
  have hg := (hm.toIdle.entered i).2
  generalize m.entered i = m₀ at hm₀ hg hrsp ⊢
  have hroom₀ : roomy → m₀.stackLimit.toNat + depth * (frame + 16) ≤ m₀.rsp.toNat := by
    intro hr
    have := hroom hr
    have := hm₀.frames
    omega
  have hnow : ∀ i item, items[i]? = some item → items[0 + i]? = some item := fun i item hi => by rwa [Nat.zero_add]
  have hcalls := @callsOK_ofItems _ _ hw h hs hscalar hc _ _ hm₀.program (hm₀.program ▸ hframe) roomy bound depth
  obtain ⟨⟨code, hdoes, hsetup⟩, -⟩ := of_parts (W := accepted) trivial hc
    (ensures_does_initItems h hs hcalls hg hroom₀ hw hnow hscalar (.start items) _) (ensures_conforms_items hs hw 0 hnow)
  have hholding : Holding m₀ (GlobalContext.ofItems items scope).env { toWorld := world } m₀ :=
    ⟨.refl _ _, rfl, ⟨rfl, fun _ _ _ => rfl, fun _ _ _ hv => by cases hv⟩, hm₀.world⟩
  have hcode := Program.holds_setup (Layout.ofItems scope items).slots code
  rw [← hsetup] at hcode
  refine .step (.setupGlobal hcode.head) ?_
  refine (hdoes world world' _ hinit (hholding.operands _ _) _ _ _ hcode.tail.left).mono ?_
  rintro _ m' ⟨rfl, -, hm'⟩
  have hm₁ : m'.Between _ _ _ world' := ⟨hm₀.toIdle.of_like hm'.like, hm'.world⟩
  refine ⟨⟨_, hcode.tail.right.head⟩, ?_, hm₁.update _ _ _ _ _⟩
  refine ⟨_, Memory.InRange.load? ⟨?_, ?_⟩⟩
  · rw [hm'.rsp]
    have := hg.statics
    have := hg.limit
    omega
  · rw [hm'.rsp, hm₁.top, hm'.like.stackTop]
    omega

/-- The function `main` returns what it means. -/
theorem runs_main (hframe : ∀ f ∈ (Program.ofItems items scope).program.functions, f.frameSize ≤ frame)
    (hroom : roomy → depth * (frame + 16) ≤ stackSize)
    (hm : m.Between (Program.ofItems items scope).program ((Layout.ofItems scope items).symbols scope)
      (Layout.ofItems scope items).size world) (hst : m.stack = []) {v? : Option UInt64}
    (hmain : calls items bound depth "main" [] world = some (v?, world')) :
    ∃ f, (Program.ofItems items scope).program.function? "main" = some f ∧ f.external = false ∧
      ∀ i, m.memory.offset? (m.stackTop - 8) = some i → Runs (.overflow roomy) f [] 0 (m.entered i) (AtReturn f fun m' =>
        m'.stack = v?.toList ∧ WorldAgrees ((Layout.ofItems scope items).symbols scope) world' m') := by
  have hbuiltin : Builtin.ofName? "main" = none := by decide
  cases depth with
  | zero =>
    simp only [calls, hbuiltin] at hmain
    split at hmain <;> cases hmain
  | succ depth =>
    simp only [calls, hbuiltin] at hmain
    split at hmain
    next r hr =>
      let S : Setting := ⟨roomy, scope.arities, _, _, _, frame, depth * (frame + 16), calls items bound depth, bound,
        staticsOK_symbols items scope, @callsOK_ofItems _ _ hw h hs hscalar hc _ _ rfl hframe roomy bound depth⟩
      obtain ⟨f, hf, hx, -, himp⟩ := implements_ofItems hw h hs hscalar hc S rfl (arities_ofItems hw hs hc).symm rfl
        hframe "main" r hr
      refine ⟨f, hf, hx, fun i hi => ?_⟩
      have hroom' : S.roomy → ({ m with rsp := m.stackTop, rbp := m.stackTop } : Machine).stackLimit.toNat + S.room +
          S.frame + 16 ≤ m.stackTop.toNat := by
        intro hr
        have := hroom hr
        have := hm.frames
        rw [Nat.succ_mul] at *
        show m.stackLimit.toNat + depth * (frame + 16) + frame + 16 ≤ m.stackTop.toNat
        omega
      have hworld : WorldAgrees S.globals world { m with rsp := m.stackTop, rbp := m.stackTop } :=
        hm.world.of_loads rfl fun _ _ _ _ _ => rfl
      have hst : m.stack = [] ++ [] := hst
      refine (himp.runs_marked (m := { m with rsp := m.stackTop, rbp := m.stackTop }) hmain hm.program hm.ground hroom' hworld
        hst hm.entry.1 hi [] m.steps).mono ?_
      rintro pc m' ⟨hret, hmarker, -, hst', -, -, hworld'⟩
      exact ⟨hret, ⟨_, hmarker⟩, by simpa using hst', hworld'.of_loads rfl fun _ _ _ _ _ => rfl⟩
    · cases hmain

omit hscalar in
/-- A machine that is about to run the program finds the literals in their slots. -/
theorem between_ofProgram (hfits : (Program.ofItems items scope).program.Fits) (fuel : Nat) :
    (ofProgram (Program.ofItems items scope).program fuel).Between (Program.ofItems items scope).program
      ((Layout.ofItems scope items).symbols scope) (Layout.ofItems scope items).size { globals := initialGlobals items } := by
  have hnow : ∀ i item, items[i]? = some item → items[0 + i]? = some item := fun i item hi => by rwa [Nat.zero_add]
  obtain ⟨⟨_, ⟨-, hfilled⟩, -⟩, -⟩ := of_parts (W := accepted) trivial hc
    ((ensures_height_initItems hs hw 0 _).withResult (ensures_filled_initItems h.owned hnow _))
    (ensures_conforms_items hs hw 0 hnow)
  have hslots := hfilled (.start items scope)
  rw [Nat.zero_add] at hslots
  have hsize : (Program.ofItems items scope).program.globals.length * 8 = (Layout.ofItems scope items).size := by
    rw [hslots.length]
    exact Nat.div_mul_cancel (Nat.dvd_of_mod_eq_zero (Layout.ok_ofItems scope items).whole)
  have hidle := idle_ofProgram hfits fuel
  rw [hsize] at hidle
  exact ⟨hidle, worldAgrees_start h hslots hfits fuel⟩

/-- What a first call of `main` comes to if the text has a meaning. -/
theorem call_main (hfits : (Program.ofItems items scope).program.Fits)
    (hframe : ∀ f ∈ (Program.ofItems items scope).program.functions, f.frameSize ≤ frame)
    (hinit : initGlobals (calls items bound depth) [] items { globals := initialGlobals items } = some world)
    {v? : Option UInt64} (hmain : calls items bound depth "main" [] world = some (v?, world')) :
    ∃ need, ∀ fuel, need ≤ fuel →
      (∃ m, call "main" (ofProgram (Program.ofItems items scope).program fuel) = .ok v?.toList m ∧
        WorldAgrees ((Layout.ofItems scope items).symbols scope) world' m) ∨
      (stackSize < depth * (frame + 16) + 8 ∧
        ∃ m, call "main" (ofProgram (Program.ofItems items scope).program fuel) = .error .stackOverflow m) := by
  have hstart := between_ofProgram hw h hs hc hfits 0
  have hbegin := hstart.update 0 0 (ofProgram (Program.ofItems items scope).program 0).rsp [] true
  obtain ⟨k, hend⟩ : Ends (.overflow (depth * (frame + 16) + 8 ≤ stackSize)) (call "main")
      (ofProgram (Program.ofItems items scope).program 0) fun vs m =>
        vs = v?.toList ∧ WorldAgrees ((Layout.ofItems scope items).symbols scope) world' m := by
    refine call_ends rfl (hbegin.run_ends fun i hi => runs_init hw h hs hscalar hc hframe id hbegin hinit hi) fun m₁ hm₁ => ?_
    have hm₂ := hm₁.update m₁.fuel m₁.steps m₁.rsp [] m₁.initialized
    obtain ⟨f, hf, hx, hruns⟩ := runs_main hw h hs hscalar hc hframe Nat.le_of_add_right_le hm₂ rfl hmain
    refine ⟨f, hm₁.program ▸ hf, hx, hm₂.run_ends fun i hi => (hruns i hi).mono ?_⟩
    rintro pc m₃ ⟨hret, hload, hst, hworld⟩
    refine ⟨hret, hload, ?_, hworld.of_loads rfl fun _ _ _ _ _ => rfl⟩
    rw [hst]
    cases v? <;> rfl
  refine ⟨k, fun fuel hle => ?_⟩
  obtain ⟨n, rfl⟩ : ∃ n, fuel = n + k := ⟨fuel - k, by omega⟩
  rcases hend with ⟨_, m, ⟨rfl, hworld⟩, -, hcall⟩ | ⟨_, ⟨rfl, hfull⟩, hcall⟩
  · exact .inl ⟨_, hcall n, hworld.of_loads rfl fun _ _ _ _ _ => rfl⟩
  · exact .inr ⟨Nat.lt_of_not_le hfull, hcall n⟩

end

end

/-! ## Source texts -/

end Wordstack
