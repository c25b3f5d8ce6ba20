/-
What an instruction can tell apart. Instructions do not look at the fuel, and at the program only to find a function
or an address by its name, so that they do the same with other fuel and another program with these names.
-/
import Wordstack.Proofs.FormulaRuns

namespace Wordstack

/-- The jumps of both functions go to the same places. -/
structure Function.Alike (f f' : Function) : Prop where
  name : f'.name = f.name
  jump (i t : Nat) : f'.jumpTarget? i = some t ∧ t ≤ f'.length ↔ f.jumpTarget? i = some t ∧ t ≤ f.length

/-- What has a name in one program has it in the other, functions up to `R`. -/
structure Program.Alike (R : Function → Function → Prop) (p q : Program) : Prop where
  strings : q.strings = p.strings
  index (name : String) : q.functions.findIdx? (·.name == name) = p.functions.findIdx? (·.name == name)
  function? (name : String) : Option.Rel (fun f f' => f'.external = f.external ∧ (f.external = false → R f f'))
    (p.function? name) (q.function? name)
  alike {f f' : Function} (h : R f f') : f.Alike f'

theorem Program.alike_self (p : Program) : p.Alike (· = ·) p := by
  refine ⟨rfl, fun _ => rfl, fun name => ?_, fun h => h ▸ ⟨rfl, fun _ _ => Iff.rfl⟩⟩
  cases p.function? name with
  | none => exact .none
  | some f => exact .some ⟨rfl, fun _ => rfl⟩

namespace Machine

variable {α β γ δ : Type} {R : Function → Function → Prop} {p q : Program} {m m' : Machine}

/-- The machine that a computation leaves behind, also where it fails. -/
def final : EStateM.Result Fault Machine α → Machine
  | .ok _ m | .error _ m => m

/-- A result with its machine changed. -/
def onFinal (g : Machine → Machine) : EStateM.Result Fault Machine α → EStateM.Result Fault Machine α
  | .ok a m => .ok a (g m)
  | .error e m => .error e (g m)

def OutOfFuel (r : EStateM.Result Fault Machine α) : Prop := ∃ k m, r = .error (.outOfFuel k) m

/-- The output so far is still there. -/
def Extends (m m' : Machine) : Prop := m.output.toList <+: m'.output.toList

theorem Extends.refl (m : Machine) : Extends m m := List.prefix_rfl

theorem Extends.trans {m₁ m₂ m₃ : Machine} (h₁ : Extends m₁ m₂) (h₂ : Extends m₂ m₃) : Extends m₁ m₃ :=
  List.IsPrefix.trans h₁ h₂

theorem final_onFinal (g : Machine → Machine) (r : EStateM.Result Fault Machine α) :
    final (onFinal g r) = g (final r) := by cases r <;> rfl

theorem not_outOfFuel_ok (a : α) (m : Machine) : ¬ OutOfFuel (.ok a m) := by
  rintro ⟨k, m', h⟩
  cases h

/-- The program is the same, what is known about the globals too, and output is only added. -/
def Kept (m m' : Machine) : Prop := m'.program = m.program ∧ m'.initialized = m.initialized ∧ Extends m m'

theorem Kept.refl (m : Machine) : Kept m m := ⟨rfl, rfl, Extends.refl m⟩

theorem Kept.trans {m₁ m₂ m₃ : Machine} (h₁ : Kept m₁ m₂) (h₂ : Kept m₂ m₃) : Kept m₁ m₃ :=
  ⟨h₂.1.trans h₁.1, h₂.2.1.trans h₁.2.1, h₁.2.2.trans h₂.2.2⟩

/-! ## Doing the same -/

/-- The machine with another program and another count of instructions to go and done. -/
def under (q : Program) (fuel steps : Nat) (m : Machine) : Machine := { m with program := q, fuel, steps }

/-- The frames are at the same place of functions in relation `R`. -/
def FramesAlike (R : Function → Function → Prop) (a b : Frame) : Prop := R a.function b.function ∧ b.pc = a.pc

inductive NextAlike (R : Function → Function → Prop) : Next → Next → Prop
  | frame {a b : Frame} (h : FramesAlike R a b) : NextAlike R (.frame a) (.frame b)
  | call {f f' : Function} (h : R f f') : NextAlike R (.call f) (.call f')
  | ret : NextAlike R .ret .ret

/-- The results are the same up to `S`, the program and the count of instructions. -/
inductive Matched (m : Machine) (q : Program) (fuel steps : Nat) (S : α → β → Prop) :
    EStateM.Result Fault Machine α → EStateM.Result Fault Machine β → Prop
  | ok {a : α} {c : β} {m' : Machine} (h : S a c) (hm : Kept m m') :
    Matched m q fuel steps S (.ok a m') (.ok c (m'.under q fuel steps))
  | error {e : Fault} {m' : Machine} (he : ∀ k, e ≠ .outOfFuel k) (hm : Kept m m') :
    Matched m q fuel steps S (.error e m') (.error e (m'.under q fuel steps))

theorem Matched.after {fuel steps : Nat} {S : α → β → Prop} {r : EStateM.Result Fault Machine α}
    {r' : EStateM.Result Fault Machine β} (hm : Kept m m') (h : Matched m' q fuel steps S r r') :
    Matched m q fuel steps S r r' := by
  cases h with
  | ok h hkept => exact .ok h (hm.trans hkept)
  | error he hkept => exact .error he (hm.trans hkept)

/-- `y` does with the program `q` what `x` does with `p`. -/
def Matches (p q : Program) (S : α → β → Prop) (x : Exec α) (y : Exec β) : Prop :=
  ∀ m fuel steps, m.program = p → Matched m q fuel steps S (x m) (y (m.under q fuel steps))

namespace Matches

variable {S : α → β → Prop} {T : γ → δ → Prop} {x : Exec α} {y : Exec β} {f : α → Exec γ} {g : β → Exec δ}

theorem pure {a : α} {c : β} (h : S a c) : Matches p q S (Pure.pure a) (Pure.pure c) := fun m _ _ _ => .ok h (.refl m)

theorem throw {e : Fault} (he : ∀ k, e ≠ .outOfFuel k) : Matches p q S (throw e) (throw e) :=
  fun m _ _ _ => .error he (.refl m)

theorem modify {g : Machine → Machine} (h : ∀ m fuel steps, g (m.under q fuel steps) = (g m).under q fuel steps)
    (hkept : ∀ m, Kept m (g m)) : Matches p q (· = ·) (modify g) (modify g) := by
  intro m fuel steps _
  rw [modify_eq, modify_eq, h]
  exact .ok rfl (hkept m)

theorem bind (hx : Matches p q S x y) (hf : ∀ a c, S a c → Matches p q T (f a) (g c)) :
    Matches p q T (x >>= f) (y >>= g) := by
  intro m fuel steps hp
  have hm := hx m fuel steps hp
  simp only [Bind.bind, EStateM.bind]
  generalize x m = r, y (m.under q fuel steps) = r' at hm
  cases hm with
  | error he hkept => exact .error he hkept
  | ok h hkept => exact (hf _ _ h _ fuel steps (hkept.1.trans hp)).after hkept

theorem get {f : Machine → Exec γ} {g : Machine → Exec δ}
    (h : ∀ m fuel steps, m.program = p → Matches p q T (f m) (g (m.under q fuel steps))) :
    Matches p q T (MonadState.get >>= f) (MonadState.get >>= g) :=
  fun m fuel steps hp => h m fuel steps hp m fuel steps hp

theorem ite {c c' : Prop} [Decidable c] [Decidable c'] {x₁ x₂ : Exec α} {y₁ y₂ : Exec β} (hc : c' ↔ c)
    (h₁ : Matches p q S x₁ y₁) (h₂ : Matches p q S x₂ y₂) :
    Matches p q S (if c then x₁ else x₂) (if c' then y₁ else y₂) := by
  by_cases h : c
  · rwa [if_pos h, if_pos (hc.mpr h)]
  · rwa [if_neg h, if_neg fun h' => h (hc.mp h')]

/-- What does not look at the program. -/
theorem andThen {f : α → Exec γ} {g : α → Exec δ} {x : Exec α} (hx : Matches p q (· = ·) x x)
    (hf : ∀ a, Matches p q T (f a) (g a)) : Matches p q T (x >>= f) (x >>= g) :=
  hx.bind fun a _ h => h ▸ hf a

end Matches

theorem matches_load (address : UInt64) : Matches p q (· = ·) (load address) (load address) := by
  refine .get fun m _ _ _ => ?_
  simp only [under]
  split
  · exact .pure rfl
  · exact .throw nofun

theorem matches_store (address value : UInt64) : Matches p q (· = ·) (store address value) (store address value) := by
  refine .get fun m _ _ _ => ?_
  dsimp only [under]
  split
  next i _ => exact .modify (g := fun m => { m with memory := m.memory.setWordAt i value }) (fun _ _ _ => rfl) fun _ => ⟨rfl, rfl, List.prefix_rfl⟩
  · exact .throw nofun

theorem matches_growStack (bytes : UInt64) : Matches p q (· = ·) (growStack bytes) (growStack bytes) :=
  .get fun _ _ _ _ => .ite Iff.rfl (.pure rfl) (.throw nofun)

theorem matches_setRsp (rsp : UInt64) : Matches p q (· = ·) (setRsp rsp) (setRsp rsp) := .modify (fun _ _ _ => rfl) fun _ => ⟨rfl, rfl, List.prefix_rfl⟩

theorem matches_setRbp (rbp : UInt64) : Matches p q (· = ·) (setRbp rbp) (setRbp rbp) := .modify (fun _ _ _ => rfl) fun _ => ⟨rfl, rfl, List.prefix_rfl⟩

theorem matches_pushNative (value : UInt64) : Matches p q (· = ·) (pushNative value) (pushNative value) :=
  (matches_growStack 8).andThen fun rsp => (matches_setRsp rsp).andThen fun _ => matches_store rsp value

theorem matches_popNative : Matches p q (· = ·) popNative popNative :=
  .get fun _ _ _ _ => (matches_load _).andThen fun _ => .andThen (.modify (fun _ _ _ => rfl) fun _ => ⟨rfl, rfl, List.prefix_rfl⟩) fun _ => .pure rfl

theorem matches_push (value : UInt64) : Matches p q (· = ·) (push value) (push value) := .modify (fun _ _ _ => rfl) fun _ => ⟨rfl, rfl, List.prefix_rfl⟩

theorem matches_clearStack : Matches p q (· = ·) clearStack clearStack := .modify (fun _ _ _ => rfl) fun _ => ⟨rfl, rfl, List.prefix_rfl⟩

theorem matches_pop {f f' : Function} (h : f'.name = f.name) (i : Instr) :
    Matches p q (· = ·) (pop f i) (pop f' i) := by
  refine .get fun m _ _ _ => ?_
  simp only [under, h]
  split
  · exact .throw nofun
  · exact .andThen (.modify (fun _ _ _ => rfl) fun _ => ⟨rfl, rfl, List.prefix_rfl⟩) fun _ => .pure rfl

theorem matches_labelAddress (h : p.Alike R q) (name : String) :
    Matches p q (· = ·) (labelAddress name) (labelAddress name) := by
  refine .get fun m _ _ hp => ?_
  simp only [under, h.strings, h.index, hp]
  split
  · exact .pure rfl
  split
  · exact .pure rfl
  split
  · exact .pure rfl
  · exact .throw nofun

section

variable {a c : Frame} (i : Instr)

theorem matches_jump (h : p.Alike R q) (hf : FramesAlike R a c) : Matches p q (NextAlike R) (exec.jump a i) (exec.jump c i) := by
  have hname := (h.alike hf.1).name
  have hjump := (h.alike hf.1).jump i.index
  unfold exec.jump
  dsimp only
  rw [hname]
  cases ha : a.function.jumpTarget? i.index with
  | none =>
    simp only [ha, reduceCtorEq, false_and, iff_false] at hjump
    cases hc : c.function.jumpTarget? i.index with
    | none => exact .throw nofun
    | some t =>
      dsimp only
      rw [if_neg fun hle => hjump t ⟨hc, hle⟩]
      exact .throw nofun
  | some t =>
    dsimp only
    split
    next hle =>
      obtain ⟨hc, hle'⟩ := (hjump t).mpr ⟨ha, hle⟩
      simp only [hc, if_pos hle']
      exact .pure (.frame ⟨hf.1, rfl⟩)
    next hle =>
      cases hc : c.function.jumpTarget? i.index with
      | none => exact .throw nofun
      | some t' =>
        dsimp only
        rw [if_neg fun hle' => ?_]
        · exact .throw nofun
        · obtain ⟨ht, hle''⟩ := (hjump t').mp ⟨hc, hle'⟩
          rw [ha] at ht
          cases ht
          exact hle hle''

theorem matches_exec (h : p.Alike R q) (hf : FramesAlike R a c) : Matches p q (NextAlike R) (exec a i) (exec c i) := by
  have hname := (h.alike hf.1).name
  have hnext : Matches p q (NextAlike R) (Pure.pure (.frame a)) (Pure.pure (.frame c)) := .pure (.frame hf)
  have hpush (v : UInt64) : Matches p q (NextAlike R) (do push v; return .frame a) (do push v; return .frame c) :=
    (matches_push v).andThen fun _ => hnext
  have hpop := matches_pop (p := p) (q := q) hname i
  unfold exec
  dsimp only
  split
  -- nop, setupGlobal
  · exact hnext
  · exact matches_clearStack.andThen fun _ => hnext
  -- pushSign, pushUnsign
  · exact hpush _
  · exact hpush _
  -- pushStack, pushGlobal
  · exact .get fun _ _ _ _ => (matches_load _).andThen hpush
  · exact (matches_load _).andThen hpush
  -- pushGea
  · exact hpush _
  · exact (matches_labelAddress h _).andThen hpush
  -- pushSea
  · exact .get fun _ _ _ _ => hpush _
  -- pop, clone
  · exact hpop.bind fun _ _ _ => hnext
  · exact hpop.bind fun v _ hv => hv ▸ (matches_push v).andThen fun _ => hpush v
  -- framePush, framePop
  · exact .get fun _ _ _ _ => (matches_pushNative _).andThen fun _ => .get fun _ _ _ _ =>
      (matches_setRbp _).andThen fun _ => hnext
  · exact .get fun _ _ _ _ => (matches_setRsp _).andThen fun _ => matches_popNative.andThen fun _ =>
      (matches_setRbp _).andThen fun _ => hnext
  -- alloc, free
  · exact (matches_growStack _).andThen fun _ => (matches_setRsp _).andThen fun _ => hnext
  · exact .get fun _ _ _ _ => .ite Iff.rfl ((matches_setRsp _).andThen fun _ => hnext) (.throw nofun)
  -- load, store
  · exact hpop.bind fun v _ hv => hv ▸ (matches_load v).andThen hpush
  · exact hpop.bind fun v _ hv => hpop.bind fun w _ hw => hv ▸ hw ▸ (matches_store v w).andThen fun _ => hnext
  -- jump, jumpIf, jumpIfNot
  · exact matches_jump i h hf
  · refine hpop.bind fun v _ hv => hv ▸ ?_
    split
    · exact matches_jump i h hf
    · exact hnext
  · refine hpop.bind fun v _ hv => hv ▸ ?_
    split
    · exact matches_jump i h hf
    · exact hnext
  -- ret
  · exact .pure .ret
  -- call
  · refine .get fun m _ _ hp => ?_
    simp only [under, hp]
    have hfound := h.function? ‹String›
    generalize p.function? _ = found, q.function? _ = found' at hfound
    cases hfound with
    | some hg =>
      obtain ⟨hexternal, hg⟩ := hg
      simp only [hexternal]
      split
      · exact .throw nofun
      next hinner => exact .pure (.call (hg (Bool.not_eq_true _ ▸ hinner)))
    | none =>
      dsimp only
      split
      · refine hpop.bind fun v _ hv => hv ▸ .andThen (.modify (fun _ _ _ => rfl) fun m => ⟨rfl, rfl, ?_⟩) fun _ => hnext
        rw [Extends, Array.toList_push]
        exact List.prefix_append _ _
      · exact .throw nofun
  -- operations on one or two values
  · split
    · exact hpop.bind fun v _ hv => hv ▸ hpush _
    · refine hpop.bind fun v _ hv => hpop.bind fun w _ hw => hv ▸ hw ▸ ?_
      split
      · exact hpush _
      · rw [hname]
        exact .throw nofun
    · rw [hname]
      exact .throw nofun

theorem Matched.eq {fuel steps : Nat} {r r' : EStateM.Result Fault Machine Next}
    (h : Matched m q fuel steps (NextAlike (· = ·)) r r') : Matched m q fuel steps (· = ·) r r' := by
  cases h with
  | error he hm => exact .error he hm
  | ok h hm =>
    refine .ok ?_ hm
    cases h with
    | @frame a b h => rw [show a = b from congrArg₂ Frame.mk h.1 h.2.symm]
    | call h => rw [h]
    | ret => rfl

end

end Machine
end Wordstack
