/-
Code for expressions computes what they mean. How the variables are kept does not matter
here: whatever relates stores to machines will do, as long as reading, writing and calling
by name are found on both sides.
-/
import Wordstack.Proofs.Heights
import Wordstack.Proofs.Meaning
import Wordstack.Proofs.Run

namespace Wordstack

open Lower Machine

/-! ## Runs within a function -/

/-- Faults that may end a run, and after how many instructions they may. -/
abbrev Faults := Fault → Nat → Prop

/-- The frames may take more room than there is, unless it is `roomy`. -/
def Faults.overflow (roomy : Prop) : Faults := fun e _ => e = .stackOverflow ∧ ¬ roomy

/-- The run ends in one of the faults. -/
def Machine.Stops (F : Faults) (c : Config) : Prop :=
  ∃ k e, F e (c.machine.steps + k) ∧
    ∀ n, ∃ m, runFrom (n + k) c.frame c.callers { c.machine with fuel := n + k } = .error e m

/-- A run of `f` from `pc` on comes to a position and a machine as `Q` says, or ends in a fault. -/
def Runs (F : Faults) (f : Function) (callers : List Frame) (pc : Nat) (m : Machine)
    (Q : Nat → Machine → Prop) : Prop :=
  (∃ k pc' m', Goes k ⟨⟨f, pc⟩, callers, m⟩ ⟨⟨f, pc'⟩, callers, m'⟩ ∧ Q pc' m') ∨ Stops F ⟨⟨f, pc⟩, callers, m⟩

theorem Machine.Goes.stops {F : Faults} {j : Nat} {c c' : Config} (h : Goes j c c') (hs : Stops F c') : Stops F c := by
  obtain ⟨k, e, hf, hs⟩ := hs
  refine ⟨k + j, e, ?_, fun n => ?_⟩
  · rwa [Nat.add_comm k, ← Nat.add_assoc, ← h.steps]
  · obtain ⟨m, hm⟩ := hs n
    exact ⟨m, by rw [← Nat.add_assoc, h.run, hm]⟩

namespace Runs

variable {F : Faults} {f : Function} {callers : List Frame} {pc : Nat} {m : Machine}
  {Q R : Nat → Machine → Prop}

theorem here (h : Q pc m) : Runs F f callers pc m Q := .inl ⟨0, pc, m, .refl _, h⟩

theorem fault {i : Instr} {e : Fault} (hi : f.code[pc]? = some i) (he : F e (m.steps + 1))
    (h : ∀ n, ∃ m', exec ⟨f, pc + 1⟩ i (m.ticked n) = .error e m') : Runs F f callers pc m Q := by
  refine .inr ⟨1, e, he, fun n => ?_⟩
  obtain ⟨m', hm'⟩ := h n
  refine ⟨m', ?_⟩
  rw [runFrom_succ hi]
  simp only [hm']

theorem step {k pc' : Nat} {m' : Machine} (h : Goes k ⟨⟨f, pc⟩, callers, m⟩ ⟨⟨f, pc'⟩, callers, m'⟩)
    (hr : Runs F f callers pc' m' Q) : Runs F f callers pc m Q := by
  rcases hr with ⟨j, pc'', m'', hg, hq⟩ | hs
  · exact .inl ⟨j + k, pc'', m'', h.trans hg, hq⟩
  · exact .inr (h.stops hs)

theorem bind (hr : Runs F f callers pc m R) (h : ∀ pc' m', R pc' m' → Runs F f callers pc' m' Q) :
    Runs F f callers pc m Q := by
  rcases hr with ⟨k, pc', m', hg, hq⟩ | ho
  · exact step hg (h pc' m' hq)
  · exact .inr ho

theorem mono (hr : Runs F f callers pc m R) (h : ∀ pc' m', R pc' m' → Q pc' m') : Runs F f callers pc m Q :=
  hr.bind fun pc' m' hq => here (h pc' m' hq)

end Runs

/-! ## Code without jumps out of it -/

/-- Wherever `cs` stands, it is run from its start to its end, and leaves a machine as `Q` says. -/
def Does (F : Faults) (cs : List Command) (m : Machine) (Q : Machine → Prop) : Prop :=
  ∀ f callers pc, f.Holds pc cs → Runs F f callers pc m fun pc' m' => pc' = pc + cs.length ∧ Q m'

namespace Does

variable {F : Faults} {cs ds : List Command} {m : Machine} {Q R : Machine → Prop} {span : Span} {v : UInt64}
  {st : List UInt64}

theorem nil (h : Q m) : Does F [] m Q := fun _ _ _ _ => .here ⟨rfl, h⟩

theorem append (h₁ : Does F cs m R) (h₂ : ∀ m', R m' → Does F ds m' Q) : Does F (cs ++ ds) m Q := by
  intro f callers pc hcode
  refine (h₁ f callers pc hcode.left).bind ?_
  rintro _ m' ⟨rfl, hr⟩
  refine (h₂ m' hr f callers _ hcode.right).mono ?_
  rintro _ m'' ⟨rfl, hq⟩
  exact ⟨by rw [List.length_append, Nat.add_assoc], hq⟩

theorem mono (h : Does F cs m R) (hq : ∀ m', R m' → Q m') : Does F cs m Q :=
  fun f callers pc hcode => (h f callers pc hcode).mono fun _ _ h => ⟨h.1, hq _ h.2⟩

/-- One instruction that goes on to the next one. -/
theorem command {c : Command} {m' : Machine}
    (h : ∀ f callers pc, f.code[pc]? = some ⟨c, pc⟩ → Goes 1 ⟨⟨f, pc⟩, callers, m⟩ ⟨⟨f, pc + 1⟩, callers, m'⟩)
    (hq : Q m') : Does F [c] m Q :=
  fun f callers pc hcode => .step (h f callers pc hcode.head) (.here ⟨rfl, hq⟩)

theorem pushUnsign (h : Q { m with steps := m.steps + 1, stack := v :: m.stack }) :
    Does F [{ op := .pushUnsign, operand := .unsigned v, span }] m Q :=
  command (fun _ _ _ hi => .pushUnsign hi) h

theorem pop (hs : m.stack = v :: st) (h : Q { m with steps := m.steps + 1, stack := st }) :
    Does F [{ op := .pop, span }] m Q :=
  command (fun _ _ _ hi => .pop hi hs) h

theorem store {a : UInt64} {i : Nat} (hs : m.stack = a :: v :: st) (ho : m.memory.offset? a = some i)
    (h : Q { m with steps := m.steps + 1, stack := st, memory := m.memory.setWordAt i v }) :
    Does F [{ op := .store, span }] m Q :=
  command (fun _ _ _ hi => .store hi hs ho) h

theorem unary {op : Opcode} {apply : UInt64 → UInt64} (hop : op.unary? = some apply) (hs : m.stack = v :: st)
    (h : Q { m with steps := m.steps + 1, stack := apply v :: st }) : Does F [{ op, span }] m Q :=
  command (fun _ _ _ hi => .unary hi hop hs) h

theorem binary {op : Opcode} {apply : UInt64 → UInt64 → Option UInt64} {l r : UInt64}
    (hop : op.binary? = some apply) (hs : m.stack = l :: r :: st) (hv : apply l r = some v)
    (h : Q { m with steps := m.steps + 1, stack := v :: st }) : Does F [{ op, span }] m Q :=
  command (fun _ _ _ hi => .binary hi hop hs hv) h

/-- The second piece is skipped if the value that the first one leaves decides. -/
theorem shortCircuit {skip : Opcode} {taken : UInt64 → Prop} [DecidablePred taken]
    (hskip : skip = .jumpIf ∧ (∀ v, taken v ↔ v ≠ 0) ∨ skip = .jumpIfNot ∧ ∀ v, taken v ↔ v = 0)
    (hl : Does F cs m fun m' => m'.stack = v :: st ∧ if taken v then Q { m' with steps := m'.steps + 2 } else
      Does F ds { m' with steps := m'.steps + 3, stack := st } Q) :
    Does F (shortCircuit skip span cs ds) m Q := by
  intro f callers pc hcode
  have hlen : (Wordstack.shortCircuit skip span cs ds).length = cs.length + (3 + ds.length) := by
    simp only [Wordstack.shortCircuit, List.length_append, List.length_cons, List.length_nil]
    omega
  have hend := hcode.length_le (by intro h; rw [h, List.length_nil] at hlen; omega)
  rw [hlen] at hend ⊢
  have hcode : f.Holds pc (cs ++ ({ op := .clone, span } :: { op := skip, operand := .signed (ds.length + 1), span } ::
      { op := .pop, span } :: ds)) := by simpa [Wordstack.shortCircuit] using hcode
  have htail := hcode.right
  refine (hl f callers pc hcode.left).bind ?_
  rintro _ m' ⟨rfl, hs, hq⟩
  refine .step (.clone htail.head hs) (.step (Goes.skip (m := { m' with steps := m'.steps + 1, stack := v :: v :: st })
    (t := pc + (cs.length + (3 + ds.length))) hskip htail.tail.head rfl (by omega) hend) ?_)
  by_cases ht : taken v
  · rw [if_pos ht] at hq ⊢
    refine .here ⟨rfl, ?_⟩
    rw [← hs]
    exact hq
  · rw [if_neg ht] at hq ⊢
    refine .step (.pop htail.tail.tail.head rfl) ?_
    refine (hq f callers _ htail.tail.tail.tail).mono ?_
    rintro _ m'' ⟨rfl, hq⟩
    exact ⟨by omega, hq⟩

end Does

/-! ## Variables -/

/-- Where a variable lies if the base of the frame is `rbp`. -/
def Storage.address (rbp : UInt64) : Storage → UInt64
  | .stack o => rbp - o.toUInt64
  | .static o => Memory.base + o.toUInt64

/-- Puts the address of a variable on the stack. -/
def Storage.addressCommand (span : Span) : Storage → Command
  | .stack o => { op := .pushSea, operand := .unsigned o.toUInt64, span }
  | .static o => { op := .pushGea, operand := .unsigned o.toUInt64, span }

/-- A name stands for a variable of one word that is kept at `o`. -/
structure SymbolInfo.KeptAt (s : SymbolInfo) (o : Storage) : Prop where
  kind : s.kind = .var
  scalar : s.isArray = false
  storage : s.storage = some o

section

variable {F : Faults} {m : Machine} {Q : Machine → Prop} {span : Span} {v : UInt64}

theorem Does.read {o : Storage} (hv : m.memory.load? (o.address m.rbp) = some v)
    (h : Q { m with steps := m.steps + 1, stack := v :: m.stack }) :
    Does F (readVariable o false span) m Q := by
  cases o with
  | stack o => exact command (fun _ _ _ hi => .pushStack hi hv) h
  | static o => exact command (fun _ _ _ hi => .pushGlobal hi hv) h

theorem Does.address (o : Storage) (h : Q { m with steps := m.steps + 1, stack := o.address m.rbp :: m.stack }) :
    Does F [o.addressCommand span] m Q := by
  cases o with
  | stack o => exact command (fun _ _ _ hi => .pushSea hi) h
  | static o => exact command (fun _ _ _ hi => .pushGea hi) h

end

section

variable {env : Env} {t : Token} {s : SymbolInfo} {o : Storage} {v : UInt64} {cs : List Command}

/-- A variable is read from where it is kept. -/
theorem AtomCode.eq_read (h : AtomCode env t cs) (ht : t.isIdent = true) (hs : env.lookup? t.text = some s) (hk : s.KeptAt o) :
    cs = readVariable o false t.span := by
  cases h with
  | «variable» _ hs' _ ho =>
    obtain rfl := Option.some.inj (hs'.symm.trans hs)
    obtain rfl := Option.some.inj (ho.symm.trans hk.storage)
    rw [hk.scalar]
  | function _ h =>
    rcases h with ⟨s', hs', hk'⟩ | ⟨hnone, -⟩
    · obtain rfl := Option.some.inj (hs'.symm.trans hs)
      rw [hk.kind] at hk'
      rcases hk' with hk' | hk' <;> cases hk'
    · cases hnone.symm.trans hs
  | text hid | number hid => exact absurd (hid.symm.trans ht) (by decide)

theorem Token.of_value? (hv : t.value? = some v) :
    (t.kind = .integer ∨ t.kind = .keyword .trueWord ∨ t.kind = .keyword .falseWord) ∧ t.literal = .unsigned v := by
  unfold Token.value? at hv
  split at hv
  case h_4 => cases hv
  all_goals
    cases hv
    simp [*]

theorem Token.isIdent_of_value? (hv : t.value? = some v) : t.isIdent = false := by
  rcases (Token.of_value? hv).1 with hk | hk | hk <;> simp [Token.isIdent, hk]

theorem AtomCode.eq_literal (h : AtomCode env t cs) (hv : t.value? = some v) :
    cs = [{ op := .pushUnsign, operand := .unsigned v, span := t.span }] := by
  have hid := Token.isIdent_of_value? hv
  have hl := (Token.of_value? hv).2
  cases h with
  | «variable» ht | function ht => exact absurd (hid.symm.trans ht) (by decide)
  | text _ hs => cases hs.symm.trans hl
  | number _ hn =>
    rw [hl] at hn
    rcases hn with hn | hn <;> cases hn
    rfl

/-- What is written to is found where it would be read from. -/
theorem LvalueCode.of_read (h : LvalueCode .store (readVariable o false t.span) cs) :
    cs = [o.addressCommand t.span, { op := .store, span := t.span }] := by
  generalize hread : readVariable o false t.span = read at h
  cases h with
  | last hop =>
    cases o <;> obtain ⟨rfl, hc⟩ := List.append_eq_singleton_iff.mp hread.symm |>.resolve_right nofun <;> cases hc <;>
      cases hop <;> rfl

end

/-! ## Stores and machines -/

/-- `I` relates stores to machines in which the variables of `env` are kept and functions do what `call`
says. -/
structure Env.Represents (F : Faults) (arity : Arities) (call : Caller) (hidden : Option String) (env : Env)
    (I : Store → Machine → Prop) : Prop where
  arities : env.AritiesOK arity
  /-- The operand stack is not part of it. -/
  stack : ∀ {σ m} steps stack, I σ m → I σ { m with steps, stack }
  read : ∀ {σ m x v}, I σ m → σ.read hidden x = some v →
    ∃ s o, env.lookup? x = some s ∧ s.KeptAt o ∧ m.memory.load? (o.address m.rbp) = some v
  write : ∀ {σ m x v σ'}, I σ m → σ.write hidden x v = some σ' →
    ∃ s o i, env.lookup? x = some s ∧ s.KeptAt o ∧ m.memory.offset? (o.address m.rbp) = some i ∧
      I σ' { m with memory := m.memory.setWordAt i v }
  calls : ∀ {σ m name args v? world stack} span, I σ m → call name args σ.toWorld = some (v?, world) →
    m.stack = args ++ stack → Does F [{ op := .call, operand := .label name, span }] m fun m' =>
      (∀ a, arity name = some a → a.2 = v?.toList.length) ∧ m'.stack = v?.toList ++ stack ∧
        I { σ with toWorld := world } m'

section

variable (F : Faults) (arity : Arities) (call : Caller) (hidden : Option String) (env : Env)

/-- Code that leaves the value of an expression, if it has one. -/
def Expr.Computed (e : Expr) (p : Produced) : Prop :=
  ∀ I σ v? σ', env.Represents F arity call hidden I → e.eval call hidden σ = some (v?, σ') →
    ∀ m, I σ m → Does F p.code m fun m' =>
      p.values = v?.toList.length ∧ m'.stack = v?.toList ++ m.stack ∧ I σ' m'

/-- Code that leaves the value of an expression that has to have one. -/
def Expr.ComputedValue (e : Expr) (cs : List Command) : Prop :=
  ∀ I σ v σ', env.Represents F arity call hidden I → (e.eval call hidden σ).bind valueOf? = some (v, σ') →
    ∀ m, I σ m → Does F cs m fun m' => m'.stack = v :: m.stack ∧ I σ' m'

end

theorem of_valueOf? {r? : Option (Option UInt64 × Store)} {v : UInt64} {σ : Store}
    (h : r?.bind valueOf? = some (v, σ)) : r? = some (some v, σ) := by
  obtain ⟨⟨v?, σ'⟩, rfl, h⟩ := Option.bind_eq_some_iff.mp h
  cases v? with
  | none => cases h
  | some v' =>
    cases h
    rfl

section

variable {F : Faults} {arity : Arities} {call : Caller} {hidden : Option String} {env : Env} {e : Expr}

theorem Expr.Computed.value {p : Produced} (h : e.Computed F arity call hidden env p) :
    e.ComputedValue F arity call hidden env p.code :=
  fun I σ v σ' hI he m hm => (h I σ (some v) σ' hI (of_valueOf? he) m hm).mono fun _ h => h.2

theorem AtomCode.computed {t : Token} {cs : List Command} (h : AtomCode env t cs) :
    (Expr.atom t).Computed F arity call hidden env ⟨cs, 1⟩ := by
  intro I σ v? σ' hI he m hm
  simp only [Expr.eval] at he
  obtain ⟨v, hv, he⟩ := Option.map_eq_some_iff.mp he
  cases he
  split at hv
  next hid =>
    obtain ⟨s, o, hs, hk, hload⟩ := hI.read hm hv
    rw [h.eq_read hid hs hk]
    exact .read hload ⟨rfl, rfl, hI.stack _ _ hm⟩
  · rw [h.eq_literal hv]
    exact .pushUnsign ⟨rfl, rfl, hI.stack _ _ hm⟩

theorem Expr.of_name? {e : Expr} {x : String} (h : e.name? = some x) : ∃ t, e = .atom t ∧ t.isIdent = true ∧ t.text = x := by
  unfold Expr.name? at h
  split at h
  next t =>
    split at h
    next hid => exact ⟨t, rfl, hid, Option.some.inj h⟩
    · cases h
  · cases h

/-! ## Operators -/

theorem Expr.lower_binary {op : BinaryOp} (hop : op.opcode ≠ .invalid) (env : Env) (t : Token) (l r : Expr) :
    (Expr.binary op t l r).lower env = do
      let right ← single r (← r.lower env)
      let left ← single l (← l.lower env)
      return ⟨right ++ left ++ [{ op := op.opcode, span := t.span }], 1⟩ := by
  cases op <;> first | rfl | exact absurd rfl hop

theorem Expr.eval_binary {op : BinaryOp} (hop : op.opcode ≠ .invalid) (t : Token) (l r : Expr) (σ : Store) :
    (Expr.binary op t l r).eval call hidden σ = do
      let (b, σ) ← (r.eval call hidden σ).bind valueOf?
      let (a, σ) ← (l.eval call hidden σ).bind valueOf?
      return (some (← op.apply a b), σ) := by
  cases op <;> first | rfl | exact absurd rfl hop

variable {l r : Expr} {t : Token} {left right : List Command}

theorem Expr.computed_unary {op : UnaryOp} {cs : List Command} (he : e.ComputedValue F arity call hidden env cs) :
    (Expr.unary op t e).Computed F arity call hidden env ⟨cs ++ [{ op := op.opcode, span := t.span }], 1⟩ := by
  intro I σ v? σ' hI h m hm
  simp only [Expr.eval] at h
  obtain ⟨⟨v, σ₁⟩, h₁, h⟩ := Option.bind_eq_some_iff.mp h
  obtain ⟨w, hw, h⟩ := Option.bind_eq_some_iff.mp h
  cases h
  refine (he I σ v σ₁ hI h₁ m hm).append fun m₁ ⟨hs₁, hm₁⟩ => ?_
  obtain ⟨apply, hop, happly⟩ := UnaryOp.opcode_apply hw
  rw [happly] at hw
  cases hw
  exact .unary hop hs₁ ⟨rfl, rfl, hI.stack _ _ hm₁⟩

theorem Expr.computed_binary {op : BinaryOp} (hop : op.opcode ≠ .invalid)
    (hl : l.ComputedValue F arity call hidden env left) (hr : r.ComputedValue F arity call hidden env right) :
    (Expr.binary op t l r).Computed F arity call hidden env
      ⟨right ++ left ++ [{ op := op.opcode, span := t.span }], 1⟩ := by
  intro I σ v? σ' hI h m hm
  rw [Expr.eval_binary hop] at h
  obtain ⟨⟨b, σ₁⟩, h₁, h⟩ := Option.bind_eq_some_iff.mp h
  obtain ⟨⟨a, σ₂⟩, h₂, h⟩ := Option.bind_eq_some_iff.mp h
  obtain ⟨w, hw, h⟩ := Option.bind_eq_some_iff.mp h
  cases h
  obtain ⟨apply, hopcode, happly⟩ := BinaryOp.opcode_apply hop
  -- the left operand ends up on top of the right one
  have hboth : Does F (right ++ left) m fun m₂ => m₂.stack = a :: b :: m.stack ∧ I σ' m₂ :=
    (hr I σ b σ₁ hI h₁ m hm).append fun m₁ ⟨hs₁, hm₁⟩ => by
      rw [← hs₁]
      exact hl I σ₁ a σ' hI h₂ m₁ hm₁
  refine hboth.append fun m₂ ⟨hs₂, hm₂⟩ => ?_
  exact .binary hopcode hs₂ ((happly a b).trans hw) ⟨rfl, rfl, hI.stack _ _ hm₂⟩

/-- The left operand decides if it is as `taken` says; the one that decides is what is left. -/
theorem Expr.computed_shortCircuit {op : BinaryOp} {skip : Opcode} {taken : UInt64 → Prop} [DecidablePred taken]
    (hskip : skip = .jumpIf ∧ (∀ v, taken v ↔ v ≠ 0) ∨ skip = .jumpIfNot ∧ ∀ v, taken v ↔ v = 0)
    (heval : ∀ σ, (Expr.binary op t l r).eval call hidden σ = do
      let (v, σ) ← (l.eval call hidden σ).bind valueOf?
      if taken v then return (some v, σ)
      else
        let (v, σ) ← (r.eval call hidden σ).bind valueOf?
        return (some v, σ))
    (hl : l.ComputedValue F arity call hidden env left)
    (hr : r.ComputedValue F arity call hidden env right) :
    (Expr.binary op t l r).Computed F arity call hidden env ⟨shortCircuit skip t.span left right, 1⟩ := by
  intro I σ v? σ' hI h m hm
  rw [heval] at h
  obtain ⟨⟨v, σ₁⟩, h₁, h⟩ := Option.bind_eq_some_iff.mp h
  dsimp only at h
  refine .shortCircuit hskip ((hl I σ v σ₁ hI h₁ m hm).mono fun m₁ ⟨hs₁, hm₁⟩ => ⟨hs₁, ?_⟩)
  by_cases hv : taken v
  · rw [if_pos hv] at h ⊢
    cases h
    exact ⟨rfl, hs₁, hI.stack _ _ hm₁⟩
  · rw [if_neg hv] at h ⊢
    obtain ⟨⟨w, σ₂⟩, h₂, h⟩ := Option.bind_eq_some_iff.mp h
    cases h
    exact (hr I σ₁ w _ hI h₂ _ (hI.stack _ m.stack hm₁)).mono fun _ h => ⟨rfl, h⟩

theorem Expr.computed_assign {value read store : List Command} (hr : r.ComputedValue F arity call hidden env value)
    (hl : l.Coded env read 1) (hstore : LvalueCode .store read store) :
    (Expr.binary .assign t l r).Computed F arity call hidden env ⟨value ++ store, 0⟩ := by
  intro I σ v? σ' hI h m hm
  simp only [Expr.eval] at h
  obtain ⟨x, hx, h⟩ := Option.bind_eq_some_iff.mp h
  obtain ⟨⟨v, σ₁⟩, h₁, h⟩ := Option.bind_eq_some_iff.mp h
  obtain ⟨σ₂, hwrite, h⟩ := Option.bind_eq_some_iff.mp h
  cases h
  refine (hr I σ v σ₁ hI h₁ m hm).append fun m₁ ⟨hs₁, hm₁⟩ => ?_
  obtain ⟨s, o, i, hs, hk, ho, hm₂⟩ := hI.write hm₁ hwrite
  obtain ⟨name, rfl, hid, rfl⟩ := Expr.of_name? hx
  obtain rfl := hl.atomCode.eq_read hid hs hk
  obtain rfl := hstore.of_read
  have hstack : o.address m₁.rbp :: m₁.stack = o.address m₁.rbp :: v :: m.stack := by rw [hs₁]
  have hend := hI.stack (m₁.steps + 1 + 1) m.stack hm₂
  refine Does.append (R := fun m₂ => m₂ = { m₁ with steps := m₁.steps + 1, stack := o.address m₁.rbp :: m₁.stack })
    (Does.address o rfl) ?_
  rintro _ rfl
  exact Does.store hstack ho ⟨rfl, rfl, hend⟩

/-! ## Calls -/

/-- Code that leaves the values of the arguments of a call. -/
def Expr.ComputedArgs (F : Faults) (arity : Arities) (call : Caller) (hidden : Option String) (env : Env) (args : List Expr)
    (cs : List Command) : Prop :=
  ∀ I σ vs σ', env.Represents F arity call hidden I → Expr.evalArgs call hidden args σ = some (vs, σ') →
    ∀ m, I σ m → Does F cs m fun m' => m'.stack = vs ++ m.stack ∧ I σ' m'

theorem Expr.computed_call {f : Token} {args : List Expr} {argsCode : List Command} {span : Span} {values : Nat}
    (hargs : Expr.ComputedArgs F arity call hidden env args argsCode) (hf : env.Calls f.text args.length values) :
    (Expr.call t (.atom f) args).Computed F arity call hidden env
      ⟨argsCode ++ [{ op := .call, operand := .label f.text, span }], values⟩ := by
  intro I σ v? σ' hI h m hm
  simp only [Expr.eval] at h
  obtain ⟨name, hname, h⟩ := Option.bind_eq_some_iff.mp h
  obtain ⟨⟨vs, σ₁⟩, h₁, h⟩ := Option.bind_eq_some_iff.mp h
  obtain ⟨⟨w?, world⟩, hcall, h⟩ := Option.bind_eq_some_iff.mp h
  cases h
  obtain ⟨t', ⟨⟩, -, rfl⟩ := Expr.of_name? hname
  refine (hargs I σ vs σ₁ hI h₁ m hm).append fun m₁ ⟨hs₁, hm₁⟩ => ?_
  exact (hI.calls span hm₁ hcall hs₁).mono fun _ h => ⟨h.1 _ (hI.arities.calls hf), h.2⟩

theorem Expr.computedArgs_cons {es : List Expr} {first rest : List Command}
    (hrest : Expr.ComputedArgs F arity call hidden env es rest) (hfirst : e.ComputedValue F arity call hidden env first) :
    Expr.ComputedArgs F arity call hidden env (e :: es) (rest ++ first) := by
  intro I σ vs σ' hI h m hm
  simp only [Expr.evalArgs] at h
  obtain ⟨⟨ws, σ₁⟩, h₁, h⟩ := Option.bind_eq_some_iff.mp h
  obtain ⟨⟨v, σ₂⟩, h₂, h⟩ := Option.bind_eq_some_iff.mp h
  cases h
  refine (hrest I σ ws σ₁ hI h₁ m hm).append fun m₁ ⟨hs₁, hm₁⟩ => ?_
  rw [List.cons_append, ← hs₁]
  exact hfirst I σ₁ v _ hI h₂ m₁ hm₁

/-! ## Expressions -/

/-- The code of an expression computes what it means. -/
theorem Expr.Coded.computed {cs : List Command} {n : Nat} (h : e.Coded env cs n) :
    e.Computed F arity call hidden env ⟨cs, n⟩ := by
  induction h using Expr.Coded.rec (motive_2 := fun es cs _ => Expr.ComputedArgs F arity call hidden env es cs) with
  | atom h => exact h.computed
  | addressOf =>
    intro I σ v? σ' _ h
    simp only [Expr.eval] at h
    obtain ⟨_, -, h⟩ := Option.bind_eq_some_iff.mp h
    cases h
  | unary _ _ ih => exact Expr.computed_unary ih.value
  | assign _ hl _ h ihr => exact Expr.computed_assign ihr.value hl h
  | and _ _ ihl ihr => exact Expr.computed_shortCircuit (.inr ⟨rfl, fun _ => Iff.rfl⟩) (fun _ => rfl) ihl.value ihr.value
  | or _ _ ihl ihr => exact Expr.computed_shortCircuit (.inl ⟨rfl, fun _ => Iff.rfl⟩) (fun _ => rfl) ihl.value ihr.value
  | binary hop _ _ ihr ihl => exact Expr.computed_binary hop ihl.value ihr.value
  | call _ _ hf ih => exact Expr.computed_call ih hf
  | index | cast =>
    intro I σ v? σ' _ h
    cases h
  | nil =>
    intro I σ vs σ' _ h m hm
    cases h
    exact .nil ⟨rfl, hm⟩
  | cons _ _ ihes ihe => exact Expr.computedArgs_cons ihes ihe.value

end

end Wordstack
