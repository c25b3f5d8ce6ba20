/-
How many values are on the operand stack at each instruction. What an expression leaves
is counted while its code is made; if nothing is reported, the counts are right, whichever
way is taken through the code.
-/
import Wordstack.Proofs.Coded
import Wordstack.Proofs.Flow

namespace Wordstack

open Lower

/-! ## Heights -/

/-- How many values a call of a name takes and leaves. -/
abbrev Arities := String → Option (Nat × Nat)

/-- How many values a command finds on the stack and takes from it. -/
def Command.pops (arity : Arities) (c : Command) : Nat :=
  match c.op, c.operand with
  | .pop, _ | .clone, _ | .load, _ | .neg, _ | .bitNot, _ | .logNot, _ | .jumpIf, _ | .jumpIfNot, _ => 1
  | .store, _ | .add, _ | .sub, _ | .mul, _ | .div, _ | .mod, _ | .bitAnd, _ | .bitOr, _ | .bitXor, _
  | .shiftLeft, _ | .shiftRight, _ | .cmpEq, _ | .cmpNeq, _ | .cmpLt, _ | .cmpGt, _ | .cmpLte, _
  | .cmpGte, _ => 2
  | .call, .label name => ((arity name).map (·.1)).getD 0
  | _, _ => 0

/-- How many values a command puts on the stack. -/
def Command.pushes (arity : Arities) (c : Command) : Nat :=
  match c.op, c.operand with
  | .pushSign, _ | .pushUnsign, _ | .pushStack, _ | .pushGlobal, _ | .pushGea, _ | .pushSea, _ | .load, _
  | .neg, _ | .bitNot, _ | .logNot, _ | .add, _ | .sub, _ | .mul, _ | .div, _ | .mod, _ | .bitAnd, _
  | .bitOr, _ | .bitXor, _ | .shiftLeft, _ | .shiftRight, _ | .cmpEq, _ | .cmpNeq, _ | .cmpLt, _
  | .cmpGt, _ | .cmpLte, _ | .cmpGte, _ => 1
  | .clone, _ => 2
  | .call, .label name => ((arity name).map (·.2)).getD 0
  | _, _ => 0

/-- What a command makes of the height of the stack. The setup of the globals empties it. -/
def Command.moveHeight (arity : Arities) (c : Command) (h : Nat) : Nat :=
  if c.op = .setupGlobal then 0 else h - c.pops arity + c.pushes arity

/-- Where a command may stand: it finds what it takes, a call has a callee, and a function is left with
as many values as it returns. -/
structure Command.HeightOK (arity : Arities) (returns : Nat) (c : Command) (h : Nat) : Prop where
  valid : c.op ≠ .invalid
  pops : c.pops arity ≤ h
  call : c.op = .call → ∃ name a, c.operand = .label name ∧ arity name = some a
  ret : c.op = .ret → h = returns

/-- The flow of heights through a function, or through the setup of the globals, of which `setup` says
whether it may be asked for. -/
def heightFlow (arity : Arities) (returns : Nat) (setup : Bool := false) : Flow Nat where
  ok c h := (c.op = .setupGlobal → setup = true) ∧ c.HeightOK arity returns h
  next := Command.moveHeight arity
  ok_jump c h hc := by
    refine ⟨by simp [hc], by simp [hc], ?_, by simp [hc], by simp [hc]⟩
    simp only [Command.pops, hc]
    exact Nat.zero_le h
  next_jump c h hc := by simp [Command.moveHeight, Command.pops, Command.pushes, hc]

/-- Operations that take and leave the same number of values wherever they stand, and then go on. -/
def Opcode.isPlain : Opcode → Bool
  | .invalid | .call | .ret | .setupGlobal | .jump | .jumpIf | .jumpIfNot => false
  | _ => true

theorem Opcode.isPlain_cases {op : Opcode} (h : op.isPlain = true) :
    op ≠ .invalid ∧ op ≠ .call ∧ op ≠ .ret ∧ op ≠ .setupGlobal ∧ op.isJump = false := by
  revert h
  cases op <;> decide

/-- Code that finds `a` values and leaves `b` in their place. -/
def Shifts (arity : Arities) (returns a b : Nat) (cs : List Command) : Prop :=
  ∀ h loop, ∃ seen, (heightFlow arity returns).Path loop (h + a) (Code.ofCommands cs) (h + b) seen

namespace Shifts

variable {arity : Arities} {returns a b d : Nat} {cs ds : List Command} {c : Command}

theorem nil : Shifts arity returns a a [] := fun _ _ => ⟨_, Flow.Path.nil⟩

theorem append (h₁ : Shifts arity returns a b cs) (h₂ : Shifts arity returns b d ds) :
    Shifts arity returns a d (cs ++ ds) := by
  intro h loop
  obtain ⟨_, hp₁⟩ := h₁ h loop
  obtain ⟨_, hp₂⟩ := h₂ h loop
  exact ⟨_, hp₁.appendCommands hp₂⟩

/-- What lies below is not touched. -/
theorem below (h : Shifts arity returns a b cs) (k : Nat) : Shifts arity returns (k + a) (k + b) cs := by
  intro n loop
  obtain ⟨seen, hp⟩ := h (n + k) loop
  exact ⟨seen, by rwa [Nat.add_assoc, Nat.add_assoc] at hp⟩

theorem cons (hc : Shifts arity returns a b [c]) (h : Shifts arity returns b d cs) :
    Shifts arity returns a d (c :: cs) := append hc h

theorem command (hc : c.op.isPlain = true) (ha : c.pops arity = a) (hb : c.pushes arity = b) :
    Shifts arity returns a b [c] := by
  intro h loop
  obtain ⟨hv, hcall, hret, hset, hj⟩ := Opcode.isPlain_cases hc
  refine ⟨_, Flow.Path.command (F := heightFlow arity returns)
    ⟨fun h => absurd h hset, hv, by omega, fun h => absurd h hcall, fun h => absurd h hret⟩ hj fun _ => ?_⟩
  show _ = Command.moveHeight arity c _
  rw [Command.moveHeight, if_neg hset, ha, hb, Nat.add_sub_cancel]

theorem call {name : String} {params returned : Nat} {span : Span} (h : arity name = some (params, returned)) :
    Shifts arity returns params returned [{ op := .call, operand := .label name, span }] := by
  intro n loop
  refine ⟨_, Flow.Path.command (F := heightFlow arity returns)
    ⟨by simp, by simp, ?_, fun _ => ⟨name, _, rfl, h⟩, by simp⟩ rfl fun _ => ?_⟩
  · simp [Command.pops, h]
  · simp [heightFlow, Command.moveHeight, Command.pops, Command.pushes, h]

theorem popCommands (n : Nat) (span : Span) : Shifts arity returns n 0 (popCommands n span) := by
  induction n with
  | zero => exact nil
  | succ n ih =>
    have hpop : Shifts arity returns 1 0 [{ op := .pop, span }] := command rfl rfl rfl
    exact cons (hpop.below n) ih

/-- The right operand is skipped if the left one decides; one value is left either way. -/
theorem shortCircuit {skip : Opcode} (hs : skip = .jumpIf ∨ skip = .jumpIfNot) (span : Span)
    (hl : Shifts arity returns 0 1 cs) (hr : Shifts arity returns 0 1 ds) :
    Shifts arity returns 0 1 (shortCircuit skip span cs ds) := by
  intro h loop
  have hclone : Shifts arity returns 1 2 [{ op := .clone, span }] :=
    command rfl rfl rfl
  have hpop : Shifts arity returns 1 1 ({ op := .pop, span } :: ds) :=
    cons (command rfl rfl rfl) hr
  obtain ⟨_, hp₁⟩ := (append hl hclone) h loop
  obtain ⟨_, hp₂⟩ := hpop h loop
  have hskip : (heightFlow arity returns).Path loop (h + 2)
      (.command { op := skip, operand := .signed (ds.length + 1), span } ::
        Code.ofCommands ({ op := .pop, span } :: ds)) (h + 1) _ :=
    Flow.Path.skip
      (by rcases hs with rfl | rfl <;> exact ⟨by simp, by simp, by simp [Command.pops], by simp, by simp⟩)
      (by simp [Code.ofCommands])
      (by rcases hs with rfl | rfl <;> simp [heightFlow, Command.moveHeight, Command.pops, Command.pushes]) hp₂
  have hcode : Code.ofCommands (Wordstack.shortCircuit skip span cs ds) =
      Code.ofCommands (cs ++ [{ op := .clone, span }]) ++
        .command { op := skip, operand := .signed (ds.length + 1), span } ::
          Code.ofCommands ({ op := .pop, span } :: ds) := by
    simp [Wordstack.shortCircuit, Code.ofCommands]
  exact ⟨_, hcode ▸ hp₁.append hskip⟩

end Shifts

/-! ## Names -/

/-- No name in scope is in error, and calls by name take and leave what `arity` says. -/
structure Env.AritiesOK (arity : Arities) (env : Env) : Prop where
  known : ∀ x s, env.lookup? x = some s → s.kind ≠ .error ∧ (s.kind = .func → arity x = some (s.params, s.returns))
  builtin : ∀ x b, env.lookup? x = none → Builtin.ofName? x = some b → arity x = some (b.params, b.returns)

/-- Operations that put a variable or an address on the stack. -/
def Opcode.isPush : Opcode → Bool
  | .pushStack | .pushSea | .pushGlobal | .pushGea => true
  | _ => false

theorem Shifts.push {arity : Arities} {returns : Nat} {c : Command} (h : c.op.isPush = true ∨ c.op = .pushUnsign) :
    Shifts arity returns 0 1 [c] := by
  obtain ⟨op, operand, span⟩ := c
  cases op <;> first | exact command rfl rfl rfl | rcases h with h | h <;> cases h

section

variable {arity : Arities} {returns : Nat} {env : Env} {cs : List Command}

theorem Env.AritiesOK.valid (h : env.AritiesOK arity) : env.Valid := fun x s hs => (h.known x s hs).1

theorem Env.AritiesOK.calls (h : env.AritiesOK arity) {name : String} {params returned : Nat}
    (hc : env.Calls name params returned) : arity name = some (params, returned) := by
  rcases hc with ⟨s, hs, hk, rfl, rfl⟩ | ⟨hl, b, hb, rfl, rfl⟩
  · exact (h.known _ _ hs).2 hk
  · exact h.builtin _ _ hl hb

/-- A name or a literal puts one value on the stack. -/
theorem AtomCode.push {t : Token} (h : AtomCode env t cs) :
    ∃ c, cs = [c] ∧ (c.op.isPush = true ∨ c.op = .pushUnsign) ∧ (t.isIdent = true → c.op.isPush = true) := by
  cases h with
  | @«variable» s o =>
    cases o <;> cases s.isArray
    all_goals exact ⟨_, rfl, .inl rfl, fun _ => rfl⟩
  | function | text => exact ⟨_, rfl, .inl rfl, fun _ => rfl⟩
  | number ht => exact ⟨_, rfl, .inr rfl, fun ht' => absurd (ht.symm.trans ht') (by decide)⟩

/-! ## Values and places -/

/-- Code that reads from a place: a variable, or what lies at an address that was computed before. -/
def PlaceCode (arity : Arities) (returns : Nat) (cs : List Command) : Prop :=
  (∃ c, cs = [c] ∧ c.op.isPush = true) ∨
    ∃ front c, cs = front ++ [c] ∧ c.op = .load ∧ Shifts arity returns 0 1 front

/-- What is left of a place whose address is taken, or to which a value is written. -/
def placeHeights : LvalueMode → Nat × Nat
  | .address => (0, 1)
  | .store => (1, 0)

theorem LvalueCode.shifts {mode : LvalueMode} {read : List Command} (hl : LvalueCode mode read cs)
    (h : PlaceCode arity returns read) : Shifts arity returns (placeHeights mode).1 (placeHeights mode).2 cs := by
  obtain @⟨front, ⟨o, operand, span⟩, op, needsStore, hop⟩ := hl
  have hstore : Shifts arity returns 2 0 [{ op := .store, span }] := .command rfl rfl rfl
  have hpush : ∀ c : Command, c.op.isPush = true → Shifts arity returns 1 2 [c] := fun _ h => (Shifts.push (.inl h)).below 1
  have hnop : Shifts arity returns 0 0 [{ op := .nop, operand, span }] := .command rfl rfl rfl
  rcases h with ⟨c, hc, hpush⟩ | ⟨front', c, hc, hload, hfront⟩
  · obtain ⟨rfl, rfl⟩ : front = [] ∧ c = ⟨o, operand, span⟩ := by
      cases front with
      | nil => exact ⟨rfl, by simpa using hc.symm⟩
      | cons x xs => simp at hc
    cases o <;> cases hpush <;> cases mode <;>
      simp only [Opcode.toLvalue?, Option.some.injEq, Prod.mk.injEq, reduceCtorEq, decide_true, decide_false]
        at hop <;>
      obtain ⟨rfl, rfl⟩ := hop
    all_goals first
      | exact .command rfl rfl rfl
      | exact .cons (hpush _ rfl) hstore
  · obtain ⟨rfl, rfl⟩ : front = front' ∧ ⟨o, operand, span⟩ = c := by
      simpa using List.append_inj' hc rfl
    obtain rfl : o = .load := hload
    cases mode <;> simp only [Opcode.toLvalue?, Option.some.injEq, Prod.mk.injEq] at hop <;>
      obtain ⟨rfl, rfl⟩ := hop
    · exact hfront.append (hnop.below 1)
    · exact (hfront.below 1).append (.command rfl rfl rfl)

/-! ## Expressions -/

/-- Code leaves as many values as were counted, and looks as it has to if it reads from a place. -/
theorem Expr.Coded.heights {e : Expr} {n : Nat} (h : e.Coded env cs n) (ha : env.AritiesOK arity) :
    Shifts arity returns 0 n cs ∧ (e.isPlace = true → PlaceCode arity returns cs) := by
  induction h using Expr.Coded.rec (motive_2 := fun es cs _ => Shifts arity returns 0 es.length cs) with
  | atom h =>
    obtain ⟨c, rfl, hpush, hident⟩ := h.push
    exact ⟨.push hpush, fun hp => .inl ⟨c, rfl, hident hp⟩⟩
  | addressOf _ hp h ih => exact ⟨h.shifts (ih.2 hp), nofun⟩
  | @unary op t e cs hop _ ih =>
    cases op with
    | addressOf => exact absurd rfl hop
    | deref => exact ⟨ih.1.append (.command rfl rfl rfl), fun _ => .inr ⟨cs, _, rfl, rfl, ih.1⟩⟩
    | neg | not | bitNot => exact ⟨ih.1.append (.command rfl rfl rfl), nofun⟩
  | assign _ _ hp h ihr ihl => exact ⟨ihr.1.append (h.shifts (ihl.2 hp)), nofun⟩
  | and _ _ ihl ihr => exact ⟨.shortCircuit (.inr rfl) _ ihl.1 ihr.1, nofun⟩
  | or _ _ ihl ihr => exact ⟨.shortCircuit (.inl rfl) _ ihl.1 ihr.1, nofun⟩
  | @binary op t l r left right hop _ _ ihr ihl =>
    refine ⟨(ihr.1.append (ihl.1.below 1)).append ?_, nofun⟩
    cases op <;> first | exact .command rfl rfl rfl | exact absurd rfl hop
  | call _ _ hf ih => exact ⟨ih.append (.call (ha.calls hf)), nofun⟩
  | @index t base i array index _ _ ihi ihb =>
    have hscale : Shifts arity returns 1 1
        [{ op := .pushUnsign, operand := .unsigned Ty.slotSize.toUInt64, span := t.span }, { op := .mul, span := t.span }] :=
      .cons ((Shifts.push (.inr rfl)).below 1) (.command rfl rfl rfl)
    have hadd : Shifts arity returns 2 1 [{ op := .add, span := t.span }] := .command rfl rfl rfl
    have hfront := ((ihi.1.append hscale).append (ihb.1.below 1)).append hadd
    exact ⟨hfront.append (.command rfl rfl rfl), fun _ => .inr ⟨_, _, rfl, rfl, hfront⟩⟩
  | cast _ ih => exact ih
  | nil => exact .nil
  | cons _ _ ihes ihe => exact ihes.append (ihe.1.below _)

theorem Expr.CodedAll.shifts {es : List Expr} {p : Produced} (h : Expr.CodedAll env es p) (ha : env.AritiesOK arity) :
    Shifts arity returns 0 p.values p.code := by
  induction h with
  | nil => exact .nil
  | cons _ he ih => exact ih.append ((he.heights ha).1.below _)

/-- The values are written from the top of the stack downwards. -/
theorem Expr.CodedStores.shifts {es : List Expr} (h : Expr.CodedStores env es cs) (ha : env.AritiesOK arity) :
    Shifts arity returns es.length 0 cs := by
  induction h with
  | nil => exact .nil
  | cons he hp h _ ih => exact ((h.shifts ((he.heights ha).2 hp)).below _).append ih

theorem Expr.CodedAll.shifts_stores {targets es : List Expr} {p : Produced} (h : Expr.CodedAll env es p)
    (hn : targets.length = p.values) (ht : Expr.CodedStores env targets cs) (ha : env.AritiesOK arity) :
    Shifts arity returns 0 0 (p.code ++ cs) :=
  (h.shifts ha).append (hn ▸ ht.shifts ha)

end

/-! ## Environments -/

/-- No global is in error, and functions and builtins take and leave what `arity` says. -/
structure GlobalsOK (arity : Arities) (globals : NameTable SymbolInfo) : Prop where
  known : ∀ x s, globals.get? x = some s → s.kind ≠ .error ∧ (s.kind = .func → arity x = some (s.params, s.returns))
  builtin : ∀ x b, (∀ s, globals.get? x = some s → s.kind ≠ .func) → Builtin.ofName? x = some b →
    arity x = some (b.params, b.returns)

/-- What a name in a block may stand for: it is kept in the frame if it is kept anywhere. -/
structure SymbolInfo.IsLocal (s : SymbolInfo) : Prop where
  known : s.kind ≠ .error
  plain : s.kind ≠ .func
  frame : ∀ o, s.storage = some o → ∃ n, o = .stack n

theorem localVar_isLocal (span : Span) (offset : Nat) (t : Ty) : (localVar span offset t).IsLocal :=
  ⟨nofun, nofun, fun _ h => ⟨offset, (Option.some.inj h).symm⟩⟩

def BlockOK (block : NameTable SymbolInfo) : Prop := ∀ x s, block.get? x = some s → s.IsLocal

theorem Env.aritiesOK {arity : Arities} {env : Env} (hg : GlobalsOK arity env.globals) (hb : ∀ b ∈ env.blocks, BlockOK b)
    (hx : ∀ x, env.excluded = some x → (∃ b ∈ env.blocks, (b.get? x).isSome = true) ∨
      ∀ s, env.globals.get? x = some s → s.kind ≠ .func) : env.AritiesOK arity := by
  refine ⟨fun x s hl => ?_, fun x b hl hb' => hg.builtin x b (fun s hs => ?_) hb'⟩
  · rcases Env.mem_of_lookup? hl with ⟨i, block, hi, hs⟩ | hs
    · have hlocal := hb block (List.mem_of_getElem? hi) x s hs
      exact ⟨hlocal.known, fun h => absurd h hlocal.plain⟩
    · exact hg.known x s hs
  · -- a global of that name would have been found, unless it is the name that does not count
    have hm : env.meanings x = env.blocks.filterMap (NameTable.get? x) ++ [s] := by simp [Env.meanings, hs]
    unfold Env.lookup? at hl
    split at hl
    next he =>
      rcases hx x he with ⟨b, hbm, hbx⟩ | h
      · obtain ⟨s', hs'⟩ := Option.isSome_iff_exists.mp hbx
        have hmem : s' ∈ env.blocks.filterMap (NameTable.get? x) := List.mem_filterMap.mpr ⟨b, hbm, hs'⟩
        obtain ⟨y, ys, hys⟩ := List.exists_cons_of_ne_nil (List.ne_nil_of_mem hmem)
        rw [hm, hys] at hl
        simp at hl
      · exact h s hs
    · rw [hm] at hl
      simp at hl

/-- Where statements stand: `loop` says whether there is a loop around. -/
structure Env.Ready (arity : Arities) (returns : Nat) (loop : Option Nat) (env : Env) : Prop where
  globals : GlobalsOK arity env.globals
  blocks : ∀ b ∈ env.blocks, BlockOK b
  nonempty : env.blocks ≠ []
  excluded : env.excluded = none
  returns : env.returns = returns
  loop : env.loopDepth.map (fun _ => 0) = loop

namespace Env.Ready

variable {arity : Arities} {returns : Nat} {loop : Option Nat} {env : Env}

theorem aritiesOK (h : env.Ready arity returns loop) : env.AritiesOK arity :=
  Env.aritiesOK h.globals h.blocks fun x hx => by
    rw [h.excluded] at hx
    cases hx

theorem enter (h : env.Ready arity returns loop) (name : String) {info : SymbolInfo} (hi : info.IsLocal) :
    (env.enter name info).Ready arity returns loop := by
  unfold Env.enter
  split
  · exact h
  next block outer hb =>
    have hblocks := h.blocks
    rw [hb] at hblocks
    refine ⟨h.globals, fun b hm => ?_, by simp, h.excluded, h.returns, h.loop⟩
    rcases List.mem_cons.mp hm with rfl | hm
    · intro x s hs
      rw [NameTable.get?_set] at hs
      split at hs
      · obtain rfl := Option.some.inj hs
        exact hi
      · exact hblocks block (by simp) x s hs
    · exact hblocks b (by simp [hm])

theorem alloc (h : env.Ready arity returns loop) (n : Nat) : (env.alloc n).Ready arity returns loop :=
  ⟨h.globals, h.blocks, h.nonempty, h.excluded, h.returns, h.loop⟩

theorem declared (h : env.Ready arity returns loop) (name : String) (span : Span) (t : Ty) :
    (env.declared name span t).Ready arity returns loop :=
  (h.alloc t.size).enter name (localVar_isLocal ..)

theorem openBlock (h : env.Ready arity returns loop) : env.openBlock.Ready arity returns loop :=
  ⟨h.globals, List.forall_mem_cons.mpr ⟨fun _ _ hs => by simp [NameTable.get?] at hs, h.blocks⟩,
    by simp [Env.openBlock], h.excluded, h.returns, h.loop⟩

theorem closeBlock (h : env.Ready arity returns loop) (inner : Env) : (env.closeBlock inner).Ready arity returns loop :=
  ⟨h.globals, h.blocks, h.nonempty, h.excluded, h.returns, h.loop⟩

theorem inLoop (h : env.Ready arity returns loop) :
    ({ env with loopDepth := some env.depth } : Env).Ready arity returns (some 0) :=
  ⟨h.globals, h.blocks, h.nonempty, h.excluded, h.returns, rfl⟩

/-- A name that has just been declared does not count in its own value. -/
theorem hide (h : env.Ready arity returns loop) (name : String) {info : SymbolInfo} (hi : info.IsLocal) :
    ({ env.enter name info with excluded := some name } : Env).AritiesOK arity := by
  have hr := h.enter name hi
  refine Env.aritiesOK hr.globals hr.blocks fun x hx => .inl ?_
  obtain rfl : name = x := Option.some.inj hx
  show ∃ b ∈ (env.enter name info).blocks, _
  unfold Env.enter
  split
  next hb => exact absurd hb h.nonempty
  next block outer hb => exact ⟨_, List.mem_cons_self, by simp [NameTable.get?_set]⟩

theorem hideDeclared (h : env.Ready arity returns loop) (name : String) (span : Span) (t : Ty) :
    ({ env.declared name span t with excluded := some name } : Env).AritiesOK arity :=
  (h.alloc t.size).hide name (localVar_isLocal ..)

end Env.Ready

end Wordstack
