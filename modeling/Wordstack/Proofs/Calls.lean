/-
Calls by name do what the functions of the text mean. A function finds its arguments on
the operand stack and puts them into its frame; how deep calls may be nested is what the
induction is on.
-/
import Wordstack.Proofs.Execution

namespace Wordstack

open Lower Machine

variable {globals : NameTable SymbolInfo} {m : Machine}

/-! ## Parameters -/

theorem Store.foldl_declare (world : World) (ps : List (String × UInt64)) (block : NameTable UInt64) :
    ps.foldl (fun σ (x, v) => σ.declare x v) ({ toWorld := world, locals := [block] } : Store) =
      { toWorld := world, locals := [ps.foldl (fun block (x, v) => NameTable.set x v block) block] } := by
  induction ps generalizing block with
  | nil => rfl
  | cons p ps ih => exact ih _

theorem Ty.isArray_asArgument (t : Ty) : t.asArgument.isArray = false := by
  unfold Ty.asArgument
  split
  · rfl
  next h => simpa using h

/-- The value on top of the stack is kept in a variable of its own. -/
theorem Activation.Within.does_spill {S : Setting} {A : Activation S} {env : Env} {σ : Store}
    (h : A.Within env σ m) (hok : env.OK S) (hs : (env.alloc Ty.slotSize).frameSize ≤ S.frame) {v : UInt64}
    {st : List UInt64} (hst : m.stack = v :: st) (name : String) {info : SymbolInfo}
    (hk : info.KeptAt (.stack (env.depth + Ty.slotSize))) (span : Span) :
    Does S.faults (allocCommand Ty.slotSize span :: storeLocal (env.depth + Ty.slotSize) span) m fun m' =>
      m'.stack = st ∧ A.Within ((env.alloc Ty.slotSize).enter name info) (σ.declare name v) m' := by
  have halloc := h.does_alloc (by decide) hs span
  refine halloc.append fun m₁ ⟨hst₁, hm₁⟩ => ?_
  exact hm₁.does_declare hok.frame hok.globals hok.ready.nonempty (hst₁.trans hst) name hk span

section

variable (S : Setting)

/-- The arguments are taken from the stack, one after the other, into variables of the frame. -/
theorem ensures_does_params (ps : List (Parameter × Token)) (env : Env) :
    Ensures accepted (lowerParams env ps) fun r => env.OK S → r.1.OK S ∧ env.Grows r.1 ∧
      ∀ (A : Activation S) σ m args st, args.length = ps.length → r.1.frameSize ≤ S.frame → A.Within env σ m →
        m.stack = args ++ st → Does S.faults r.2 m fun m' => m'.stack = st ∧
          A.Within r.1 (((ps.map fun p => p.1.name).zip args).foldl (fun σ (x, v) => σ.declare x v) σ) m' := by
  induction ps generalizing env with
  | nil =>
    refine .pure fun hok => ⟨hok, .refl env, fun A σ m args st hlen _ hm hst => .nil ?_⟩
    obtain rfl := List.length_eq_zero_iff.mp hlen
    exact ⟨hst, hm⟩
  | cons p ps ih =>
    refine (accepted_declare _ _ _).bind fun env' => (ih env').bind fun r => .pure ?_
    rintro hrest ⟨rfl, -⟩ hok
    have hk := localVar_kept p.2.span (env.depth + Ty.slotSize) (Ty.isArray_asArgument p.1.type)
    have hfirst : env.Follows ((env.alloc Ty.slotSize).enter p.1.name
        (localVar p.2.span (env.depth + Ty.slotSize) p.1.type.asArgument)) :=
      .declareLocal p.1.name p.2.span (Nat.le_refl 8) (Ty.size_asArgument _)
    have hok' := hok.of_grows hfirst.1 (hfirst.2 hok.frame)
      ((hok.ready.alloc Ty.slotSize).enter p.1.name (localVar_isLocal ..))
    obtain ⟨hr, hgrows, hdoes⟩ := hrest hok'
    refine ⟨hr, hfirst.1.trans hgrows, fun A σ m args st hlen hsize hm hst => ?_⟩
    cases args with
    | nil => cases hlen
    | cons v args =>
      have hsize₁ : (env.alloc Ty.slotSize).frameSize ≤ S.frame := by
        have := hgrows.frameSize
        rw [(Env.enter_depth ..).2] at this
        exact Nat.le_trans this hsize
      refine (hm.does_spill hok hsize₁ hst p.1.name hk p.2.span).append fun m₁ ⟨hst₁, hm₁⟩ => ?_
      exact hdoes A _ m₁ args st (Nat.succ.inj hlen) hsize hm₁ hst₁

end

/-! ## The stack of frames -/

/-- There is room for one more word. -/
theorem Machine.Ground.push {size : Nat} (h : m.Ground size 0) (hroom : m.stackLimit.toNat + 8 ≤ m.rsp.toNat) :
    (m.rsp - 8).toNat + 8 = m.rsp.toNat ∧ m.memory.InRange (m.rsp - 8) := by
  obtain ⟨htop, hstatics, hlimit, hframe, hbase⟩ := h
  have h8 : (8 : UInt64).toNat = 8 := rfl
  have hsub : (m.rsp - 8).toNat = m.rsp.toNat - 8 := by
    rw [UInt64.toNat_sub_of_le _ _ (UInt64.le_iff_toNat_le.mpr (by omega)), h8]
  refine ⟨by omega, ?_, ?_⟩
  · omega
  · omega

/-- What is written to the stack of frames does not touch the globals. -/
theorem WorldAgrees.pushed {size : Nat} {world : World} {m' : Machine}
    (h : WorldAgrees globals world m) (hst : StaticsOK globals size) (hg : m.Ground size 0) {a v : UInt64} {i : Nat}
    (ha : m.memory.offset? a = some i) (hle : m.stackLimit.toNat ≤ a.toNat)
    (hmem : m'.memory = m.memory.setWordAt i v) (hout : m'.output = m.output) : WorldAgrees globals world m' := by
  refine h.of_loads hout fun x s o hs hk => ?_
  have ho := hst.within x s o hs hk
  have hstatics := hg.statics
  have haddr : (Storage.address m.rbp (.static o)).toNat = Memory.base.toNat + o := (hg.static_address ho).1
  rw [hmem]
  exact Memory.load?_setWordAt_of_apart v ha (.inr (by show (Storage.address m.rbp (.static o)).toNat + 8 ≤ _; omega))

theorem Does.framePush {roomy : Prop} {Q : Machine → Prop} {span : Span}
    (hroom : roomy → m.stackLimit.toNat + 8 ≤ m.rsp.toNat)
    (h : m.stackLimit.toNat + 8 ≤ m.rsp.toNat → ∃ i, m.memory.offset? (m.rsp - 8) = some i ∧ Q { m with
          steps := m.steps + 1, rsp := m.rsp - 8, rbp := m.rsp - 8
          memory := m.memory.setWordAt i m.rbp }) :
    Does (.overflow roomy) [{ op := .framePush, span }] m Q := by
  by_cases hfits : m.stackLimit.toNat + 8 ≤ m.rsp.toNat
  · obtain ⟨i, hi, hq⟩ := h hfits
    exact command (fun _ _ _ hc => .framePush hc hfits hi) hq
  · intro f callers pc hcode
    refine .fault hcode.head ⟨rfl, fun hr => hfits (hroom hr)⟩ fun k => ⟨m.ticked k, ?_⟩
    have hp := pushNative_overflow (m := m.ticked k) m.rbp (Nat.lt_of_not_le hfits)
    simp only [exec, bind, EStateM.bind, get_eq, hp]

/-! ## Functions -/

/-- A call of `f`, once its return address is on the stack of frames, comes to what `r` says. -/
def Function.Implements (S : Setting) (f : Function) (r : Routine) : Prop :=
  ∀ callers m args world v? world' stack, r.run S.call S.bound args world = some (v?, world') →
    m.program = S.program → m.Ground S.size 0 → m.rsp.toNat + 8 ≤ m.stackTop.toNat →
    (S.roomy → m.stackLimit.toNat + S.room + S.frame + 8 ≤ m.rsp.toNat) → WorldAgrees S.globals world m →
    m.stack = args ++ stack → Runs S.faults f callers 0 m fun pc m' =>
      (∃ span, f.code[pc]? = some ⟨{ op := .ret, span }, pc⟩) ∧ v?.toList.length = r.returns ∧
        m'.stack = v?.toList ++ stack ∧ m.Like m.rsp.toNat m' ∧ m'.rsp = m.rsp ∧ WorldAgrees S.globals world' m'

/-- The activation of a function that has kept the base of its caller's frame. -/
def Activation.ofEntry (S : Setting) (f : Function) (callers : List Frame) (m : Machine) (stack : List UInt64)
    (returns : Nat) {i : Nat} (hprogram : m.program = S.program) (hg : m.Ground S.size 0)
    (htop : m.rsp.toNat + 8 ≤ m.stackTop.toNat) (hi : m.memory.offset? (m.rsp - 8) = some i)
    (hroom : S.roomy → m.stackLimit.toNat + S.room + S.frame + 8 ≤ m.rsp.toNat)
    (hrsp : (m.rsp - 8).toNat + 8 = m.rsp.toNat) : Activation S where
  function := f
  callers := callers
  start := { m with stack, rsp := m.rsp - 8, rbp := m.rsp - 8, memory := m.memory.setWordAt i m.rbp }
  saved := m.rbp
  returns := returns
  program := hprogram
  top := (congrArg (Memory.base.toNat + ·) (Memory.size_setWordAt ..)).trans hg.top
  statics := hg.statics
  base := by
    show (m.rsp - 8).toNat + 16 ≤ m.stackTop.toNat
    omega
  room hr := by
    have := hroom hr
    show m.stackLimit.toNat + S.room + S.frame ≤ (m.rsp - 8).toNat
    omega
  savedAt := Memory.load?_setWordAt_self m.rbp hi

section

variable {S : Setting} {f : Function} {callers : List Frame} {m : Machine} {world : World} {stack args : List UInt64}

/-- The function `f` has been entered with the machine `m`, which has kept the base of the caller's frame. -/
structure Activation.Entered (A : Activation S) (f : Function) (callers : List Frame) (m : Machine)
    (stack : List UInt64) (returns : Nat) : Prop where
  function : A.function = f
  callers : A.callers = callers
  returns : A.returns = returns
  saved : A.saved = m.rbp
  start : ∃ i, m.memory.offset? (m.rsp - 8) = some i ∧ A.start =
    { m with stack, rsp := m.rsp - 8, rbp := m.rsp - 8, memory := m.memory.setWordAt i m.rbp }

theorem Activation.Entered.like {A : Activation S} {returns : Nat} (h : A.Entered f callers m stack returns)
    (hrsp : (m.rsp - 8).toNat + 8 = m.rsp.toNat) : m.Like m.rsp.toNat { A.start with rbp := A.saved } := by
  obtain ⟨i, hi, hstart⟩ := h.start
  rw [hstart, h.saved]
  refine ⟨rfl, rfl, rfl, Memory.size_setWordAt .., rfl, fun x hx => ?_⟩
  exact Memory.load?_setWordAt_of_apart m.rbp hi (.inl (by omega))

theorem Activation.Entered.operands {A : Activation S} {returns : Nat} (h : A.Entered f callers m stack returns) :
    A.start.stack = stack := by
  obtain ⟨i, -, hstart⟩ := h.start
  rw [hstart]

theorem Activation.Entered.rbp {A : Activation S} {returns : Nat} (h : A.Entered f callers m stack returns) :
    A.start.rbp = m.rsp - 8 := by
  obtain ⟨i, -, hstart⟩ := h.start
  rw [hstart]

/-- What a function leaves to its caller. -/
theorem Activation.Entered.returned {A : Activation S} {returns : Nat} (h : A.Entered f callers m stack returns)
    (hrsp : (m.rsp - 8).toNat + 8 = m.rsp.toNat) {v? : Option UInt64} {world : World} {pc : Nat} {m' : Machine}
    (hm : A.Returned v? world pc m') : (∃ span, f.code[pc]? = some ⟨{ op := .ret, span }, pc⟩) ∧ v?.toList.length = returns ∧
      m'.stack = v?.toList ++ stack ∧ m.Like m.rsp.toNat m' ∧ m'.rsp = m.rsp ∧ WorldAgrees S.globals world m' := by
  refine ⟨h.function ▸ hm.code, h.returns ▸ hm.count, h.operands ▸ hm.stack, ?_, ?_, hm.world⟩
  · refine (h.like hrsp).trans (hm.like.mono ?_)
    rw [h.rbp]
    omega
  · rw [hm.rsp, h.rbp, UInt64.sub_add_cancel]

theorem does_enter (f : Function) (callers : List Frame) (hprogram : m.program = S.program) (hg : m.Ground S.size 0)
    (htop : m.rsp.toNat + 8 ≤ m.stackTop.toNat) (hroom : S.roomy → m.stackLimit.toNat + S.room + S.frame + 8 ≤ m.rsp.toNat)
    (hworld : WorldAgrees S.globals world m) (hst : m.stack = args ++ stack) (name : String) (returns : Nat) (span : Span) :
    Does S.faults [{ op := .framePush, span }] m fun m₁ => ∃ A : Activation S,
      A.Entered f callers m stack returns ∧ (m.rsp - 8).toNat + 8 = m.rsp.toNat ∧ m₁.stack = args ++ stack ∧
        A.Within (.ofFunction S.globals name returns) { toWorld := world, locals := [[]] } m₁ := by
  refine .framePush (fun hr => Nat.le_trans (by omega) (hroom hr)) fun hfits => ?_
  obtain ⟨hrsp, hrange⟩ := hg.push hfits
  obtain ⟨i, hi⟩ : ∃ i, m.memory.offset? (m.rsp - 8) = some i := ⟨_, hrange.offset?⟩
  let A : Activation S := .ofEntry S f callers m stack returns hprogram hg htop hi hroom hrsp
  have hstart : A.start = { m with stack, rsp := m.rsp - 8, rbp := m.rsp - 8, memory := m.memory.setWordAt i m.rbp } :=
    rfl
  refine ⟨i, hi, A, ⟨rfl, rfl, rfl, rfl, i, hi, hstart⟩, hrsp, hst, ?_⟩
  refine ⟨?_, rfl, ?_, ⟨rfl, fun i x _ => ?_, fun i x v hv => ?_⟩, ?_⟩
  · rw [hstart]
    exact ⟨rfl, rfl, rfl, rfl, rfl, fun _ _ => rfl⟩
  · show m.stackLimit.toNat ≤ (m.rsp - 8).toNat
    omega
  · cases i <;> rfl
  · cases i <;> cases hv
  · exact hworld.pushed S.statics hg hi (by omega) rfl rfl

/-- The parts of a function, put together. -/
theorem Function.implements {env₁ inner : Env} {spill : List Command} {code : Code} {name : String} {names : List String}
    {returns : Nat} {body : List Stmt} (pushSpan span : Span)
    (hspill : ∀ (A : Activation S) σ m args st, args.length = names.length →
      A.Within (.ofFunction S.globals name returns) σ m → m.stack = args ++ st → Does S.faults spill m fun m' =>
        m'.stack = st ∧ A.Within env₁ ((names.zip args).foldl (fun σ (x, v) => σ.declare x v) σ) m')
    (hgrows₁ : (Env.ofFunction S.globals name returns).Grows env₁)
    (hbody : Stmt.AllExecuted S env₁.openBlock body (inner, code)) (hgrows : env₁.openBlock.Grows inner) (hframe : inner.frameSize ≤ S.frame)
    (hcommands : Code.ofCommands code.commands = code)
    (hcode : f.Holds 0 ([{ op := .framePush, span := pushSpan }] ++ (spill ++ (code.commands ++
      (freeCommands (inner.depth - env₁.depth) span ++ functionEnd returns span))))) :
    f.Implements S ⟨names, returns, body⟩ := by
  intro callers m args world v? world' stack hrun hprogram hg htop hroom hworld hst
  simp only [Routine.run] at hrun
  split at hrun
  next hlen =>
    obtain ⟨⟨signal, σ'⟩, hexec, hrun⟩ := Option.bind_eq_some_iff.mp hrun
    have henter := does_enter f callers hprogram hg htop hroom hworld hst name returns pushSpan
    refine (henter f callers 0 hcode.left).bind ?_
    rintro _ m₁ ⟨rfl, A, hA, hrsp, hst₁, hm₁⟩
    obtain rfl := hA.function
    obtain rfl := hA.callers
    refine (hspill A _ m₁ args _ hlen hm₁ hst₁ _ _ _ hcode.right.left).bind ?_
    rintro _ m₂ ⟨rfl, hst₂, hm₂⟩
    rw [Store.foldl_declare] at hm₂
    have hreturns : A.returns = env₁.openBlock.returns := hA.returns.trans hgrows₁.returns.symm
    have hholds : A.function.HoldsCode (fun _ => 0) _ code :=
      hcommands ▸ Function.HoldsCode.commands.mpr hcode.right.right.left
    have hst₂ := hst₂.trans hA.operands.symm
    refine (hbody A _ _ _ signal σ' m₂ hreturns hframe hholds hexec hm₂.openBlock hst₂).bind fun pc₃ m₃ hend => ?_
    cases signal with
    | returned v =>
      cases hrun
      exact .here (hA.returned hrsp hend)
    | exit e => cases hrun
    | next =>
      dsimp only at hrun
      split at hrun
      next hzero =>
        cases hrun
        obtain ⟨rfl, hst₃, hm₃⟩ := hend
        have hrest := hcode.right.right.right
        rw [show code.commands.length = code.length by simp [Code.commands]] at hrest
        refine (hm₃.does_free hgrows.depth span _ _ _ hrest.left).bind ?_
        rintro _ m₄ ⟨rfl, hst₄, hm₄⟩
        have hglobals : ({ inner with depth := env₁.openBlock.depth } : Env).globals = S.globals :=
          hgrows.globals.trans hgrows₁.globals
        have hleave := hrest.right
        rw [functionEnd, if_pos hzero] at hleave
        have hleft : Runs S.faults A.function A.callers _ m₄ (A.Returned none σ'.toWorld) :=
          runs_leave hglobals hleave (hA.returns.trans hzero).symm hm₄ (hst₄.trans hst₃)
        exact hleft.mono fun _ _ hend => hA.returned hrsp hend
      · cases hrun
  · cases hrun

end

theorem ensures_implements (S : Setting) (hg : GlobalsOK S.arity S.globals)
    (hstatic : ∀ x s o, S.globals.get? x = some s → s.storage ≠ some (.stack o)) (name : Token) (signature : Signature)
    {params : List Token} (hp : params.length = signature.params.length) (brace : Token) {body : List Stmt}
    (hb : Stmt.WholeAll body) :
    Ensures accepted (lowerFunction S.globals name signature params brace body) fun f => f.frameSize ≤ S.frame →
      f.Implements S ⟨signature.params.map Parameter.name, signature.returns.length, body⟩ := by
  unfold lowerFunction
  dsimp only
  split
  · exact (ensures_report _).bind fun _ => (ensures_does_params S _ _).bind fun _ =>
      (hb.accepted_coded _).bind fun _ => .pure fun _ _ h => by cases h
  · refine (ensures_does_params S _ (.ofFunction S.globals name.text signature.returns.length)).bind fun r₁ =>
      (hb.accepted_coded _).bind fun r₂ => .pure ?_
    obtain ⟨env₁, spill⟩ := r₁
    obtain ⟨inner, code⟩ := r₂
    rintro hbody hparams hframe
    have hready := hg.ready_ofFunction name.text signature.returns.length
    have hok : (Env.ofFunction S.globals name.text signature.returns.length).OK S :=
      ⟨hready, frameOK_ofFunction hstatic .., rfl⟩
    obtain ⟨hok₁, hgrows₁, hspill⟩ := hparams hok
    have hgrows := hbody.follows.1
    rw [Function.emitAll_frameSize] at hframe
    have hframe : inner.frameSize ≤ S.frame := hframe
    have hready₁ : env₁.Ready S.arity signature.returns.length none := by
      have := hok₁.ready
      rwa [hgrows₁.returns, hgrows₁.loopDepth] at this
    obtain ⟨_, hpath⟩ := (hbody.leadsTo.balances hready₁.openBlock).2
    have hnames : ((signature.params.zip params).map fun p => p.1.name) = signature.params.map Parameter.name := by
      calc ((signature.params.zip params).map fun p => p.1.name)
          = ((signature.params.zip params).map Prod.fst).map Parameter.name := by rw [List.map_map]; rfl
        _ = signature.params.map Parameter.name := by rw [List.map_fst_zip (by omega)]
    have hspill : ∀ (A : Activation S) σ m args st, args.length = (signature.params.map Parameter.name).length →
        A.Within (.ofFunction S.globals name.text signature.returns.length) σ m → m.stack = args ++ st →
          Does S.faults spill m fun m' => m'.stack = st ∧ A.Within env₁
            (((signature.params.map Parameter.name).zip args).foldl (fun σ (x, v) => σ.declare x v) σ) m' := by
      intro A σ m args st hlen hm hst
      rw [← hnames] at hlen ⊢
      exact hspill A σ m args st (by simpa using hlen) (Nat.le_trans hgrows.frameSize hframe) hm hst
    refine Function.implements name.span (Stmt.block brace body).span hspill hgrows₁ (hbody.executed S hok₁.openBlock) hgrows hframe
      hpath.commands_eq ?_
    have hcommands := Code.commands_append code
      (Code.ofCommands (freeCommands (inner.depth - env₁.depth) (Stmt.block brace body).span))
    rw [Code.commands_ofCommands] at hcommands
    rw [← List.append_assoc code.commands, ← hcommands, ← List.append_assoc, ← List.append_assoc]
    exact Function.holds_emitAll rfl _

/-! ## Calls -/

section

variable {S : Setting} {f g : Function} {r : Routine} {callers : List Frame} {pc : Nat} {m : Machine} {world world' : World}
  {v? : Option UInt64} {stack args : List UInt64} {name : String} {span : Span}

theorem overflows_call (hi : g.code[pc]? = some ⟨{ op := .call, operand := .label name, span }, pc⟩)
    (hf : m.program.function? name = some f) (hx : f.external = false) (hfull : m.rsp.toNat < m.stackLimit.toNat + 8)
    {roomy : Prop} (hr : ¬ roomy) : Stops (.overflow roomy) ⟨⟨g, pc⟩, callers, m⟩ := by
  refine ⟨1, _, ⟨rfl, hr⟩, fun n => ?_⟩
  have he : exec ⟨g, pc + 1⟩ ⟨{ op := .call, operand := .label name, span }, pc⟩ (m.ticked n) = .ok (.call f) (m.ticked n) :=
    exec_call hf hx
  have hp := pushNative_overflow (m := m.ticked n) returnMarker hfull
  refine ⟨m.ticked n, ?_⟩
  show runFrom (n + 1) ⟨g, pc⟩ callers { m with fuel := n + 1 } = _
  rw [runFrom_succ hi]
  simp only [he, hp]

/-- With the return address on the stack of frames a function runs up to its return. -/
theorem Function.Implements.runs_marked (himp : f.Implements S r)
    (hrun : r.run S.call S.bound args world = some (v?, world')) (hprogram : m.program = S.program)
    (hg : m.Ground S.size 0) (hroom : S.roomy → m.stackLimit.toNat + S.room + S.frame + 16 ≤ m.rsp.toNat)
    (hworld : WorldAgrees S.globals world m) (hst : m.stack = args ++ stack)
    (hfits : m.stackLimit.toNat + 8 ≤ m.rsp.toNat) {i : Nat} (hi : m.memory.offset? (m.rsp - 8) = some i)
    (callers : List Frame) (steps : Nat) :
    Runs S.faults f callers 0 { m with steps, rsp := m.rsp - 8, memory := m.memory.setWordAt i returnMarker }
      fun pc m' => (∃ span, f.code[pc]? = some ⟨{ op := .ret, span }, pc⟩) ∧
        m'.memory.load? m'.rsp = some returnMarker ∧ v?.toList.length = r.returns ∧ m'.stack = v?.toList ++ stack ∧
          m.Like m.rsp.toNat m' ∧ m'.rsp = m.rsp - 8 ∧ WorldAgrees S.globals world' m' := by
  obtain ⟨hrsp, hrange⟩ := hg.push hfits
  have hlike : m.Like m.rsp.toNat { m with steps, rsp := m.rsp - 8, memory := m.memory.setWordAt i returnMarker } := by
    refine ⟨rfl, rfl, rfl, Memory.size_setWordAt .., rfl, fun x hx => ?_⟩
    exact Memory.load?_setWordAt_of_apart returnMarker hi (.inl (by omega))
  have hworld₁ : WorldAgrees S.globals world
      { m with steps, rsp := m.rsp - 8, memory := m.memory.setWordAt i returnMarker } :=
    hworld.pushed S.statics hg hi (by omega) rfl rfl
  -- from here on only what has been said about the machine counts
  obtain ⟨m₁, hm₁⟩ : ∃ m₁ : Machine, m₁ =
      { m with steps, rsp := m.rsp - 8, memory := m.memory.setWordAt i returnMarker } := ⟨_, rfl⟩
  have hrsp₁ : m₁.rsp = m.rsp - 8 := by rw [hm₁]
  have hst₁ : m₁.stack = args ++ stack := by rw [hm₁]; exact hst
  have hmarker : m₁.memory.load? m₁.rsp = some returnMarker := by
    rw [hm₁]
    exact Memory.load?_setWordAt_self returnMarker hi
  rw [← hm₁] at hlike hworld₁ ⊢
  obtain ⟨htop, hstatics, hlimit, hframe, hbase⟩ := hg
  refine (himp callers m₁ args world v? world' stack hrun (hlike.program.trans hprogram) ⟨?_, ?_, ?_, ?_, ?_⟩ ?_ ?_
    hworld₁ hst₁).mono ?_
  · rw [hlike.size, hlike.stackTop, htop]
  · rw [hlike.stackLimit]
    exact hstatics
  · rw [hlike.stackLimit, hrsp₁]
    omega
  · rw [hlike.rbp, hrsp₁]
    omega
  · rw [hlike.rbp, hlike.stackTop]
    exact hbase
  · rw [hlike.stackTop, hrsp₁]
    omega
  · intro hr
    have := hroom hr
    rw [hlike.stackLimit, hrsp₁]
    omega
  · rintro pc m' ⟨hret, hcount, hst', hlike', hrsp', hworld'⟩
    refine ⟨hret, ?_, hcount, hst', hlike.trans (hlike'.mono ?_), hrsp'.trans hrsp₁, hworld'⟩
    · rw [hlike'.above _ (Nat.le_of_eq (by rw [hrsp'])), hrsp']
      exact hmarker
    · rw [hrsp₁]
      omega

/-- A call goes to the function and comes back behind the call. -/
theorem does_call (hf : S.program.function? name = some f) (hx : f.external = false) (himp : f.Implements S r)
    (hrun : r.run S.call S.bound args world = some (v?, world')) (hprogram : m.program = S.program)
    (hg : m.Ground S.size 0) (hroom : S.roomy → m.stackLimit.toNat + S.room + S.frame + 16 ≤ m.rsp.toNat)
    (hworld : WorldAgrees S.globals world m) (hst : m.stack = args ++ stack) :
    Does S.faults [{ op := .call, operand := .label name, span }] m fun m' =>
      v?.toList.length = r.returns ∧ m'.stack = v?.toList ++ stack ∧ m.Like m.rsp.toNat m' ∧ m'.rsp = m.rsp ∧
        WorldAgrees S.globals world' m' := by
  intro g callers pc hcode
  rw [← hprogram] at hf
  by_cases hfits : m.stackLimit.toNat + 8 ≤ m.rsp.toNat
  · obtain ⟨hrsp, hrange⟩ := hg.push hfits
    obtain ⟨i, hi⟩ : ∃ i, m.memory.offset? (m.rsp - 8) = some i := ⟨_, hrange.offset?⟩
    have hcall := @Goes.call g pc pc callers m span f name i hcode.head hf hx hfits hi
    rcases himp.runs_marked hrun hprogram hg hroom hworld hst hfits hi (⟨g, pc + 1⟩ :: callers) (m.steps + 1) with
      ⟨k, pc', m', hgoes, ⟨span', hret⟩, hmarker, hcount, hst', hlike, hrsp', hworld'⟩ | hs
    · refine .inl ⟨_, _, _, hcall.trans (hgoes.trans (.ret hret hmarker)), rfl, hcount, hst', ?_, ?_, ?_⟩
      · exact ⟨hlike.program, hlike.stackLimit, hlike.stackTop, hlike.size, hlike.rbp, hlike.above⟩
      · show m'.rsp + 8 = m.rsp
        rw [hrsp', UInt64.sub_add_cancel]
      · exact hworld'.of_loads rfl fun _ _ _ _ _ => rfl
    · exact .inr (hcall.stops hs)
  · exact .inr (overflows_call hcode.head hf hx (Nat.lt_of_not_le hfits) fun hr =>
      hfits (Nat.le_trans (by omega) (hroom hr)))

theorem does_builtin {F : Faults} {b : Builtin} (hb : Builtin.ofName? name = some b)
    (hnone : m.program.function? name = none) (hrun : b.run args world = some (v?, world'))
    (hworld : WorldAgrees globals world m) (hst : m.stack = args ++ stack) :
    Does F [{ op := .call, operand := .label name, span }] m fun m' =>
      v?.toList.length = b.returns ∧ m'.stack = v?.toList ++ stack ∧ m.Like m.rsp.toNat m' ∧ m'.rsp = m.rsp ∧
        WorldAgrees globals world' m' := by
  cases b
  have hname : name = "putchar" := by
    have := List.find?_some hb
    exact (eq_of_beq this).symm
  subst hname
  match args, hrun with
  | [v], hrun =>
    cases hrun
    refine .command (fun _ _ _ hi => .putchar hi hnone hst) ⟨rfl, rfl, ⟨rfl, rfl, rfl, rfl, rfl, fun _ _ => rfl⟩, rfl, ?_⟩
    refine ⟨hworld.values, ?_⟩
    rw [hworld.output]

end

/-- Calls by name find the functions that the text defines. -/
def Setting.Implements (S : Setting) (items : List Stmt) : Prop :=
  ∀ name r, items.findSome? (Stmt.routine? name) = some r → ∃ f, S.program.function? name = some f ∧
    f.external = false ∧ f.returns = r.returns ∧ f.Implements S r

theorem callsOK {items : List Stmt} {program : Program} {size frame bound : Nat} (hst : StaticsOK globals size)
    (himp : ∀ S : Setting, S.program = program → S.arity = program.arities → S.globals = globals → S.frame = frame →
      S.Implements items)
    (hother : ∀ name, items.findSome? (Stmt.routine? name) = none → program.function? name = none) (roomy : Prop)
    (depth : Nat) : CallsOK roomy program.arities program globals size (depth * (frame + 16)) (calls items bound depth) := by
  have hbuiltin : ∀ {name args world v? world' m stack} span, items.findSome? (Stmt.routine? name) = none →
      ((Builtin.ofName? name).bind fun b => b.run args world) = some (v?, world') → m.program = program →
      WorldAgrees globals world m → m.stack = args ++ stack →
        Does (.overflow roomy) [{ op := .call, operand := .label name, span }] m fun m' =>
          (∀ a, program.arities name = some a → a.2 = v?.toList.length) ∧ m'.stack = v?.toList ++ stack ∧
            m.Like m.rsp.toNat m' ∧ m'.rsp = m.rsp ∧ WorldAgrees globals world' m' := by
    intro name args world v? world' m stack span hnone hrun hprogram hworld hst
    obtain ⟨b, hb, hrun⟩ := Option.bind_eq_some_iff.mp hrun
    have hnone := hother name hnone
    refine (does_builtin hb (hprogram ▸ hnone) hrun hworld hst).mono fun m' ⟨hcount, hrest⟩ => ⟨?_, hrest⟩
    intro a ha
    simp only [Program.arities, hnone, hb] at ha
    cases ha
    exact hcount.symm
  induction depth with
  | zero =>
    intro name args world v? world' m stack span hcall hprogram hg _ hworld hst
    simp only [calls] at hcall
    split at hcall
    · cases hcall
    next hnone => exact hbuiltin span hnone hcall hprogram hworld hst
  | succ depth ih =>
    intro name args world v? world' m stack span hcall hprogram hg hroom hworld hst
    simp only [calls] at hcall
    split at hcall
    next r hr =>
      let S : Setting := ⟨roomy, program.arities, program, globals, size, frame, depth * (frame + 16),
        calls items bound depth, bound, ‹_›, ih⟩
      obtain ⟨f, hf, hx, hreturns, hf'⟩ := himp S rfl rfl rfl rfl name r hr
      have hroom : S.roomy → m.stackLimit.toNat + S.room + S.frame + 16 ≤ m.rsp.toNat := by
        intro hr
        have := hroom hr
        rw [Nat.succ_mul] at this
        show m.stackLimit.toNat + depth * (frame + 16) + frame + 16 ≤ m.rsp.toNat
        omega
      refine (does_call hf hx hf' hcall hprogram hg hroom hworld hst).mono fun m' ⟨hcount, hrest⟩ => ⟨?_, hrest⟩
      intro a ha
      have hf : program.function? name = some f := hf
      simp only [Program.arities, hf] at ha
      cases ha
      exact hreturns.trans hcount.symm
    next hnone => exact hbuiltin span hnone hcall hprogram hworld hst

end Wordstack
