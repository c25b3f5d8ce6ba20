/-
Statements leave the operand stack as they found it, a function leaves what it returns,
and the setup of the globals leaves nothing: all code of an accepted program balances.
-/
import Wordstack.Proofs.Frames
import Wordstack.Proofs.Heights
import Wordstack.Proofs.ScopeFacts

namespace Wordstack

open Lower

variable {root : Nat} {scope : Scope}

/-! ## Statements -/

/-- Code that starts and ends with nothing on the stack; `loop` says whether it may leave a loop. -/
def Balances (arity : Arities) (returns : Nat) (loop : Option Nat) (code : Code) : Prop :=
  ∃ seen, (heightFlow arity returns).Path loop 0 code 0 seen

namespace Balances

variable {arity : Arities} {returns : Nat} {loop : Option Nat} {a b : Code} {cs : List Command} {span : Span}

theorem ofShifts (h : Shifts arity returns 0 0 cs) : Balances arity returns loop (Code.ofCommands cs) := by
  obtain ⟨seen, hp⟩ := h 0 loop
  exact ⟨seen, hp⟩

theorem append (h₁ : Balances arity returns loop a) (h₂ : Balances arity returns loop b) :
    Balances arity returns loop (a ++ b) := by
  obtain ⟨_, hp₁⟩ := h₁
  obtain ⟨_, hp₂⟩ := h₂
  exact ⟨_, hp₁.append hp₂⟩

theorem ifThen {yes : Code} (hc : Shifts arity returns 0 1 cs) (hy : Balances arity returns loop yes) :
    Balances arity returns loop (Code.ifThen span cs yes) := by
  obtain ⟨_, hp⟩ := hc 0 loop
  obtain ⟨_, hpy⟩ := hy
  exact ⟨_, hp.ifThen ⟨by simp, by simp, by simp [Command.pops], by simp, by simp⟩ rfl hpy⟩

theorem ifElse {yes no : Code} (hc : Shifts arity returns 0 1 cs) (hy : Balances arity returns loop yes)
    (hn : Balances arity returns loop no) : Balances arity returns loop (Code.ifElse span cs yes no) := by
  obtain ⟨_, hp⟩ := hc 0 loop
  obtain ⟨_, hpy⟩ := hy
  obtain ⟨_, hpn⟩ := hn
  exact ⟨_, hp.ifElse ⟨by simp, by simp, by simp [Command.pops], by simp, by simp⟩ rfl hpy hpn⟩

theorem ofLoop {body : Code} (hc : Shifts arity returns 0 1 cs) (hb : Balances arity returns (some 0) body) :
    Balances arity returns loop (Code.loop span cs body) := by
  obtain ⟨_, hp⟩ := hc 0 loop
  obtain ⟨_, hpb⟩ := hb
  exact ⟨_, hp.ofLoop ⟨by simp, by simp, by simp [Command.pops], by simp, by simp⟩ rfl hpb⟩

end Balances

section

variable {arity : Arities} {returns : Nat} {loop : Option Nat}

theorem Shifts.freeCommands (bytes : Nat) (span : Span) : Shifts arity returns 0 0 (Wordstack.freeCommands bytes span) := by
  unfold Wordstack.freeCommands
  split
  · exact .nil
  · exact .command rfl rfl rfl

theorem Shifts.allocCommand (bytes : Nat) (span : Span) :
    Shifts arity returns 0 0 [Wordstack.allocCommand bytes span] := .command rfl rfl rfl

theorem Shifts.storeLocal (offset : Nat) (span : Span) : Shifts arity returns 1 0 (Wordstack.storeLocal offset span) := by
  have hpush : Shifts arity returns 0 1 [{ op := .pushSea, operand := .unsigned offset.toUInt64, span }] :=
    .command rfl rfl rfl
  exact .cons (hpush.below 1) (.command rfl rfl rfl)

/-- Nothing follows a return, so any height may stand behind it. -/
theorem Balances.ret {cs : List Command} {span : Span} {loop : Option Nat} (h : Shifts arity returns 0 returns cs) :
    Balances arity returns loop (Code.ofCommands (cs ++ [{ op := .framePop, span }, { op := .ret, span }])) := by
  have hpop : Shifts arity returns 0 0 [{ op := .framePop, span }] := .command rfl rfl rfl
  obtain ⟨_, hp⟩ := (h.append (hpop.below returns)) 0 loop
  have hret : (heightFlow arity returns).Path loop (0 + returns) [.command { op := .ret, span }] 0 _ :=
    Flow.Path.command ⟨by simp, by simp, by simp [Command.pops], by simp, by simp⟩ rfl (by simp [Opcode.fallsThrough])
  have hcode : Code.ofCommands (cs ++ [{ op := .framePop, span }, { op := .ret, span }]) =
      Code.ofCommands (cs ++ [{ op := .framePop, span }]) ++ [.command { op := .ret, span }] := by
    simp [Code.ofCommands]
  exact ⟨_, hcode ▸ hp.append hret⟩

/-- Code that leads from one environment to another. -/
structure Env.LeadsTo (arity : Arities) (returns : Nat) (env env' : Env) (code : Code) : Prop where
  follows : env.Follows env'
  balances : ∀ {loop}, env.Ready arity returns loop → env'.Ready arity returns loop ∧ Balances arity returns loop code

namespace Env.LeadsTo

variable {env env₁ env₂ inner : Env} {code codes : Code}

theorem nil : env.LeadsTo arity returns env [] := ⟨.refl env, fun hr => ⟨hr, .ofShifts .nil⟩⟩

/-- Code that leaves the environment as it is. -/
theorem ofShifts {cs : List Command} (h : env.AritiesOK arity → Shifts arity returns 0 0 cs) :
    env.LeadsTo arity returns env (.ofCommands cs) := ⟨.refl env, fun hr => ⟨hr, .ofShifts (h hr.aritiesOK)⟩⟩

theorem enter {name : String} {info : SymbolInfo} (hs : info.slot? = none) (hi : info.IsLocal) :
    env.LeadsTo arity returns (env.enter name info) [] := ⟨.enter hs, fun hr => ⟨hr.enter _ hi, .ofShifts .nil⟩⟩

theorem block (h : env.openBlock.LeadsTo arity returns inner code) (span : Span) :
    env.LeadsTo arity returns (env.closeBlock inner) (code ++ .ofCommands (freeCommands (inner.depth - env.depth) span)) :=
  ⟨h.follows.close code span,
    fun hr => ⟨hr.closeBlock inner, (h.balances hr.openBlock).2.append (.ofShifts (.freeCommands _ _))⟩⟩

theorem trans (h : env.LeadsTo arity returns env₁ code) (h' : env₁.LeadsTo arity returns env₂ codes) :
    env.LeadsTo arity returns env₂ (code ++ codes) := by
  refine ⟨h.follows.trans h'.follows, fun hr => ?_⟩
  obtain ⟨hr₁, hfirst⟩ := h.balances hr
  exact ⟨(h'.balances hr₁).1, hfirst.append (h'.balances hr₁).2⟩

end Env.LeadsTo

theorem CodedLocals.leadsTo {env env' : Env} {names : List Token} {types : List TypeExpr} {code stores : List Command}
    (h : CodedLocals env names types env' code stores) : env.Follows env' ∧ (env.Ready arity returns loop →
      env'.Ready arity returns loop ∧ Shifts arity returns 0 0 code ∧ Shifts arity returns names.length 0 stores) := by
  induction h with
  | nil => exact ⟨.refl _, fun hr => ⟨hr, .nil, .nil⟩⟩
  | cons ht _ _ ih =>
    refine ⟨(Env.Follows.declareLocal _ _ (TypeExpr.slotSize_le_size ht) rfl).trans ih.1, fun hr => ?_⟩
    obtain ⟨hr', hc, hs⟩ := ih.2 (hr.declared ..)
    exact ⟨hr', .cons (.allocCommand _ _) hc, ((Shifts.storeLocal _ _).below _).append hs⟩

/-- The code of a statement starts and ends with nothing on the stack. -/
theorem Stmt.Coded.leadsTo {env env' : Env} {s : Stmt} {code : Code} (h : s.Coded env env' code) :
    env.LeadsTo arity returns env' code := by
  induction h using Stmt.Coded.rec (motive_2 := fun env _ env' code _ => env.LeadsTo arity returns env' code)
    (motive_3 := fun env _ env' code _ => env.LeadsTo arity returns env' code) with
  | block _ ih => exact ih.block _
  | ifThen hc _ ih =>
    refine ⟨ih.follows, fun hr => ⟨(ih.balances hr).1, .ifThen ?_ (ih.balances hr).2⟩⟩
    exact ((hc hr.aritiesOK.valid).heights hr.aritiesOK).1
  | ifElse hc _ _ ihy ihn =>
    refine ⟨ihy.follows.trans ihn.follows, fun hr => ?_⟩
    obtain ⟨hr₁, hy⟩ := ihy.balances hr
    obtain ⟨hr₂, hn⟩ := ihn.balances hr₁
    exact ⟨hr₂, .ifElse ((hc hr.aritiesOK.valid).heights hr.aritiesOK).1 hy hn⟩
  | «while» hc _ ih =>
    refine ⟨⟨.closeBlock ih.follows.1.frameSize, fun hf => hf.closeBlock ih.follows.1.frameSize⟩, fun hr => ⟨hr.closeBlock _, ?_⟩⟩
    exact .ofLoop ((hc hr.aritiesOK.valid).heights hr.aritiesOK).1 (ih.balances hr.inLoop).2
  | «return» hn => exact ⟨.refl _, fun hr => ⟨hr, .ret (hr.returns ▸ hn ▸ Shifts.freeCommands _ _)⟩⟩
  | @returnWith _ _ _ p h hn =>
    refine ⟨.refl _, fun hr => ⟨hr, ?_⟩⟩
    have hp : Shifts arity returns 0 p.values p.code := (h hr.aritiesOK.valid).shifts hr.aritiesOK
    rw [hn, hr.returns] at hp
    exact .ret (hp.append ((Shifts.freeCommands _ _).below returns))
  | exit h =>
    refine ⟨.refl _, fun {loop} hr => ⟨hr, ?_⟩⟩
    have hl : loop = some 0 := by rw [← hr.loop, h]; rfl
    exact .append (.ofShifts (.freeCommands _ _)) ⟨_, Flow.Path.pending hl⟩
  | expr h => exact .ofShifts fun ha => ((h ha.valid).heights ha).1.append (.popCommands _ _)
  | exprs h => exact .ofShifts fun ha => ((h ha.valid).shifts ha).append (.popCommands _ _)
  | swap hv hn ht => exact .ofShifts fun ha => (hv ha.valid).shifts_stores hn (ht ha.valid) ha
  | declare ht =>
    exact ⟨.declareLocal _ _ (TypeExpr.slotSize_le_size ht) rfl, fun hr => ⟨hr.declared .., .ofShifts (.allocCommand _ _)⟩⟩
  | @declareAs _ name _ t _ _ ht _ _ hv =>
    refine ⟨.declareLocal _ _ (TypeExpr.slotSize_le_size ht) rfl, fun hr => ⟨hr.declared .., .ofShifts ?_⟩⟩
    have hok := hr.hideDeclared name.text name.span t
    exact ((Shifts.allocCommand _ _).append ((hv hok.valid).heights hok).1).append (.storeLocal _ _)
  | declareMany _ h =>
    exact ⟨(@h.leadsTo arity returns none).1, fun hr => ⟨(h.leadsTo.2 hr).1, .ofShifts (h.leadsTo.2 hr).2.1⟩⟩
  | declareManyAs _ h hv hn =>
    refine ⟨(@h.leadsTo arity returns none).1, fun hr => ?_⟩
    obtain ⟨hr', hc, hs⟩ := h.leadsTo.2 hr
    exact ⟨hr', .ofShifts ((hc.append ((hv hr'.aritiesOK.valid).shifts hr'.aritiesOK)).append (hn ▸ hs))⟩
  | record | enumeration | use => exact .enter rfl ⟨nofun, nofun, nofun⟩
  | useNothing => exact .nil
  | braced _ _ ih => exact ih
  | bare _ _ ih => exact ih.block _
  | nil => exact .nil
  | cons _ _ ih ihs => exact ih.trans ihs

theorem Stmt.Coded.follows {env env' : Env} {s : Stmt} {code : Code} (h : s.Coded env env' code) : env.Follows env' :=
  (@h.leadsTo (fun _ => none) 0).follows

theorem Stmt.CodedAll.leadsTo {env env' : Env} {body : List Stmt} {code : Code} (h : Stmt.CodedAll env body env' code) :
    env.LeadsTo arity returns env' code := by
  induction body generalizing env code with
  | nil =>
    cases h
    exact .nil
  | cons s body ih =>
    cases h with
    | cons hs h => exact hs.leadsTo.trans (ih h)

theorem Stmt.CodedAll.follows {env env' : Env} {body : List Stmt} {code : Code} (h : Stmt.CodedAll env body env' code) :
    env.Follows env' :=
  (@h.leadsTo (fun _ => none) 0).follows

end

/-! ## Functions -/

/-- `height` tells for each position of the code of `f` how many values are on the stack there, those of
callers aside. The stack is emptied, callers or not, only where `setup` says so. -/
structure Function.HeightMap (arity : Arities) (f : Function) (height : Nat → Nat) (setup : Bool := false) : Prop where
  index : ∀ (i : Nat) (instr : Instr), f.code[i]? = some instr → instr.index = i
  start : height 0 = f.params
  fits : ∀ (i : Nat) (instr : Instr), f.code[i]? = some instr → instr.HeightOK arity f.returns (height i)
  /-- To the next instruction. -/
  next : ∀ (i : Nat) (instr : Instr), f.code[i]? = some instr → instr.op.fallsThrough = true →
    height (i + 1) = instr.moveHeight arity (height i)
  /-- To the target of a jump, which lies in the function or right behind it. -/
  jump : ∀ (i : Nat) (instr : Instr), f.code[i]? = some instr → instr.op.isJump = true →
    ∃ (d : Int) (t : Nat), instr.operand = .signed d ∧ (t : Int) = i + 1 + d ∧ t ≤ f.length ∧
      height t = instr.moveHeight arity (height i)
  /-- Behind its last instruction a function is left as by a return. -/
  stop : height f.length = f.returns
  setup : ∀ (i : Nat) (instr : Instr), f.code[i]? = some instr → instr.op = .setupGlobal → setup = true

theorem heightMap_emitAll {arity : Arities} {f : Function} {setup : Bool} (hf : f.code = #[]) {cs : List Command}
    {seen : Nat → Prop} (hp : (heightFlow arity f.returns setup).Path none f.params (Code.ofCommands cs) f.returns seen) :
    ∃ height, (f.emitAll cs).HeightMap arity height setup := by
  obtain ⟨m, h₀, h₁, -, hfits⟩ := hp
  have hlen : (Code.ofCommands cs).length = cs.length := by simp [Code.ofCommands]
  have hsize := Function.length_emitAll hf cs
  have hfits := hfits m cs.length 0 (fun i _ => by rw [Nat.zero_add]) (by omega)
  have hstep : ∀ (i : Nat) (instr : Instr), (f.emitAll cs).code[i]? = some instr → instr.index = i ∧
      (heightFlow arity f.returns setup).StepFits none m cs.length i (.command instr.toCommand) := by
    intro i instr hi
    obtain ⟨c, hc, rfl⟩ := Function.getElem?_emitAll hf hi
    have := hfits i (.command c) (by simp [Code.ofCommands, hc])
    rw [Nat.zero_add] at this
    exact ⟨rfl, this⟩
  refine ⟨m, fun i instr hi => (hstep i instr hi).1, by rw [Function.emitAll_params, h₀], fun i instr hi => ?_,
    fun i instr hi hft => (hstep i instr hi).2.2.1 hft, fun i instr hi hj => ?_, by rw [hsize, Function.emitAll_returns, ← h₁, hlen],
    fun i instr hi => (hstep i instr hi).2.1.1⟩
  · rw [Function.emitAll_returns]
    exact (hstep i instr hi).2.1.2
  · rw [hsize]
    exact (hstep i instr hi).2.2.2 hj

section

variable (arity : Arities) (returns : Nat)

theorem ensures_height_params (env : Env) (ps : List (Parameter × Token)) :
    Ensures accepted (lowerParams env ps) fun r => env.Ready arity returns none →
      r.1.Ready arity returns none ∧ Shifts arity returns ps.length 0 r.2 := by
  induction ps generalizing env with
  | nil => exact .pure fun hr => ⟨hr, .nil⟩
  | cons p ps ih =>
    refine (accepted_declare _ _ _).bind fun env' => (ih env').bind fun _ => .pure fun hi hd hr => ?_
    rw [hd.1] at hi
    obtain ⟨hr', hs⟩ := hi ((hr.alloc Ty.slotSize).enter _ (localVar_isLocal ..))
    have hspill : Shifts arity returns 1 0
        (allocCommand Ty.slotSize p.2.span :: storeLocal (env.alloc Ty.slotSize).depth p.2.span) :=
      .cons ((Shifts.allocCommand _ _).below 1) (.storeLocal _ _)
    exact ⟨hr', (hspill.below ps.length).append hs⟩

/-- The end of a function is reached with nothing on the stack; any height may stand behind it. -/
theorem path_functionEnd (span : Span) :
    ∃ seen, (heightFlow arity returns).Path none 0 (Code.ofCommands (functionEnd returns span)) returns seen := by
  unfold functionEnd
  split
  next h =>
    subst h
    exact Balances.ret .nil
  · exact ⟨_, Flow.Path.command ⟨by simp, by simp, by simp [Command.pops], by simp, by simp⟩ rfl (by simp [Opcode.fallsThrough])⟩

theorem GlobalsOK.ready_ofFunction {arity : Arities} {globals : NameTable SymbolInfo} (hg : GlobalsOK arity globals)
    (function : String) (returns : Nat) : (Env.ofFunction globals function returns).Ready arity returns none := by
  refine ⟨hg, fun b hb x s hs => ?_, List.cons_ne_nil _ _, rfl, rfl, rfl⟩
  obtain rfl := List.mem_singleton.mp hb
  cases hs

theorem ensures_heightMap_function {globals : NameTable SymbolInfo} (hg : GlobalsOK arity globals) (name : Token)
    (signature : Signature) {params : List Token} (hp : params.length = signature.params.length) (brace : Token)
    {body : List Stmt} (hb : Stmt.WholeAll body) :
    Ensures accepted (lowerFunction globals name signature params brace body) fun f =>
      (f.name = name.text ∧ f.params = signature.params.length ∧ f.returns = signature.returns.length ∧
        f.external = false) ∧ ∃ height, f.HeightMap arity height := by
  have hpush : Shifts arity signature.returns.length 0 0 [{ op := .framePush, span := name.span }] :=
    .command rfl rfl rfl
  unfold lowerFunction
  dsimp only
  split
  · exact (ensures_report _).bind fun _ => (ensures_height_params arity 0 _ _).bind fun _ =>
      (hb.accepted_coded _).bind fun _ => .pure fun _ _ h => by cases h
  · refine (ensures_height_params arity signature.returns.length _ _).bind fun r => ?_
    obtain ⟨env₁, spill⟩ := r
    refine (hb.accepted_coded _).bind fun r => ?_
    obtain ⟨inner, code⟩ := r
    refine .pure fun hbody hparams => ?_
    have hready := hg.ready_ofFunction name.text signature.returns.length
    obtain ⟨hr₁, hspill⟩ := hparams hready
    obtain ⟨_, hbody⟩ := (hbody.leadsTo.balances hr₁.openBlock).2.append
      (.ofShifts (.freeCommands (inner.depth - env₁.depth) (Stmt.block brace body).span))
    obtain ⟨_, hstart⟩ := ((hpush.below _).append hspill) 0 none
    obtain ⟨_, hend⟩ := path_functionEnd arity signature.returns.length (Stmt.block brace body).span
    have hpath := (hstart.appendCommands hbody.commands).appendCommands hend
    rw [List.length_zip, hp, Nat.min_self, Nat.zero_add, Nat.add_zero] at hpath
    simp only [Function.emitAll_name, Function.emitAll_params, Function.emitAll_returns, Function.emitAll_external,
      true_and]
    exact heightMap_emitAll rfl hpath

end

/-! ## Globals -/

/-- The signature of a function, if that is what a name stands for. -/
def Scope.signature? (scope : Scope) (x : String) : Option Signature :=
  (scope.get? x).bind fun e => if e.kind = .func then e.signature? else none

/-- How many values functions and builtins take and leave. -/
def Scope.arities (scope : Scope) : Arities := fun x =>
  match scope.signature? x with
  | some s => some (s.params.length, s.returns.length)
  | none => (Builtin.ofName? x).map fun b => (b.params, b.returns)

theorem globalsOK_symbols {items : List Stmt} (hs : ∀ p ∈ scope, p.2.OK items p.1) (l : Layout) :
    GlobalsOK scope.arities (l.symbols scope) := by
  have hinfo : ∀ x s, (l.symbols scope).get? x = some s → ∃ e storage, scope.get? x = some e ∧ s = e.info storage := by
    intro x s hx
    rw [l.get?_symbols] at hx
    obtain ⟨e, he, rfl⟩ := Option.map_eq_some_iff.mp hx
    exact ⟨e, _, he, rfl⟩
  refine ⟨fun x s hx => ?_, fun x b hx hb => ?_⟩
  · obtain ⟨e, storage, he, rfl⟩ := hinfo x s hx
    have hok := hs _ (NameTable.mem_of_get? he)
    refine ⟨hok.kind, fun hk => ?_⟩
    obtain ⟨sig, hsig, -⟩ := hok.func hk
    have hk : e.kind = .func := hk
    simp only [Scope.arities, Scope.signature?, he, Option.bind_some, hk, if_true, hsig, Entry.info, Option.map_some,
      Option.getD_some]
  · have hnone : scope.signature? x = none := by
      unfold Scope.signature?
      cases he : scope.get? x with
      | none => rfl
      | some e =>
        have := hx _ (by rw [l.get?_symbols, he]; rfl)
        exact if_neg this
    simp only [Scope.arities, hnone, hb, Option.map_some]

theorem Layout.of_offsetFor? {l : Layout} {offset : Nat} {name : Token} (h : l.offsetFor? scope root name = some offset) :
    ∃ e, scope.get? name.text = some e ∧ e.kind = .var ∧ e.root = root ∧ l.offsets.get? name.text = some offset := by
  unfold offsetFor? at h
  split at h
  · cases h
  next e he =>
    split at h
    next hk => exact ⟨e, he, hk.1, hk.2, h⟩
    · cases h

section

variable {items : List Stmt} {scope : Scope} (hs : ∀ p ∈ scope, p.2.OK items p.1)
include hs

/-- A global that is given its first value is not called in it. -/
theorem aritiesOK_hiding {offset : Nat} {name : Token}
    (h : (Layout.ofItems scope items).offsetFor? scope root name = some offset) :
    ({ (GlobalContext.ofItems items scope).env with excluded := some name.text } : Env).AritiesOK scope.arities := by
  refine Env.aritiesOK (globalsOK_symbols hs _) (fun _ h => by cases h) fun x hx => .inr fun s hsx => ?_
  obtain ⟨e, he, hk, -⟩ := Layout.of_offsetFor? h
  obtain rfl : name.text = x := Option.some.inj hx
  rw [show (GlobalContext.ofItems items scope).env.globals.get? name.text = _ from
    Layout.get?_symbols scope _ name.text] at hsx
  obtain ⟨e', he', rfl⟩ := Option.map_eq_some_iff.mp hsx
  obtain rfl : e = e' := Option.some.inj (he.symm.trans he')
  show e.kind ≠ .func
  rw [hk]
  decide

theorem ensures_height_initItem (root : Nat) {item : Stmt} (hw : item.Whole) (slots : List UInt64) :
    Ensures accepted (initItem (.ofItems items scope) root item slots) fun r => Shifts scope.arities 0 0 0 r.2 := by
  let ctx := GlobalContext.ofItems items scope
  have hg : GlobalsOK scope.arities ctx.env.globals := globalsOK_symbols hs _
  have hok : ctx.env.AritiesOK scope.arities := Env.aritiesOK hg (fun _ h => by cases h) fun _ h => by cases h
  have hstore : ∀ offset span, Shifts scope.arities 0 1 0 (storeGlobal offset span) := by
    intro offset span
    have hpush : Shifts scope.arities 0 0 1 [{ op := .pushGea, operand := .unsigned offset.toUInt64, span }] :=
      .command rfl rfl rfl
    exact .cons (hpush.below 1) (.command rfl rfl rfl)
  unfold initItem
  cases hw with
  | @declareAs name _ value _ hv =>
    dsimp only
    split
    · exact .pure .nil
    next offset ho =>
      split
      · exact ensures_rejected rfl _
      split
      · exact .pure .nil
      · refine accepted_value hv (hv.accepted_coded _) fun _ => .pure fun hp => ?_
        have hhiding := aritiesOK_hiding hs ho
        exact ((hp hhiding.valid).heights hhiding).1.append (hstore _ _)
  | @declareManyAs _ names _ values _ hv =>
    refine (hv.accepted_coded ctx.env).bind fun p =>
      (accepted_checkCount _ _ (ExprList.isError_of_whole hv)).bind fun _ => .pure fun hn hp => ?_
    refine ((hp hok.valid).shifts hok).append (hn ▸ ?_)
    clear hn
    induction names with
    | nil => exact .nil
    | cons name names ih =>
      rw [List.flatMap_cons]
      refine Shifts.append (Shifts.below (a := 1) (b := 0) ?_ names.length) ih
      split
      · exact hstore _ _
      · exact .popCommands 1 _
  | swap ht hv =>
    refine (accepted_swap ctx.env ht hv).bind fun _ => .pure fun hswap => ?_
    obtain ⟨p, stores, hcs, hv, hn, ht⟩ := hswap
    exact hcs ▸ (hv hok.valid).shifts_stores hn (ht hok.valid) hok
  | _ => exact .pure .nil

theorem ensures_height_initItems {rest : List Stmt} (hw : Stmt.WholeAll rest) (root : Nat) (slots : List UInt64) :
    Ensures accepted (initItems (.ofItems items scope) root slots rest) fun r => Shifts scope.arities 0 0 0 r.2 := by
  induction rest generalizing root slots with
  | nil => exact .pure .nil
  | cons item rest ih =>
    cases hw with
    | cons h hrest =>
      exact (ensures_height_initItem hs root h slots).bind fun _ => (ih hrest _ _).bind fun _ =>
        .pure fun hr h => h.append hr

/-! ## Functions of a program -/

/-- A function that is what the scope says about it. -/
structure Function.Conforms (scope : Scope) (f : Function) : Prop where
  signature : ∃ s, scope.signature? f.name = some s ∧ f.params = s.params.length ∧ f.returns = s.returns.length
  heights : f.external = false → ∃ height, f.HeightMap scope.arities height

omit hs in
theorem of_signatureFor? {t : Token} {sig : Signature}
    (h : lowerItem.signatureFor? (.ofItems items scope) root t = some sig) :
    ∃ e, scope.get? t.text = some e ∧ e.kind = .func ∧ e.root = root ∧ e.signature? = some sig := by
  unfold lowerItem.signatureFor? at h
  split at h
  · cases h
  next e he =>
    split at h
    next hk => exact ⟨e, he, hk.1, hk.2, h⟩
    · cases h

/-- An item that a function comes from defines it, or says that it is defined elsewhere. -/
theorem item_of_func {item : Stmt} (hroot : items[root]? = some item) {x : String} {e : Entry}
    (he : scope.get? x = some e) (hk : e.kind = .func) (hr : e.root = root) :
    ∃ t sig, t.text = x ∧ lowerItem.signatureFor? (.ofItems items scope) root t = some sig ∧
      ((∃ ty brace body, item = .define t ty brace body ∧ sig.WrittenAs ty) ∨ ∃ ty, item = .external t ty) := by
  obtain ⟨sig, hsig, hitem⟩ := (hs _ (NameTable.mem_of_get? he)).func hk
  have hfor : ∀ t : Token, t.text = x → lowerItem.signatureFor? (.ofItems items scope) root t = some sig := by
    rintro t rfl
    unfold lowerItem.signatureFor?
    rw [show (GlobalContext.ofItems items scope).scope = scope from rfl, he]
    exact (if_pos ⟨hk, hr⟩).trans hsig
  rw [hr, hroot] at hitem
  rcases hitem with ⟨t, ty, brace, body, hi, rfl, hwritten⟩ | ⟨t, ty, hi, rfl⟩
  · exact ⟨t, sig, rfl, hfor t rfl, .inl ⟨ty, brace, body, Option.some.inj hi, hwritten⟩⟩
  · exact ⟨t, sig, rfl, hfor t rfl, .inr ⟨ty, Option.some.inj hi⟩⟩

theorem ensures_conforms_item {item : Stmt} (hroot : items[root]? = some item) (hw : item.Whole) :
    Ensures accepted (lowerItem (.ofItems items scope) root item) fun f? => (∀ f ∈ f?, f.Conforms scope) ∧
        ∀ x e, scope.get? x = some e → e.kind = .func → e.root = root → ∃ f ∈ f?, f.name = x := by
  have hg : GlobalsOK scope.arities (GlobalContext.ofItems items scope).env.globals := globalsOK_symbols hs _
  have hsig : ∀ {t : Token} {sig}, lowerItem.signatureFor? (.ofItems items scope) root t = some sig →
      scope.signature? t.text = some sig := by
    intro t sig h
    obtain ⟨e, he, hk, -, hsig⟩ := of_signatureFor? h
    simp only [Scope.signature?, he, Option.bind_some, hk, if_true, hsig]
  unfold lowerItem
  cases hw with
  | @define name brace ty body _ hb =>
    dsimp only
    split
    next sig hfor =>
      obtain ⟨e, he, hk, hr, -⟩ := of_signatureFor? hfor
      obtain ⟨t, sig', ht, hfor', hitem⟩ := item_of_func hs hroot he hk hr
      have hlen : ty.paramTokens.length = sig.params.length := by
        rcases hitem with ⟨ty', _, _, heq, hwritten⟩ | ⟨_, heq⟩
        · cases heq
          cases hfor.symm.trans hfor'
          exact hwritten.length
        · cases heq
      refine (ensures_heightMap_function scope.arities hg name sig hlen brace hb).bind fun f => .pure fun ⟨hf, hm⟩ => ⟨?_, ?_⟩
      · rintro f' ⟨⟩
        exact ⟨⟨sig, by rw [hf.1]; exact hsig hfor, hf.2.1, hf.2.2.1⟩, fun _ => hm⟩
      · intro x e' he' hk' hr'
        obtain ⟨t', _, rfl, -, ⟨_, _, _, heq, -⟩ | ⟨_, heq⟩⟩ := item_of_func hs hroot he' hk' hr'
        · cases heq
          exact ⟨f, rfl, hf.1⟩
        · cases heq
    next hnone =>
      refine .pure ⟨fun f hf => (by cases hf), fun x e he hk hr => ?_⟩
      obtain ⟨t, sig, rfl, hfor, ⟨_, _, _, heq, -⟩ | ⟨_, heq⟩⟩ := item_of_func hs hroot he hk hr
      · cases heq
        cases hnone.symm.trans hfor
      · cases heq
  | @external name ty =>
    dsimp only
    split
    next sig hfor =>
      refine .pure ⟨?_, fun x e he hk hr => ?_⟩
      · rintro f ⟨⟩
        exact ⟨⟨sig, hsig hfor, rfl, rfl⟩, fun h => by cases h⟩
      · obtain ⟨t, _, rfl, -, ⟨_, _, _, heq, -⟩ | ⟨_, heq⟩⟩ := item_of_func hs hroot he hk hr
        · cases heq
        · cases heq
          exact ⟨_, rfl, rfl⟩
    next hnone =>
      refine .pure ⟨fun f hf => (by cases hf), fun x e he hk hr => ?_⟩
      obtain ⟨t, sig, rfl, hfor, ⟨_, _, _, heq, -⟩ | ⟨_, heq⟩⟩ := item_of_func hs hroot he hk hr
      · cases heq
      · cases heq
        cases hnone.symm.trans hfor
  | _ =>
    refine .pure ⟨fun f hf => (by cases hf), fun x e he hk hr => ?_⟩
    obtain ⟨_, _, _, -, ⟨_, _, _, heq, -⟩ | ⟨_, heq⟩⟩ := item_of_func hs hroot he hk hr <;> cases heq

theorem ensures_conforms_items {rest : List Stmt} (hw : Stmt.WholeAll rest) (root : Nat)
    (hroot : ∀ i item, rest[i]? = some item → items[root + i]? = some item) :
    Ensures accepted (lowerItems (.ofItems items scope) root rest) fun fs => (∀ f ∈ fs, f.Conforms scope) ∧
        ∀ x e, scope.get? x = some e → e.kind = .func → root ≤ e.root → e.root < root + rest.length →
          ∃ f ∈ fs, f.name = x := by
  induction rest generalizing root with
  | nil => exact .pure ⟨fun f hf => (by cases hf), fun x e _ _ h₁ h₂ => by simp at h₂; omega⟩
  | cons item rest ih =>
    cases hw with
    | cons h hrest =>
      refine (ensures_conforms_item hs (hroot 0 item rfl) h).bind fun f? =>
        (ih hrest (root + 1) fun i item' hi => ?_).bind fun fs => .pure fun hfs hf => ⟨fun f hm => ?_, ?_⟩
      · rw [Nat.add_assoc, Nat.add_comm 1]
        exact hroot (i + 1) item' hi
      · rcases List.mem_append.mp hm with hm | hm
        · exact hf.1 f (Option.mem_toList.mp hm)
        · exact hfs.1 f hm
      · intro x e he hk h₁ h₂
        rw [List.length_cons] at h₂
        by_cases hr : e.root = root
        · obtain ⟨f, hm, hn⟩ := hf.2 x e he hk hr
          exact ⟨f, List.mem_append_left _ (Option.mem_toList.mpr hm), hn⟩
        · obtain ⟨f, hm, hn⟩ := hfs.2 x e he hk (by omega) (by omega)
          exact ⟨f, List.mem_append_right _ hm, hn⟩

end

/-! ## Programs -/

namespace Program

/-- How many values a call of a name takes and leaves. -/
def arities (p : Program) : Arities := fun x =>
  match p.function? x with
  | some f => some (f.params, f.returns)
  | none => (Builtin.ofName? x).map fun b => (b.params, b.returns)

end Program

/-- The setup of the globals empties the stack, which stays empty to its end. -/
theorem heightMap_setup {arity : Arities} {code : List Command} (hc : Shifts arity 0 0 0 code) (slots : Nat) :
    ∃ height, (Program.setup slots code).HeightMap arity height true := by
  have hsetup : (heightFlow arity 0 true).Path none 0
      (Code.ofCommands [{ op := .setupGlobal, operand := .unsigned slots.toUInt64, span := .nowhere }]) 0 _ :=
    Flow.Path.command ⟨by simp, by simp, by simp [Command.pops], by simp, by simp⟩ rfl fun _ => rfl
  have hret : (heightFlow arity 0 true).Path none 0 (Code.ofCommands [{ op := .ret, span := .nowhere }]) 0 _ :=
    Flow.Path.command ⟨by simp, by simp, by simp [Command.pops], by simp, by simp⟩ rfl (by simp [Opcode.fallsThrough])
  obtain ⟨_, hcode⟩ := hc 0 none
  have hcode : (heightFlow arity 0 true).Path none 0 (Code.ofCommands code) 0 _ :=
    hcode.imp (fun _ _ h => ⟨fun _ => rfl, h.2⟩) fun _ _ => rfl
  exact heightMap_emitAll (f := { name := Program.initName }) rfl
    ((hsetup.appendCommands hcode).appendCommands hret)

section

variable {items : List Stmt} (hw : Stmt.WholeAll items) (hs : ∀ p ∈ scope, p.2.OK items p.1)
  (hc : ∀ e ∈ (Program.ofItems items scope).errors, e.diagnostic.isWarning = true)
include hw hs hc

/-- An accepted program has a function for each name that stands for one, and for no other. -/
theorem functions_ofItems :
    (∃ height, (Program.ofItems items scope).program.init.HeightMap scope.arities height true) ∧
    (∀ f ∈ (Program.ofItems items scope).program.functions, f.Conforms scope) ∧
    ∀ x, ((Program.ofItems items scope).program.function? x).isSome ↔ ∃ e, scope.get? x = some e ∧ e.kind = .func := by
  obtain ⟨⟨code, hcode, hinit⟩, fs, ⟨hfs, hall⟩, hmem, hfun⟩ := of_parts (W := accepted) trivial hc
    (ensures_height_initItems hs hw 0 _) (ensures_conforms_items hs hw 0 fun i item hi => by rwa [Nat.zero_add])
  refine ⟨hinit ▸ heightMap_setup hcode _, fun f hf => hfs f (hmem f hf), fun x => ⟨fun h => ?_, ?_⟩⟩
  · obtain ⟨f, hf⟩ := Option.isSome_iff_exists.mp h
    obtain ⟨sig, hsig, -⟩ := (hfs f (hmem f (List.mem_of_find?_eq_some hf))).signature
    rw [Program.name_of_function? hf] at hsig
    obtain ⟨e, he, hsig⟩ := Option.bind_eq_some_iff.mp hsig
    split at hsig
    next hk => exact ⟨e, he, hk⟩
    · cases hsig
  · rintro ⟨e, he, hk⟩
    obtain ⟨_, -, hitem⟩ := (hs _ (NameTable.mem_of_get? he)).func hk
    have hlt : e.root < items.length := by
      rcases hitem with ⟨_, _, _, _, hi, -⟩ | ⟨_, _, hi, -⟩ <;> exact (List.getElem?_eq_some_iff.mp hi).1
    obtain ⟨f, hf, hname⟩ := hall x e he hk (Nat.zero_le _) (by omega)
    rw [hfun]
    exact List.find?_isSome.mpr ⟨f, List.mem_reverse.mpr hf, beq_iff_eq.mpr hname⟩

theorem arities_ofItems : (Program.ofItems items scope).program.arities = scope.arities := by
  obtain ⟨-, hfs, hsome⟩ := functions_ofItems hw hs hc
  funext x
  have hx := hsome x
  unfold Program.arities Scope.arities Scope.signature?
  cases hf : (Program.ofItems items scope).program.function? x with
  | some f =>
    obtain ⟨s, hsig, hparams, hreturns⟩ := (hfs f (List.mem_of_find?_eq_some hf)).signature
    rw [Program.name_of_function? hf, Scope.signature?] at hsig
    simp only [hsig, hparams, hreturns]
  | none =>
    rw [hf] at hx
    cases he : scope.get? x with
    | none => rfl
    | some e =>
      have hk : e.kind ≠ .func := fun hk => by simpa using hx.mpr ⟨e, he, hk⟩
      simp [hk]

end

/-- All code of an accepted program balances. -/
theorem heightMaps_of_accepted {items : List Stmt} (hw : Stmt.WholeAll items)
    (ha : ScopeErrors.Accepted (Scope.ofItems items).errors)
    (hc : ∀ e ∈ (Program.ofItems items (Scope.ofItems items).scope).errors, e.diagnostic.isWarning = true) :
    let p := (Program.ofItems items (Scope.ofItems items).scope).program
    (∃ height, p.init.HeightMap p.arities height true) ∧
      ∀ f ∈ p.functions, f.external = false → ∃ height, f.HeightMap p.arities height := by
  obtain ⟨hinit, hfs, -⟩ := functions_ofItems hw (entries_ok hw ha) hc
  dsimp only
  rw [arities_ofItems hw (entries_ok hw ha) hc]
  exact ⟨hinit, fun f hf => (hfs f hf).heights⟩

theorem Program.holds_setup (slots : Nat) (code : List Command) : (setup slots code).Holds 0
    ({ op := .setupGlobal, operand := .unsigned slots.toUInt64, span := .nowhere } :: code ++ [{ op := .ret, span := .nowhere }]) :=
  Function.holds_emitAll rfl _

/-- The code of the globals' first values starts by emptying the stack. -/
theorem init_code (items : List Stmt) (scope : Scope) :
    ∃ x span, (Program.ofItems items scope).program.init.code[0]? = some ⟨⟨.setupGlobal, x, span⟩, 0⟩ := by
  obtain ⟨⟨code, -, hinit⟩, -⟩ := @of_parts items scope .ignore _ _ trivial trivial .trivial .trivial
  exact ⟨_, _, hinit ▸ (Program.holds_setup _ code).head⟩

end Wordstack
