/-
How the code of statements is put together. What is kept by each step of it, with the environment that the step leaves,
is so of bodies and of functions.
-/
import Wordstack.Proofs.Assembling
import Wordstack.Proofs.FrameScope

namespace Wordstack

open Lower

/-! ## Atoms -/

mutual

/-- The names and literals of the expressions in a statement. -/
def Stmt.atoms : Stmt → List Token
  | .block _ body | .define _ _ _ body => Stmt.atomsAll body
  | .ifOnly _ c | .whileOnly _ c => c.atoms
  | .ifThen _ c s | .while _ c s => c.atoms ++ s.atoms
  | .ifElse _ c yes no => c.atoms ++ (yes.atoms ++ no.atoms)
  | .returnWith _ es | .exprs _ es | .declareManyAs _ _ _ es => Expr.atomsAll es.items
  | .expr _ e | .declareAs _ _ e => e.atoms
  | .swap _ targets values => Expr.atomsAll targets.items ++ Expr.atomsAll values.items
  | .misplaced _ s => s.atoms
  | .missing _ | .return _ | .exit .. | .declare .. | .external .. | .declareMany .. | .record .. | .enumeration ..
  | .use .. => []

def Stmt.atomsAll : List Stmt → List Token
  | [] => []
  | s :: ss => s.atoms ++ Stmt.atomsAll ss

end

/-- Whether a name stands for a function, with a body or without one. -/
def SymbolInfo.IsFunction (s : SymbolInfo) : Prop := s.kind = .func ∨ s.kind = .prototype

theorem Code.commands_append (a b : Code) : (a ++ b).commands = a.commands ++ b.commands := List.map_append

theorem Code.commands_ofCommands (cs : List Command) : (Code.ofCommands cs).commands = cs := by
  simp [Code.commands, Code.ofCommands, Function.comp_def]

/-! ## Steps -/

/-- A property of the code of expressions, and one of the code of statements and of the environment behind it, which are
kept where code is put together. -/
structure Composes (W : Watch Notes) (P : Env → List Command → Prop) (D : Env → Env × Code → Prop) : Prop where
  assembles (env : Env) : Assembles W (P env)
  simple {env : Env} {cs : List Command} : P env cs → D env (env, .ofCommands cs)
  trans {env : Env} {r r' : Env × Code} : D env r → D r.1 r' → D env (r'.1, r.2 ++ r'.2)
  enter {env : Env} {name : String} {info : SymbolInfo} : info.slot? = none → ¬info.IsFunction → D env (env.enter name info, [])
  declared {env : Env} {t : Ty} (name : String) (span : Span) : 8 ≤ t.size →
    D env (env.declared name span t, .ofCommands [allocCommand t.size span])
  /-- While the first value of a variable is computed, its name is what it was before. -/
  hidden {env : Env} {t : Ty} {name : String} {span : Span} {cs : List Command} :
    P { env.declared name span t with excluded := some name } cs → P (env.declared name span t) cs
  store {env : Env} {o : Nat} (span : Span) : 8 ≤ o → o ≤ env.depth → P env (storeLocal o span)
  leave {env : Env} {cs : List Command} (span : Span) : P env cs → D env (env, .ofCommands
    (cs ++ freeCommands env.depth span ++ [{ op := .framePop, span }, { op := .ret, span }]))
  exit {env : Env} {base : Nat} (exit : LoopExit) (span : Span) : env.loopDepth = some base →
    D env (env, Code.ofCommands (freeCommands (env.depth - base) span) ++ [.pending exit span])
  close {env : Env} {r : Env × Code} (span : Span) : D env.openBlock r → D env (env.close r.1 r.2 span)
  ifThen {env : Env} {cs : List Command} {r : Env × Code} (span : Span) : P env cs → D env r → r.1.depth = env.depth →
    D env (r.1, .ifThen span cs r.2)
  ifElse {env : Env} {cs : List Command} {r r' : Env × Code} (span : Span) : P env cs → D env r → r.1.depth = env.depth →
    D r.1 r' → r'.1.depth = r.1.depth → D env (r'.1, .ifElse span cs r.2 r'.2)
  loop {env : Env} {cs : List Command} {r : Env × Code} (span : Span) : P env cs →
    D { env with loopDepth := some env.depth } r → r.1.depth = env.depth → D env (env.closeBlock r.1, .loop span cs r.2)

theorem Assembles.popCommands {W : Watch Notes} {P : List Command → Prop} (h : Assembles W P) (n : Nat) (span : Span) :
    P (popCommands n span) := by
  induction n with
  | zero => exact h.nil
  | succ n ih => exact h.append (h.plain { op := .pop, span } rfl (by simp)) ih

namespace Composes

variable {W : Watch Notes} {P : Env → List Command → Prop} {D : Env → Env × Code → Prop} (h : Composes W P D)
include h

theorem report (e : CodeError) : Ensures W (report e) fun _ => True := (h.assembles { globals := [] }).report e

theorem nil (env : Env) : D env (env, []) := h.simple (h.assembles env).nil

/-! ## Declarations -/

theorem typed (env : Env) (name : Token) (ty : TypeExpr) : Ensures W (declareTyped env name ty) fun r =>
    D env (r.1, .ofCommands r.2.1) ∧
      ∀ t, r.2.2 = some t → 8 ≤ t.size ∧ r.1 = env.declared name.text name.span t := by
  refine (ensures_declareTyped h.report env name ty).mono ?_
  rintro _ (rfl | ⟨t, ht, rfl⟩)
  · exact ⟨h.enter rfl (by simp [SymbolInfo.IsFunction]), nofun⟩
  · have h8 := TypeExpr.slotSize_le_size ht
    refine ⟨h.declared name.text name.span h8, ?_⟩
    rintro _ ⟨⟩
    exact ⟨h8, rfl⟩

theorem value (env : Env) (name : Token) (ty : TypeExpr) (value : Expr)
    (ha : ∀ t ∈ value.atoms, ∀ env, Ensures W (lowerAtom env t) (P env)) :
    Ensures W (declareValue env name ty value) fun r => D env (r.1, .ofCommands r.2) := by
  refine (h.typed env name ty).bind fun ⟨env', code, t?⟩ => ?_
  cases t? with
  | none => exact .pure fun hr => hr.1
  | some t =>
    dsimp only
    split
    · exact (h.report _).bind fun _ => .pure fun _ hr => hr.1
    · refine (h.assembles _).value ((h.assembles _).expr value fun t ht => ha t ht _) fun init => .pure fun hinit hr => ?_
      obtain ⟨h8, rfl⟩ := hr.2 t rfl
      have hdepth := env.depth_declared name.text name.span t
      have hstore : P (env.declared name.text name.span t) _ := h.store name.span (by omega) (Nat.le_refl _)
      simpa only [Code.ofCommands, List.map_append, List.append_assoc] using
        h.trans hr.1 (h.simple ((h.assembles _).append (h.hidden hinit) hstore))

theorem locals (env : Env) (names : List Token) (types : List TypeExpr) :
    Ensures W (declareLocals env names types) fun r =>
      D env (r.1, .ofCommands r.2.1) ∧ env.depth ≤ r.1.depth ∧ P r.1 r.2.2 := by
  induction names generalizing env types with
  | nil => exact .pure ⟨h.nil env, Nat.le_refl _, (h.assembles _).nil⟩
  | cons name names ih =>
    cases types with
    | nil => exact .pure ⟨h.nil env, Nat.le_refl _, (h.assembles _).nil⟩
    | cons ty types =>
      refine (ensures_localType? h.report env ty).bind fun t? => (ensures_declareLocal h.report ..).bind fun r =>
        (ih ..).bind fun r' => .pure fun hrest hr ht => ?_
      subst hr
      have h8 : 8 ≤ (t?.getD (.ofBase (.named name.text))).size := by
        cases t? with
        | none => exact Nat.le_refl 8
        | some t => exact TypeExpr.slotSize_le_size (ht t rfl)
      generalize t?.getD (.ofBase (.named name.text)) = t at h8 hrest ⊢
      obtain ⟨hcode, hdepth, hstores⟩ := hrest
      have hgrows := env.depth_declared name.text name.span t
      dsimp only at hdepth ⊢
      exact ⟨h.trans (h.declared name.text name.span h8) hcode, by omega,
        (h.assembles _).append (h.store _ (by omega) hdepth) hstores⟩

theorem several (env : Env) (names : List Token) (types : TypeList) (values? : Option ExprList)
    (ha : ∀ values ∈ values?, ∀ t ∈ Expr.atomsAll values.items, ∀ env, Ensures W (lowerAtom env t) (P env)) :
    Ensures W (declareSeveral env names types values?) fun r => D env (r.1, .ofCommands r.2) := by
  unfold declareSeveral
  split
  · dsimp only
    split
    · exact (h.report _).bind fun _ => .pure fun _ => h.nil env
    · exact .pure (h.nil env)
  · refine (h.locals ..).bind fun ⟨env', code, stores⟩ => ?_
    cases values? with
    | none => exact .pure fun hr => hr.1
    | some values =>
      refine ((h.assembles env').exprAll fun t ht => ha values rfl t ht _).bind fun p =>
        ((h.assembles env').checkCount ..).bind fun _ => .pure fun _ hp hr => ?_
      simpa only [Code.ofCommands, List.map_append, List.append_assoc] using
        h.trans hr.1 (h.simple ((h.assembles env').append hp hr.2.2))

theorem params (env : Env) (ps : List (Parameter × Token)) :
    Ensures W (lowerParams env ps) fun r => D env (r.1, .ofCommands r.2) := by
  induction ps generalizing env with
  | nil => exact .pure (h.nil env)
  | cons p ps ih =>
    refine (ensures_declare h.report ..).bind fun env' => (ih env').bind fun r => .pure fun hrest henv => ?_
    have hsize := Ty.size_asArgument p.1.type
    have henv : env' = env.declared p.1.name p.2.span p.1.type.asArgument := by
      rw [henv, Env.declared, hsize]
      rfl
    have hfirst : D env _ := h.declared p.1.name p.2.span (Nat.le_of_eq hsize.symm)
    have hdepth := env.depth_declared p.1.name p.2.span p.1.type.asArgument
    rw [hsize, ← henv] at hfirst hdepth
    have hstore : P env' (storeLocal (env.alloc Ty.slotSize).depth p.2.span) :=
      h.store p.2.span (Nat.le_add_left ..) (Nat.le_of_eq hdepth.symm)
    simpa only [Code.ofCommands, List.map_append, List.map_cons, List.map_nil, List.cons_append,
      List.nil_append] using h.trans (h.trans hfirst (h.simple hstore)) hrest

/-! ## Statements -/

theorem lowerReturn (env : Env) (t : Token) (p : Produced) (ok : Bool) :
    Ensures W (lowerReturn env t p ok) fun cs => P env p.code → D env (env, .ofCommands cs) := by
  unfold Wordstack.lowerReturn
  dsimp only
  split
  · exact (h.report _).bind fun _ => .pure fun _ => h.leave t.span
  split
  · exact (h.report _).bind fun _ => .pure fun _ => h.leave t.span
  · exact .pure (h.leave t.span)

theorem branch (env : Env) (s : Stmt) (hs : ∀ env, Ensures W (s.lower env) (D env)) :
    Ensures W (branch env s fun env => s.lower env) fun r => D env r ∧ r.1.depth = env.depth := by
  unfold Wordstack.branch
  split
  next hb =>
    have hd : Ensures Watch.ignore (s.lower env) fun r => r.1.depth = env.depth := by
      cases s with
      | block t body => exact Ensures.bind .trivial fun _ => .pure fun _ => rfl
      | _ => cases hb
    exact (hs env).withResult hd
  · exact (hs _).bind fun r => .pure fun hr => ⟨h.close _ hr, rfl⟩

theorem condition {β : Type} {Q : β → Prop} {env : Env} {c : Expr} {k : List Command → Lower β}
    (hc : ∀ t ∈ c.atoms, ∀ env, Ensures W (lowerAtom env t) (P env))
    (hk : ∀ cs, Ensures W (k cs) fun b => P env cs → Q b) : Ensures W (do let cs ← single c (← c.lower env); k cs) Q :=
  (h.assembles env).value ((h.assembles env).expr c fun t ht => hc t ht env) hk

mutual

theorem stmt : ∀ (s : Stmt), (∀ t ∈ s.atoms, ∀ env, Ensures W (lowerAtom env t) (P env)) → ∀ env,
    Ensures W (s.lower env) (D env)
  | .missing _, _, _ | .ifOnly .., _, _ | .whileOnly .., _, _ | .misplaced .., _, _ =>
    .pure (h.simple ((h.assembles _).invalidAt _))
  | .block _ body, ha, _ => (stmts body ha _).bind fun _ => .pure (h.close _)
  | .ifThen _ c yes, ha, env => by
    obtain ⟨hc, hyes⟩ := List.forall_mem_append.mp ha
    exact h.condition hc fun _ => (h.branch env yes (stmt yes hyes)).bind fun _ => .pure fun hr hcs =>
      h.ifThen _ hcs hr.1 hr.2
  | .ifElse _ c yes no, ha, env => by
    obtain ⟨hc, hboth⟩ := List.forall_mem_append.mp ha
    obtain ⟨hyes, hno⟩ := List.forall_mem_append.mp hboth
    exact h.condition hc fun _ => (h.branch env yes (stmt yes hyes)).bind fun r =>
      (h.branch r.1 no (stmt no hno)).bind fun _ => .pure fun hr' hr hcs => h.ifElse _ hcs hr.1 hr.2 hr'.1 hr'.2
  | .while _ c body, ha, env => by
    obtain ⟨hc, hbody⟩ := List.forall_mem_append.mp ha
    exact h.condition hc fun _ => (h.branch _ body (stmt body hbody)).bind fun _ => .pure fun hr hcs =>
      h.loop _ hcs hr.1 hr.2
  | .return t, _, env => (h.lowerReturn ..).bind fun _ => .pure fun hr => hr (h.assembles env).nil
  | .returnWith .., ha, env =>
    ((h.assembles env).exprAll fun t ht => ha t ht env).bind fun _ => (h.lowerReturn ..).bind fun _ => .pure id
  | .exit e t, _, env => by
    have hexit : Ensures W (lowerExit env e t) fun code => D env (env, code) := by
      unfold lowerExit
      split
      · exact (h.report _).bind fun _ => .pure fun _ => h.nil env
      next hbase => exact .pure (h.exit e t.span hbase)
    exact hexit.bind fun _ => .pure id
  | .swap .., ha, env => by
    obtain ⟨ht, hv⟩ := List.forall_mem_append.mp ha
    exact ((h.assembles env).swap (fun t h => ht t h env) fun t h => hv t h env).bind fun _ => .pure h.simple
  | .expr _ e, ha, env =>
    ((h.assembles env).expr e fun t ht => ha t ht env).bind fun _ =>
      .pure fun hp => h.simple ((h.assembles env).append hp ((h.assembles env).popCommands ..))
  | .exprs .., ha, env =>
    ((h.assembles env).exprAll fun t ht => ha t ht env).bind fun _ =>
      .pure fun hp => h.simple ((h.assembles env).append hp ((h.assembles env).popCommands ..))
  | .declare .., _, _ => (h.typed ..).bind fun _ => .pure fun hr => hr.1
  | .declareAs _ _ value, ha, _ => (h.value _ _ _ value ha).bind fun _ => .pure id
  | .define .., _, _ => (h.typed ..).bind fun ⟨_, _, t?⟩ => by
    cases t? with
    | none => exact .pure fun hr => hr.1
    | some t => exact (h.report _).bind fun _ => .pure fun _ hr => hr.1
  | .external .., _, _ => (h.report _).bind fun _ => .pure fun _ => h.nil _
  | .declareMany .., _, _ => (h.several _ _ _ none nofun).bind fun _ => .pure id
  | .declareManyAs .., ha, _ => (h.several _ _ _ (some _) fun _ hv => Option.some.inj hv ▸ ha).bind fun _ => .pure id
  | .record .., _, _ | .enumeration .., _, _ =>
    (ensures_declare h.report ..).bind fun _ => .pure fun henv => henv ▸ h.enter rfl (by simp [SymbolInfo.IsFunction])
  | .use _ path alias?, _, env => by
    unfold Stmt.lower
    split
    · exact .pure (h.nil env)
    · exact (ensures_declare h.report ..).bind fun _ => .pure fun henv =>
        henv ▸ h.enter rfl (by simp [SymbolInfo.IsFunction])

theorem stmts : ∀ (body : List Stmt), (∀ t ∈ Stmt.atomsAll body, ∀ env, Ensures W (lowerAtom env t) (P env)) → ∀ env,
    Ensures W (Stmt.lowerAll env body) (D env)
  | [], _, env => .pure (h.nil env)
  | s :: rest, ha, env => by
    obtain ⟨hs, hrest⟩ := List.forall_mem_append.mp ha
    exact (stmt s hs env).bind fun _ => (stmts rest hrest _).bind fun _ => .pure fun hr' hr => h.trans hr hr'

end

/-- The code of a function: that of its parameters and of its body, between the two ends. -/
theorem function (globals : NameTable SymbolInfo) (name : Token) (signature : Signature) (params : List Token)
    (brace : Token) {body : List Stmt} (ha : ∀ t ∈ Stmt.atomsAll body, ∀ env, Ensures W (lowerAtom env t) (P env)) :
    Ensures W (lowerFunction globals name signature params brace body) fun f => ∃ env code,
      D (.ofFunction globals name.text signature.returns.length) (env, code) ∧
        f = Function.emitAll
          { name := name.text, params := signature.params.length, returns := signature.returns.length
            stackIndex := env.depth, frameSize := env.frameSize }
          ({ op := .framePush, span := name.span } :: code.commands ++
            functionEnd signature.returns.length (Stmt.block brace body).span) := by
  unfold lowerFunction
  dsimp only
  split
  case' isTrue => refine (h.report _).bind fun _ => Ensures.mono (R := fun f => ∃ env code, _ ∧ f = _) ?_ fun _ hf _ => hf
  -- whatever was reported, the body is the same
  all_goals
    refine (h.params (.ofFunction globals name.text signature.returns.length) _).bind fun r => (h.stmts body ha _).bind fun r' =>
      .pure fun hbody hparams => ⟨_, _, h.trans hparams (h.close (Stmt.block brace body).span hbody), ?_⟩
    rw [Code.commands_append, Code.commands_ofCommands]
    rfl

end Composes

/-! ## Globals -/

section

variable {W : Watch Notes} {P : List Command → Prop} {ctx : GlobalContext} (h : Assembles W P)
include h

theorem Assembles.storeGlobal (o : Nat) (span : Span) : P (storeGlobal o span) :=
  h.append (h.plain _ rfl (by simp)) (h.plain { op := .store, span } rfl (by simp))

theorem Assembles.initItem (root : Nat) (item : Stmt) (slots : List UInt64)
    (ha : ∀ t ∈ item.atoms, Ensures W (lowerAtom ctx.env t) P ∧ ∀ name o, ctx.layout.offsetFor? ctx.scope root name = some o →
      Ensures W (lowerAtom { ctx.env with excluded := some name.text } t) P) :
    Ensures W (initItem ctx root item slots) fun r => P r.2 := by
  unfold Wordstack.initItem
  split
  · split
    · exact .pure h.nil
    next o ho =>
      dsimp only
      split
      · exact (h.report _).bind fun _ => .pure fun _ => h.nil
      split
      · exact .pure h.nil
      · exact h.value (h.expr _ fun t ht => (ha t ht).2 _ o ho) fun _ => .pure fun hs => h.append hs (h.storeGlobal ..)
  next names _ values =>
    refine (h.exprAll fun t ht => (ha t ht).1).bind fun _ => (h.checkCount ..).bind fun _ =>
      .pure fun _ hp => h.append hp ?_
    clear ha
    induction names with
    | nil => exact h.nil
    | cons name names ih =>
      rw [List.flatMap_cons]
      refine h.append ?_ ih
      split
      · exact h.storeGlobal ..
      · exact h.popCommands ..
  · obtain ⟨ht, hv⟩ := List.forall_mem_append.mp ha
    exact (h.swap (fun t h => (ht t h).1) fun t h => (hv t h).1).bind fun _ => .pure id
  · exact .pure h.nil

theorem Assembles.initItems (root : Nat) (slots : List UInt64) (items : List Stmt)
    (ha : ∀ t ∈ Stmt.atomsAll items, Ensures W (lowerAtom ctx.env t) P ∧
      ∀ root name o, ctx.layout.offsetFor? ctx.scope root name = some o →
        Ensures W (lowerAtom { ctx.env with excluded := some name.text } t) P) :
    Ensures W (initItems ctx root slots items) fun r => P r.2 := by
  induction items generalizing root slots with
  | nil => exact .pure h.nil
  | cons item items ih =>
    obtain ⟨hitem, hrest⟩ := List.forall_mem_append.mp ha
    exact (h.initItem root item slots fun t ht => (hitem t ht).imp id (· root)).bind fun _ =>
      (ih _ _ hrest).bind fun _ => .pure fun hcodes hcode => h.append hcode hcodes

end

end Wordstack
