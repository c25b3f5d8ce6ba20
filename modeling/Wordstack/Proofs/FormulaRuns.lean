/-
What the machine makes of a formula. The code of a formula only looks, so that a run takes no more steps than there are
instructions. The text of a formula compiles, and a call of `main` returns the value of the formula, or stops where the
formula divides by zero.
-/
import Wordstack.Proofs.Correctness
import Wordstack.Proofs.Formulas
import Wordstack.Proofs.Looking

namespace Wordstack

/-! ## Code -/

/-- The run has come to a division by zero. -/
def Fault.IsDivision (e : Fault) : Prop := ∃ name i, e = .divisionByZero name i

/-- Code that leaves a value, or divides by zero if there is none. -/
abbrev Machine.Yields (v? : Option UInt64) (cs : List Command) : Prop := ∀ m : Machine, m.Leaves Fault.IsDivision cs v?

theorem single_value (e : Expr) (cs : List Command) : single e ⟨cs, 1⟩ = pure cs := rfl

theorem BinaryOp.opcode_of_computes {op : BinaryOp} (h : op.computes = true) (hand : op ≠ .and) (hor : op ≠ .or) :
    op.opcode ≠ .invalid := by
  cases op <;> simp_all [BinaryOp.computes, BinaryOp.opcode]

namespace Formula

open Machine

theorem eval_binary {op : BinaryOp} (h : op.computes = true) (hand : op ≠ .and) (hor : op ≠ .or) (l r : Formula) :
    (binary op h l r).eval = (do op.apply (← l.eval) (← r.eval)) := by
  cases op <;> first | rfl | exact absurd rfl hand | exact absurd rfl hor

/-- The code of a formula leaves its value. -/
theorem lower_of_bare (e : Formula) (env : Env) {e' : Expr} (h : e'.bare = e.tree) :
    ∃ cs, e'.lower env = pure ⟨cs, 1⟩ ∧ Yields e.eval cs := by
  induction e generalizing e' with
  | word v =>
    cases e' with
    | atom t =>
      have ht : t.bare = literal v := Expr.atom.inj h
      have hkind : t.kind = .integer := congrArg Token.kind ht
      have hliteral : t.literal = .unsigned v := congrArg Token.literal ht
      refine ⟨[{ op := .pushUnsign, operand := .unsigned v, span := t.span }], ?_, fun _ _ => Turns.one fun _ _ _ _ => rfl⟩
      rw [Expr.lower, lowerAtom, hkind, hliteral]
      rfl
    | _ => cases h
  | unary op hop e ih =>
    cases e' with
    | unary op' t e' =>
      obtain ⟨rfl, -, he⟩ := Expr.unary.inj h
      obtain ⟨cs, hcs, hleaves⟩ := ih he
      obtain ⟨w, hw⟩ : ∃ w, op'.apply 0 = some w := by cases op' <;> first | exact ⟨_, rfl⟩ | cases hop
      obtain ⟨apply, hopcode, happly⟩ := UnaryOp.opcode_apply hw
      refine ⟨cs ++ [{ op := op'.opcode, span := t.span }], ?_, fun m => ?_⟩
      · cases op' with
        | addressOf => cases hop
        | _ => rw [Expr.lower, hcs, pure_bind, single_value, pure_bind]; simp
      · rw [eval, happly]
        exact (hleaves m).unary hopcode
    | _ => cases h
  | binary op hop l r ihl ihr =>
    cases e' with
    | binary op' t l' r' =>
      obtain ⟨rfl, -, hl, hr⟩ := Expr.binary.inj h
      obtain ⟨ls, hls, hleft⟩ := ihl hl
      obtain ⟨rs, hrs, hright⟩ := ihr hr
      by_cases hand : op' = .and
      · subst hand
        refine ⟨shortCircuit .jumpIfNot t.span ls rs, ?_,
          fun m => .shortCircuit (.inr ⟨rfl, fun _ => .rfl⟩) (hleft m) (hright m)⟩
        rw [Expr.lower, hls, pure_bind, single_value, pure_bind, hrs, pure_bind, single_value, pure_bind]
      by_cases hor : op' = .or
      · subst hor
        refine ⟨shortCircuit .jumpIf t.span ls rs, ?_,
          fun m => .shortCircuit (.inl ⟨rfl, fun _ => .rfl⟩) (hleft m) (hright m)⟩
        rw [Expr.lower, hls, pure_bind, single_value, pure_bind, hrs, pure_bind, single_value, pure_bind]
      have hopcode := BinaryOp.opcode_of_computes hop hand hor
      obtain ⟨apply, hbinary, happly⟩ := BinaryOp.opcode_apply hopcode
      refine ⟨rs ++ ls ++ [{ op := op'.opcode, span := t.span }], ?_, fun m => ?_⟩
      · rw [Expr.lower_binary hopcode, hrs, pure_bind, single_value, pure_bind, hls, pure_bind, single_value, pure_bind]
      · have hvalue : (do op'.apply (← l.eval) (← r.eval)) = r.eval.bind fun b => l.eval.bind fun a => apply a b := by
          cases l.eval <;> cases r.eval <;> simp [happly]
        rw [eval_binary hop hand hor, hvalue]
        exact (hright m).binary hbinary (fun name i => ⟨name, i, rfl⟩) (hleft m)
    | _ => cases h

end Formula

/-! ## Programs -/

namespace Formula

open Machine

section

variable {name : Token} (t start u brace : Token)

theorem describe_mainType (hu : u.kind = .primitive .u64) :
    (TypeExpr.functionTo t [] start [.name u]).describeSignature.result =
      (.ok ⟨[], [.ofBase (.primitive .u64)], false⟩, []) := by
  simp only [TypeExpr.describeSignature, TypeExpr.isFunction, if_true, TypeExpr.describe, Param.describeAll,
    TypeExpr.describeAll, hu, pure_bind]
  rfl

/-- The entry of a function without parameters that returns a word. -/
def mainEntry (item : Stmt) (span : Span) : Entry :=
  { kind := .func, root := 0, item, span, data := .func ⟨[], [.ofBase (.primitive .u64)], false⟩ }

theorem scope_main {u : Token} (hname : name.text = "main") (hu : u.kind = .primitive .u64) (body : List Stmt) :
    Scope.ofItems [.define name (.functionTo t [] start [.name u]) brace body] =
    ⟨[("main", mainEntry (.define name (.functionTo t [] start [.name u]) brace body) name.span)], []⟩ := by
  have hdescribe := describe_mainType t start u hu
  have herror : (TypeExpr.functionTo t [] start [.name u]).isError = false := rfl
  simp only [Scope.ofItems, Survey.declareItems, Survey.declareItem, Survey.declareSingle, herror, hdescribe, hname,
    TypeExpr.isFunction, if_true, Bool.false_eq_true, if_false, Survey.functionKind]
  have hunused : Survey.unusedPrototypes
      [("main", mainEntry (.define name (.functionTo t [] start [.name u]) brace body) name.span)] = [] := by
    simp [Survey.unusedPrototypes, mainEntry]
  exact congrArg (Analysis.mk _) hunused

/-- The body of the function: it computes the value and returns. -/
theorem lowerAll_return {env : Env} (hreturns : env.returns = 1) (hdepth : env.depth = 0) {e' : Expr} {cs : List Command}
    (h : e'.lower env = pure ⟨cs, 1⟩) (t start : Token) : Stmt.lowerAll env [.returnWith t ⟨start, [e']⟩] =
      pure (env, .ofCommands (cs ++ [{ op := .framePop, span := t.span }, { op := .ret, span := t.span }])) := by
  have hvalues : ExprList.lower env ⟨start, [e']⟩ = pure ⟨cs, 1⟩ := by
    simp only [ExprList.lower, Expr.lowerAll, pure_bind, h, List.nil_append, Nat.zero_add]
  have hreturn : ∀ ok, lowerReturn env t ⟨cs, 1⟩ ok =
      pure (cs ++ [{ op := .framePop, span := t.span }, { op := .ret, span := t.span }]) := by
    intro ok
    simp [lowerReturn, hreturns, hdepth, freeCommands]
  simp only [Stmt.lowerAll, Stmt.lower, hvalues, pure_bind, hreturn, List.append_nil]

theorem lowerFunction_main (hname : name.text = "main") (globals : NameTable SymbolInfo) (t' start' : Token)
    {e : Formula} {e' : Expr} (he : e'.bare = e.tree) : ∃ cs span, Yields e.eval cs ∧
      lowerFunction globals name ⟨[], [.ofBase (.primitive .u64)], false⟩ [] brace [.returnWith t' ⟨start', [e']⟩] =
        pure (Function.emitAll { name := "main", returns := 1 } ({ op := .framePush, span := name.span } ::
          (cs ++ [{ op := .framePop, span := t'.span }, { op := .ret, span := t'.span }, { op := .brk, span }]))) := by
  obtain ⟨cs, hcs, hleaves⟩ := lower_of_bare e
    { globals, blocks := [[], []], function := name.text, returns := 1 } he
  refine ⟨cs, (Stmt.block brace [.returnWith t' ⟨start', [e']⟩]).span, hleaves, ?_⟩
  have hbody := lowerAll_return rfl rfl hcs t' start'
  unfold lowerFunction
  simp only [List.length_cons, List.length_nil, List.zip_nil_left, lowerParams, pure_bind, Env.openBlock, hbody,
    Env.close, Nat.zero_add, Nat.sub_self, freeCommands, if_true]
  rw [if_neg (by decide), show Code.ofCommands [] = [] from rfl, List.append_nil, Code.commands_ofCommands, hname]
  simp only [functionEnd, List.append_assoc, List.cons_append, List.nil_append]
  rfl

/-- The code of a function that returns what the given code leaves. -/
def mainCode (push pop last : Span) (cs : List Command) : List Command :=
  { op := .framePush, span := push } ::
    (cs ++ [{ op := .framePop, span := pop }, { op := .ret, span := pop }, { op := .brk, span := last }])

/-- A program of one function and no globals. -/
def mainProgram (cs : List Command) : Program where
  functions := [Function.emitAll { name := "main", returns := 1 } cs]
  init := Function.emitAll { name := Program.initName }
    [{ op := .setupGlobal, operand := .unsigned 0, span := .nowhere }, { op := .ret, span := .nowhere }]

/-- The program of a formula has one function. -/
theorem ofItems_main (t' start' : Token) (hname : name.text = "main") {scope : Scope} {entry : Entry}
    (hentry : scope.get? "main" = some entry) (hkind : entry.kind = .func)
    (hroot : entry.root = 0) (hsignature : entry.signature? = some ⟨[], [.ofBase (.primitive .u64)], false⟩)
    {e : Formula} {e' : Expr} (he : e'.bare = e.tree) : ∃ cs push pop last, Yields e.eval cs ∧
      Program.ofItems [.define name (.functionTo t [] start [.name u]) brace [.returnWith t' ⟨start', [e']⟩]] scope =
        ⟨mainProgram (mainCode push pop last cs), []⟩ := by
  obtain ⟨cs, last, hleaves, hfunction⟩ := lowerFunction_main brace hname (Layout.symbols scope {}) t' start' he
  refine ⟨cs, name.span, t'.span, last, hleaves, ?_⟩
  have hlayout : Layout.ofItems scope
      [.define name (.functionTo t [] start [.name u]) brace [.returnWith t' ⟨start', [e']⟩]] = {} := by
    simp [Layout.ofItems, Layout.placeItems, Stmt.variables, Layout.place, hname, hentry, hkind]
  have hfor : ∀ ctx : GlobalContext, ctx.scope = scope → lowerItem.signatureFor? ctx 0 name =
      some ⟨[], [.ofBase (.primitive .u64)], false⟩ := by
    intro ctx hctx
    simp [lowerItem.signatureFor?, hctx, hname, hentry, hkind, hroot, hsignature]
  unfold Program.ofItems
  simp only [hlayout, lowerItems, lowerItem, hfor, TypeExpr.paramTokens, List.map_nil, hfunction]
  rfl

end

/-- Every formula compiles. -/
theorem compile_source (e : Formula) (name : String) :
    ∃ c cs push pop last, compile name e.source = .ok c ∧ c.program = mainProgram (mainCode push pop last cs) ∧
      Yields e.eval cs := by
  obtain ⟨herrors, hroots⟩ := e.parse_source
  obtain ⟨s, hs, hbare⟩ := List.map_eq_singleton_iff.mp hroots
  obtain ⟨main, t, start, u, brace, t', start', e', rfl, hmain, hu, he'⟩ := exists_of_bare_item hbare
  have hscope := scope_main t start brace hmain hu [.returnWith t' ⟨start', [e']⟩]
  rw [← hs] at hscope
  obtain ⟨cs, push, pop, last, hleaves, hprogram⟩ := ofItems_main t start u brace t' start' hmain
    (show NameTable.get? "main" (Scope.ofItems (parse e.source).roots).scope = some _ by rw [hscope]; rfl) rfl rfl rfl he'
  rw [← hs] at hprogram
  have hnone : (SourceUnit.ofSource e.source).errors = [] := by
    show (parse e.source).errors.map CompileError.parse ++ (Scope.ofItems (parse e.source).roots).errors.map .scope ++
      (Program.ofItems (parse e.source).roots (Scope.ofItems (parse e.source).roots).scope).errors.map .code = []
    rw [herrors, hprogram, hscope]
    rfl
  obtain ⟨c, hc, hlowered⟩ := compile_of_errors name
    (show (SourceUnit.ofSource e.source).errors.any CompileError.isFatal = false by rw [hnone]; rfl)
  exact ⟨c, cs, push, pop, last, hc, hlowered.trans (congrArg Lowered.program hprogram), hleaves⟩

end Formula

/-! ## Calls -/

namespace Machine

variable {m : Machine} {p : Program} {size : Nat} {F : Faults} {cs : List Command}

/-- The setup of no globals takes two steps. -/
theorem Idle.init_ends (h : m.Idle p size) :
    Ends F (run (Formula.mainProgram cs).init) m fun _ m' => m'.Idle p size ∧ m'.steps = m.steps + 2 := by
  have hcode := Function.holds_emitAll (f := { name := Program.initName }) rfl
    [{ op := .setupGlobal, operand := .unsigned 0, span := .nowhere }, { op := .ret, span := .nowhere }]
  refine h.run_ends fun i hi => ?_
  have hm := (h.entered i).1
  have hreturn := load?_entered hi
  have hsteps := entered_steps i m
  generalize m.entered i = m₁ at hm hreturn hsteps ⊢
  exact .step (.setupGlobal hcode.head)
    (.here ⟨⟨_, hcode.tail.head⟩, ⟨_, hreturn⟩, hm.update _ _ _ _ _, congrArg (· + 2) hsteps⟩)

/-- A run of the function takes three steps more than the code that it holds. -/
theorem Idle.main_ends (h : m.Idle p size) (hstack : m.stack = []) {v? : Option UInt64} {f : Function} {push pop last : Span}
    (hleaves : Yields v? cs) (hcode : f.Holds 0 (Formula.mainCode push pop last cs))
    {bound : Nat} (hbound : m.steps + cs.length + 1 ≤ bound) :
    Ends (fun e n => v? = none ∧ e.IsDivision ∧ n ≤ bound) (run f) m fun _ m' =>
      ∃ v, v? = some v ∧ m'.stack.reverse = [v] ∧ m'.steps ≤ bound + 2 := by
  refine h.run_ends fun i hi => ?_
  obtain ⟨hm, hg⟩ := h.entered i
  have hreturn := load?_entered hi
  have hsteps := entered_steps i m
  have hempty : (m.entered i).stack = [] := by rw [entered_stack, hstack]
  have hrsp : (m.entered i).rsp.toNat + 8 = (m.entered i).stackTop.toNat := by simpa using h.entry.2.1
  generalize m.entered i = m₁ at hm hg hreturn hsteps hempty hrsp ⊢
  have hroom : m₁.stackLimit.toNat + 8 ≤ m₁.rsp.toNat := by
    have := hm.frames
    unfold stackSize at this
    omega
  obtain ⟨j, hj⟩ : ∃ j, m₁.memory.offset? (m₁.rsp - 8) = some j := ⟨_, (hg.push hroom).2.offset?⟩
  have hload := Memory.load?_setWordAt_self m₁.rbp hj
  have hback : ∃ v, (m₁.memory.setWordAt j m₁.rbp).load? (m₁.rsp - 8 + 8) = some v := by
    rw [UInt64.sub_add_cancel]
    exact ⟨_, (Memory.inRange_setWordAt.mpr (Memory.inRange_of_load? hreturn)).load?⟩
  refine .step (.framePush hcode.head hroom hj) ?_
  have hbody := hleaves { m₁ with rsp := m₁.rsp - 8, rbp := m₁.rsp - 8, memory := m₁.memory.setWordAt j m₁.rbp } m₁.stack
    (m₁.steps + 1)
  refine ((hbody.weaken ?_) f [] 1 hcode.tail.left).bind ?_
  · intro e n ⟨hnone, he, hn⟩
    exact ⟨Option.map_eq_none_iff.mp hnone, he, by omega⟩
  · rintro _ _ ⟨rfl, stack', steps', hstack', hle, rfl⟩
    obtain ⟨v, hv, rfl⟩ := Option.map_eq_some_iff.mp hstack'
    have hrest := hcode.tail.right
    refine .step (.framePop hrest.head hload) (.here ⟨⟨_, hrest.tail.head⟩, hback, v, hv, ?_, ?_⟩)
    · exact congrArg (fun st => (v :: st).reverse) hempty
    · show steps' + 1 + 1 ≤ bound + 2
      omega

end Machine

/-- How many instructions the functions of a program have. The setup of the globals does not count. -/
def Program.instructionCount (p : Program) : Nat := (p.functions.map Function.length).sum

namespace Formula

open Machine

variable {v? : Option UInt64} {cs : List Command} {push pop last : Span} {fuel : Nat}

theorem instructionCount_mainProgram : (mainProgram (mainCode push pop last cs)).instructionCount = cs.length + 4 := by
  simp [Program.instructionCount, mainProgram, mainCode, Function.length_emitAll]

theorem fits_mainProgram (cs : List Command) : (mainProgram cs).Fits := by
  show Memory.base.toNat + roundUp 0 + stackSize < UInt64.size
  decide

theorem function?_mainProgram (cs : List Command) :
    (mainProgram cs).function? "main" = some (Function.emitAll { name := "main", returns := 1 } cs) := by
  simp [Program.function?, mainProgram]

/-- Every instruction is executed at most once, and the last one of the function never. -/
theorem call_mainProgram (h : Yields v? cs) (hfuel : (mainProgram (mainCode push pop last cs)).instructionCount < fuel) :
    (∃ v m, v? = some v ∧ call "main" (ofProgram (mainProgram (mainCode push pop last cs)) fuel) = .ok [v] m) ∨
      (v? = none ∧ ∃ f i m, call "main" (ofProgram (mainProgram (mainCode push pop last cs)) fuel) =
        .error (.divisionByZero f i) m) := by
  rw [instructionCount_mainProgram] at hfuel
  have hidle := idle_ofProgram (fits_mainProgram (mainCode push pop last cs)) 0
  have hcode := Function.holds_emitAll (f := { name := "main", returns := 1 }) rfl (mainCode push pop last cs)
  have hx := Function.emitAll_external { name := "main", returns := 1 } (mainCode push pop last cs)
  obtain ⟨k, hend⟩ : Ends (fun e n => v? = none ∧ e.IsDivision ∧ n ≤ cs.length + 3) (call "main")
      (ofProgram (mainProgram (mainCode push pop last cs)) 0) fun vs m =>
        ∃ v, v? = some v ∧ vs = [v] ∧ m.steps ≤ cs.length + 3 + 2 := by
    refine call_ends rfl (hidle.update 0 0 _ [] true).init_ends fun m₁ hinit => ?_
    obtain ⟨hm₁, hsteps⟩ := hinit
    refine ⟨_, ?_, hx, ?_⟩
    · rw [hm₁.program]
      exact function?_mainProgram _
    · have hsteps : m₁.steps = 0 + 2 := hsteps
      refine (hm₁.update m₁.fuel m₁.steps m₁.rsp [] m₁.initialized).main_ends rfl h hcode ?_
      show m₁.steps + cs.length + 1 ≤ cs.length + 3
      omega
  rcases hend with ⟨_, m, ⟨v, hv, rfl, hle⟩, hsteps, hcall⟩ | ⟨_, ⟨hnone, ⟨f, i, rfl⟩, hle⟩, hcall⟩
  · have hsteps : m.steps = 0 + k := hsteps
    obtain ⟨n, rfl⟩ : ∃ n, fuel = n + k := ⟨fuel - k, by omega⟩
    exact .inl ⟨v, _, hv, hcall n⟩
  · have hle : 0 + k ≤ cs.length + 3 := hle
    obtain ⟨n, rfl⟩ : ∃ n, fuel = n + k := ⟨fuel - k, by omega⟩
    exact .inr ⟨hnone, f, i, hcall n⟩

/-- A formula compiles, and with fuel for all instructions a call of `main` returns its value, or stops at a division
by zero if there is none. -/
theorem call_source (e : Formula) (name : String) :
    ∃ c, compile name e.source = .ok c ∧ ∀ fuel, c.program.instructionCount < fuel →
      (∀ v, (∃ m, call "main" (ofProgram c.program fuel) = .ok [v] m) ↔ e.eval = some v) ∧
      ((∃ f i m, call "main" (ofProgram c.program fuel) = .error (.divisionByZero f i) m) ↔ e.eval = none) := by
  obtain ⟨c, cs, push, pop, last, hc, hprogram, hleaves⟩ := e.compile_source name
  refine ⟨c, hc, fun fuel hfuel => ?_⟩
  rw [hprogram] at hfuel ⊢
  obtain ⟨v, m, hv, hcall⟩ | ⟨hnone, f, i, m, hcall⟩ := call_mainProgram hleaves hfuel
  · rw [hv, hcall]
    refine ⟨fun w => ⟨?_, ?_⟩, ?_, ?_⟩
    · rintro ⟨_, h⟩
      cases h
      rfl
    · rintro h
      cases h
      exact ⟨m, rfl⟩
    · rintro ⟨_, _, _, h⟩
      cases h
    · rintro h
      cases h
  · rw [hnone, hcall]
    refine ⟨fun w => ⟨?_, ?_⟩, fun _ => rfl, fun _ => ⟨f, i, m, rfl⟩⟩
    · rintro ⟨_, h⟩
      cases h
    · rintro h
      cases h

/-- The quotient is never computed. -/
def guarded : Formula :=
  .binary .or rfl (.binary .and rfl (.word 0) (.binary .div rfl (.word 1) (.word 0))) (.unary .neg rfl (.word 7))

/-- The right operand of the remainder is zero. -/
def unguarded : Formula := .binary .mod rfl (.word 5) (.binary .bitXor rfl (.word 3) (.word 3))

theorem call_source_guarded :
    (∃ c, compile "guarded" "main : () -> u64 = \x7b return ( ( 0 && ( 1 / 0 ) ) || ( - 7 ) ); \x7d" = .ok c ∧
      c.program.instructionCount < c.program.instructionCount + 1 ∧
      ∃ m, call "main" (ofProgram c.program (c.program.instructionCount + 1)) = .ok [18446744073709551609] m) ∧
    ∃ c, compile "unguarded" "main : () -> u64 = \x7b return ( 5 % ( 3 ^ 3 ) ); \x7d" = .ok c ∧
      c.program.instructionCount < c.program.instructionCount + 1 ∧
      ∃ f i m, call "main" (ofProgram c.program (c.program.instructionCount + 1)) = .error (.divisionByZero f i) m := by
  obtain ⟨c, hc, hcalls⟩ := call_source guarded "guarded"
  obtain ⟨c', hc', hcalls'⟩ := call_source unguarded "unguarded"
  rw [show guarded.source = "main : () -> u64 = \x7b return ( ( 0 && ( 1 / 0 ) ) || ( - 7 ) ); \x7d" by decide] at hc
  rw [show unguarded.source = "main : () -> u64 = \x7b return ( 5 % ( 3 ^ 3 ) ); \x7d" by decide] at hc'
  exact ⟨⟨c, hc, Nat.lt_succ_self _, ((hcalls _ (Nat.lt_succ_self _)).1 _).mpr (by decide)⟩,
    c', hc', Nat.lt_succ_self _, (hcalls' _ (Nat.lt_succ_self _)).2.mpr (by decide)⟩

end Formula

end Wordstack
