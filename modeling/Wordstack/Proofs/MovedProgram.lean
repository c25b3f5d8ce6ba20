/-
Programs and their places. The program of moved items is the program of the items, moved, but
for the two commands of the setup that no text asks for; and neither the listing of a program
nor its assembly shows any place.
-/
import Wordstack.Proofs.Frames
import Wordstack.Proofs.MovedCode

namespace Wordstack

open Lower

instance : Placed UInt64 := .nowhere _
instance : Placed Parameter := .nowhere _

@[simp] theorem move_words (f : Span → Span) (ws : List UInt64) : move f ws = ws := List.map_id ws

/-! ## Globals -/

section

variable (f : Span → Span)

theorem Stmt.variables_move (s : Stmt) : (move f s).variables = move f s.variables := by
  cases s <;> rfl

namespace Layout

theorem place_move (scope : Scope) (root : Nat) (l : Layout) (name : Token) :
    place (move f scope) root l (move f name) = place scope root l name := by
  unfold place
  rw [Token.text_move, NameTable.get?_move]
  cases scope.get? name.text <;> rfl

theorem placeItems_move (scope : Scope) (root : Nat) (l : Layout) (items : List Stmt) :
    placeItems (move f scope) root l (move f items) = placeItems scope root l items := by
  have hnames : ∀ (root : Nat) (l : Layout) (names : List Token),
      (move f names).foldl (place (move f scope) root) l = names.foldl (place scope root) l := by
    intro root l names
    induction names generalizing l with
    | nil => rfl
    | cons name names ih =>
      rw [move_cons, List.foldl_cons, List.foldl_cons, place_move]
      exact ih _
  induction items generalizing root l with
  | nil => rfl
  | cons item items ih =>
    rw [move_cons, placeItems, placeItems, Stmt.variables_move, hnames]
    exact ih _ _

theorem symbols_move (scope : Scope) (l : Layout) : symbols (move f scope) l = move f (symbols scope l) := by
  refine map_move (fun _ => ?_) scope
  rfl

theorem offsetFor?_move (scope : Scope) (l : Layout) (root : Nat) (name : Token) :
    offsetFor? (move f scope) l root (move f name) = offsetFor? scope l root name := by
  unfold offsetFor?
  rw [Token.text_move, NameTable.get?_move]
  cases scope.get? name.text <;> rfl

end Layout

theorem Expr.constant?_move (e : Expr) : (move f e).constant? = e.constant? := by
  unfold Expr.constant?
  rw [show (move f e).atom? = e.atom?.map (move f) from e.atom?_moved]
  rcases e.atom? with _ | ⟨kind, text, span, literal⟩
  · rfl
  · cases kind with
    | keyword k => cases k <;> cases literal <;> rfl
    | _ => cases literal <;> rfl

end

instance : Placed GlobalContext where
  move f ctx := { ctx with scope := move f ctx.scope, env := move f ctx.env }
  move_id ctx := by simp only [move_id]
  move_move f g ctx := by simp only [move_move]

theorem GlobalContext.offsetFor?_move (f : Span → Span) (ctx : GlobalContext) (root : Nat) (name : Token) :
    (move f ctx).layout.offsetFor? (move f ctx).scope root (move f name) = ctx.layout.offsetFor? ctx.scope root name :=
  ctx.layout.offsetFor?_move f ctx.scope root name

theorem GlobalContext.get?_move (f : Span → Span) (ctx : GlobalContext) (name : Token) :
    (move f ctx).scope.get? (move f name).text = move f (ctx.scope.get? name.text) :=
  NameTable.get?_move f ctx.scope name.text

variable {f : Span → Span} {K : Parallel f}

@[simp] theorem move_storeGlobal (offset : Nat) (span : Span) : move f (storeGlobal offset span) = storeGlobal offset (f span) := rfl

theorem moves_initItem (hf : Span.Steady f) (ctx : GlobalContext) (root : Nat) (item : Stmt) (slots : List UInt64) :
    Moves K (initItem (move f ctx) root (move f item) slots) (initItem ctx root item slots) := by
  have hnone : Moves K (pure (slots, [])) (pure ((slots, []) : List UInt64 × List Command)) := moves_pure (by simp)
  cases item with
  | declareAs name ty value =>
    rw [show move f (Stmt.declareAs name ty value) = .declareAs (move f name) (move f ty) (move f value) from rfl]
    unfold initItem
    dsimp only
    rw [ctx.offsetFor?_move, ctx.get?_move, Expr.constant?_move]
    cases ctx.layout.offsetFor? ctx.scope root name with
    | none => exact hnone
    | some offset =>
      dsimp only
      rw [show ((move f (ctx.scope.get? name.text)).any fun e => e.type?.any Ty.isArray) =
        (ctx.scope.get? name.text).any fun e => e.type?.any Ty.isArray by cases ctx.scope.get? name.text <;> rfl]
      refine .ite (fun _ => moves_reporting (congrArg _ (Expr.span_move hf value)) hnone) fun _ => ?_
      cases value.constant? with
      | some v => exact moves_pure (by simp)
      | none => exact moves_value hf { ctx.env with excluded := some name.text } value fun code => moves_pure (by simp)
  | declareManyAs t names types values =>
    refine moves_bind (moves_lowerAll hf ctx.env values.items) fun p => ?_
    rw [length_move]
    refine moves_bind (moves_checkCount hf names.length p.values values) fun _ => moves_pure ?_
    rw [move_pair, move_words, move_append]
    refine congrArg (fun stores => (slots, move f p.code ++ stores)) ?_
    induction names with
    | nil => rfl
    | cons name names ih =>
      rw [move_cons, List.flatMap_cons, List.flatMap_cons, move_append, ih]
      refine congrArg (· ++ _) ?_
      rw [ctx.offsetFor?_move]
      cases ctx.layout.offsetFor? ctx.scope root name <;> rfl
  | swap t targets values => exact moves_bind (moves_lowerSwap hf ctx.env targets values) fun code => moves_pure (by simp)
  | _ => exact hnone

theorem moves_initItems (hf : Span.Steady f) (ctx : GlobalContext) (root : Nat) (slots : List UInt64) (items : List Stmt) :
    Moves K (initItems (move f ctx) root slots (move f items)) (initItems ctx root slots items) := by
  induction items generalizing root slots with
  | nil => exact moves_pure (by simp)
  | cons item items ih =>
    refine moves_bind (moves_initItem hf ctx root item slots) fun r => ?_
    obtain ⟨slots, code⟩ := r
    rw [move_pair, move_words]
    exact moves_bind (ih (root + 1) slots) fun r => moves_pure (congrArg (Prod.mk _) (move_append f code r.2).symm)

/-! ## Functions -/

instance : Placed Instr where
  move f i := { i with span := f i.span }
  move_id _ := rfl
  move_move _ _ _ := rfl

theorem Instr.index_move (i : Instr) : (move f i).index = i.index := rfl

instance : Placed Function where
  move f fn := { fn with code := fn.code.map (move f) }
  move_id fn := by
    have h : (move id : Instr → Instr) = id := funext move_id
    rw [h, Array.map_id]
  move_move f g fn := by
    have h : (move f ∘ move g : Instr → Instr) = move (f ∘ g) := funext (move_move f g)
    simp only [Array.map_map, h]

theorem Function.emitAll_move (fn : Function) (cs : List Command) : (move f fn).emitAll (move f cs) = move f (fn.emitAll cs) := by
  have hemit : ∀ (fn : Function) (c : Command), (move f fn).emit (move f c) = move f (fn.emit c) := by
    intro fn c
    refine congrArg (fun code => { fn with code := code }) ?_
    show (fn.code.map (move f)).push { move f c with index := (fn.code.map (move f)).size } = (fn.code.push _).map (move f)
    rw [Array.map_push, Array.size_map]
    rfl
  induction cs generalizing fn with
  | nil => rfl
  | cons c cs ih =>
    rw [move_cons, emitAll, List.foldl_cons, hemit]
    exact ih (fn.emit c)

/-- A function that is put together from nothing. -/
theorem Function.move_emitAll {fn : Function} (h : fn.code = #[]) (cs : List Command) :
    move f (fn.emitAll cs) = fn.emitAll (move f cs) := by
  have hempty : move f fn = fn := by
    obtain ⟨name, params, returns, external, code, stackIndex, frameSize⟩ := fn
    subst h
    exact congrArg (Function.mk name params returns external · stackIndex frameSize) Array.map_empty
  rw [← emitAll_move, hempty]

theorem TypeExpr.paramTokens_move (ty : TypeExpr) : (move f ty).paramTokens = move f ty.paramTokens := by
  have hparams : ∀ ps : List Param, (move f ps).map Param.token = move f (ps.map Param.token) :=
    map_move fun p => by cases p <;> rfl
  cases ty with
  | function t ps =>
    rw [TypeExpr.move_function]
    exact hparams ps
  | functionTo t ps start rs =>
    rw [TypeExpr.move_functionTo]
    exact hparams ps
  | _ => rfl

theorem zip_move (ps : List Parameter) (ts : List Token) : ps.zip (move f ts) = move f (ps.zip ts) := List.zip_map_right

theorem moves_lowerParams (env : Env) (params : List (Parameter × Token)) :
    Moves K (lowerParams (move f env) (move f params)) (lowerParams env params) := by
  induction params generalizing env with
  | nil => exact moves_pure rfl
  | cons param params ih =>
    obtain ⟨p, t⟩ := param
    refine moves_bind (moves_declare (env.alloc Ty.slotSize) p.name
      (localVar t.span (env.alloc Ty.slotSize).depth p.type.asArgument)) fun env => ?_
    refine moves_bind (ih env) fun r => moves_pure (congrArg (Prod.mk _) ?_)
    rw [move_append]
    rfl

@[simp] theorem move_functionEnd (returns : Nat) (span : Span) : move f (functionEnd returns span) = functionEnd returns (f span) := by
  unfold functionEnd
  split <;> rfl

theorem moves_lowerFunction (hf : Span.Steady f) (globals : NameTable SymbolInfo) (name : Token) (signature : Signature)
    (params : List Token) (brace : Token) (body : List Stmt) :
    Moves K (lowerFunction (move f globals) (move f name) signature (move f params) (move f brace) (move f body))
      (lowerFunction globals name signature params brace body) := by
  have hspan : (Stmt.block (move f brace) (move f body)).span = f (Stmt.block brace body).span := by
    rw [← Stmt.move_block, Stmt.span_move hf]
  unfold lowerFunction
  dsimp only
  rw [zip_move, hspan]
  refine .ite (fun _ => moves_reporting rfl ?_) fun _ => ?_
  all_goals
    refine moves_bind (moves_lowerParams ⟨globals, [[]], none, 0, 0, none, name.text, signature.returns.length⟩ _) fun r => ?_
    obtain ⟨env, spill⟩ := r
    refine moves_bind (moves_lowerStmts hf body env.openBlock) fun r => moves_pure ?_
    obtain ⟨inner, code⟩ := r
    have hclose := Env.close_move f env inner code (Stmt.block brace body).span
    rw [Function.move_emitAll rfl, move_append, move_append, move_functionEnd, ← Code.commands_move]
    exact congrArg (fun closed => Function.emitAll _
      ({ op := .framePush, span := f name.span } :: move f spill ++ Code.commands closed.2 ++ functionEnd _ _)) hclose

theorem moves_lowerItem (hf : Span.Steady f) (ctx : GlobalContext) (root : Nat) (item : Stmt) :
    Moves K (lowerItem (move f ctx) root (move f item)) (lowerItem ctx root item) := by
  have hsignature : ∀ name : Token, lowerItem.signatureFor? (move f ctx) root (move f name) =
      lowerItem.signatureFor? ctx root name := by
    intro name
    unfold lowerItem.signatureFor?
    rw [ctx.get?_move]
    cases ctx.scope.get? name.text <;> rfl
  cases item with
  | define name ty brace body =>
    rw [Stmt.move_define]
    unfold lowerItem
    dsimp only
    rw [hsignature, TypeExpr.paramTokens_move]
    cases lowerItem.signatureFor? ctx root name with
    | none => exact moves_pure rfl
    | some s =>
      exact moves_bind (moves_lowerFunction hf ctx.env.globals name s ty.paramTokens brace body) fun _ => moves_pure rfl
  | external name ty =>
    rw [show move f (Stmt.external name ty) = .external (move f name) (move f ty) from rfl]
    unfold lowerItem
    dsimp only
    rw [hsignature]
    cases lowerItem.signatureFor? ctx root name with
    | none => exact moves_pure rfl
    | some s => exact moves_pure (congrArg some (Function.move_emitAll rfl []).symm)
  | _ => exact moves_pure rfl

theorem moves_lowerItems (hf : Span.Steady f) (ctx : GlobalContext) (root : Nat) (items : List Stmt) :
    Moves K (lowerItems (move f ctx) root (move f items)) (lowerItems ctx root items) := by
  induction items generalizing root with
  | nil => exact moves_pure rfl
  | cons item items ih =>
    refine moves_bind (moves_lowerItem hf ctx root item) fun fn? => moves_bind (ih (root + 1)) fun fns => moves_pure ?_
    rw [move_append]
    cases fn? <;> rfl

/-! ## Programs -/

instance : Placed Program where
  move f p := { p with functions := move f p.functions, init := move f p.init }
  move_id p := by simp only [move_id]
  move_move f g p := by simp only [move_move]

namespace Program

variable (f)

theorem insertSorted_move (fn : Function) (fns : List Function) :
    insertSorted (move f fn) (move f fns) = move f (insertSorted fn fns) := by
  induction fns with
  | nil => rfl
  | cons fn' fns ih =>
    show (if fn.name < fn'.name then move f fn :: move f fn' :: move f fns
      else if fn.name = fn'.name then move f fn :: move f fns
      else move f fn' :: insertSorted (move f fn) (move f fns)) = move f (if _ then _ else if _ then _ else _)
    rw [ih]
    split
    · rfl
    split <;> rfl

theorem insertAll_move (p : Program) (fns : List Function) :
    (move f fns).foldl insert (move f p) = move f (fns.foldl insert p) := by
  induction fns generalizing p with
  | nil => rfl
  | cons fn fns ih =>
    rw [move_cons, List.foldl_cons, List.foldl_cons, ← ih]
    exact congrArg (fun functions => (move f fns).foldl insert { move f p with functions := functions })
      (insertSorted_move f fn p.functions)

variable {f}

theorem moves_parts (hf : Span.Steady f) (ctx : GlobalContext) (items : List Stmt) :
    Moves K (parts (move f ctx) (move f items)) (parts ctx items) := by
  refine moves_bind (moves_initItems hf ctx 0 _ items) fun r => ?_
  exact moves_bind (moves_lowerItems hf ctx 0 items) fun fns => moves_pure rfl

/-- What is reported about the items moves along with them, and so does their program; but the setup of the globals begins
and ends with commands that stand nowhere. -/
theorem ofItems_move (hf : Span.Steady f) (items : List Stmt) (scope : Scope) :
    (ofItems (move f items) (move f scope)).errors = move f (ofItems items scope).errors ∧
      unplaced (ofItems (move f items) (move f scope)).program = unplaced (ofItems items scope).program := by
  have hparts := (moves_parts hf (.ofItems items scope) items).eq {}
  rw [show move f ({} : Notes) = {} from rfl] at hparts
  have hlayout : Layout.ofItems (move f scope) (move f items) = Layout.ofItems scope items := Layout.placeItems_move f scope 0 {} items
  have hcontext : GlobalContext.ofItems (move f items) (move f scope) = move f (GlobalContext.ofItems items scope) := by
    unfold GlobalContext.ofItems
    rw [hlayout]
    dsimp only
    rw [Layout.symbols_move]
    rfl
  have hsetup : ∀ slots code, unplaced (setup slots (move f code)) = unplaced (setup slots code) := by
    intro slots code
    refine (Function.move_emitAll rfl _).trans (Eq.trans (congrArg (Function.emitAll _) ?_) (Function.move_emitAll rfl _).symm)
    rw [move_append, move_append, move_cons, move_cons, move_move]
    rfl
  rw [ofItems_eq, ofItems_eq, hcontext, hparts, hlayout]
  generalize parts (.ofItems items scope) items {} = r
  obtain ⟨⟨globals, code, fns⟩, notes⟩ := r
  refine ⟨rfl, ?_⟩
  refine (insertAll_move _ _ _).symm.trans (Eq.trans ?_ (insertAll_move _ _ _))
  refine congr (congrArg (List.foldl insert) ?_) (unplaced_move f fns)
  show Program.mk [] (unplaced (setup _ (move f code))) (move f globals) _ = Program.mk [] (unplaced (setup _ code)) globals _
  rw [hsetup, move_words]
  rfl

end Program

/-! ## Listings and assembly -/

section

variable (f : Span → Span)

theorem Program.function?_move (p : Program) (name : String) : (move f p).function? name = move f (p.function? name) :=
  List.find?_map

theorem Function.jumpTarget?_move (fn : Function) (index : Nat) : (move f fn).jumpTarget? index = fn.jumpTarget? index := by
  unfold Function.jumpTarget?
  rw [show (move f fn).code[index]? = fn.code[index]?.map (move f) from Array.getElem?_map]
  rcases fn.code[index]? with _ | ⟨⟨op, operand, span⟩, i⟩
  · rfl
  · cases operand <;> rfl

theorem Function.length_move (fn : Function) : (move f fn).length = fn.length := Array.size_map

theorem Function.toList_code_move (fn : Function) : (move f fn).code.toList = move f fn.code.toList := Array.toList_map

theorem Function.listing_move (fn : Function) : (move f fn).listing = fn.listing := by
  have hinstr : ∀ i : Instr, (move f fn).listInstr (move f i) = fn.listInstr i := by
    intro i
    unfold Function.listInstr
    rw [Instr.index_move, fn.jumpTarget?_move f]
    rfl
  have hcode : (move f fn).code.toList.map (move f fn).listInstr = fn.code.toList.map fn.listInstr := by
    rw [fn.toList_code_move f]
    exact List.map_map.trans (List.map_congr_left fun i _ => hinstr i)
  unfold Function.listing
  rw [hcode]
  rfl

/-- The listing of a program shows no places. -/
theorem Program.listing_move (p : Program) : (move f p).listing = p.listing := by
  have hfunctions : ((move f p).functions.map fun fn => "\n" ++ fn.listing) = p.functions.map fun fn => "\n" ++ fn.listing :=
    List.map_map.trans (List.map_congr_left fun fn _ => congrArg ("\n" ++ ·) (fn.listing_move f))
  have hinit : (move f p).init.listing = p.init.listing := p.init.listing_move f
  unfold Program.listing
  rw [hfunctions, hinit]
  rfl

namespace Assembly

theorem symbol?_move (p : Program) (name : String) : symbol? (move f p) name = symbol? p name := by
  unfold symbol?
  rw [p.function?_move f]
  cases p.function? name <;> rfl

theorem callNamed_move (p : Program) (name : String) : callNamed (move f p) name = callNamed p name := by
  unfold callNamed
  rw [p.function?_move f]
  cases p.function? name <;> rfl

theorem instrLines_move (p : Program) (fn : Function) (i : Instr) :
    instrLines (move f p) (move f fn) (move f i) = instrLines p fn i := by
  have hjump : ∀ op lead, jumpLines (move f fn) (move f i) op lead = jumpLines fn i op lead := by
    intro op lead
    unfold jumpLines
    rw [Instr.index_move, fn.jumpTarget?_move f, fn.length_move f]
  unfold instrLines
  simp only [hjump, symbol?_move, callNamed_move]
  rfl

theorem functionLines_move (p : Program) (label : String) (fn : Function) :
    functionLines (move f p) label (move f fn) = functionLines p label fn := by
  have hcode : ((move f fn).code.toList.flatMap fun i => Line.label (indexLabel i.index) :: instrLines (move f p) (move f fn) i) =
      fn.code.toList.flatMap fun i => .label (indexLabel i.index) :: instrLines p fn i := by
    rw [fn.toList_code_move f]
    refine (List.flatMap_map ..).trans (congrArg (List.flatMap · _) (funext fun i => ?_))
    rw [instrLines_move]
    rfl
  unfold functionLines
  rw [hcode, fn.length_move f]
  rfl

/-- The assembly of a program shows no places. -/
theorem ofProgram_move (p : Program) : ofProgram (move f p) = ofProgram p := by
  have hheader : header (move f p) = header p := by
    unfold header
    rw [show (move f p).functions = p.functions.map (move f) from rfl, List.filter_map, List.map_map]
    rfl
  have hentry : entryPoint (move f p) = entryPoint p := by
    unfold entryPoint
    rw [p.function?_move f]
    cases p.function? "main" <;> rfl
  have hfunctions :
      (((move f p).functions.filter (!·.external)).flatMap fun fn => functionLines (move f p) (functionLabel fn.name) fn) =
        (p.functions.filter (!·.external)).flatMap fun fn => functionLines p (functionLabel fn.name) fn := by
    rw [show (move f p).functions = p.functions.map (move f) from rfl, List.filter_map]
    refine (List.flatMap_map ..).trans (congrArg (List.flatMap · _) (funext fun fn => ?_))
    exact functionLines_move f p _ fn
  have hinit : functionLines (move f p) initLabel (move f p).init = functionLines p initLabel p.init :=
    functionLines_move f p initLabel p.init
  unfold ofProgram
  rw [hheader, hentry, hinit, hfunctions]
  rfl

end Assembly

/-- Programs that differ in places only are written the same. -/
theorem Program.written_eq {p p' : Program} (h : unplaced p = unplaced p') :
    p.listing = p'.listing ∧ Assembly.ofProgram p = Assembly.ofProgram p' := by
  constructor
  · rw [← p.listing_move fun _ => .nowhere, ← p'.listing_move fun _ => .nowhere]
    exact congrArg Program.listing h
  · rw [← Assembly.ofProgram_move (fun _ => .nowhere) p, ← Assembly.ofProgram_move (fun _ => .nowhere) p']
    exact congrArg Assembly.ofProgram h

/-! ## Reports -/

instance : Placed CompileError where
  move f
    | .parse e => .parse (move f e)
    | .scope e => .scope (move f e)
    | .code e => .code (move f e)
  move_id e := by cases e <;> simp only [move_id]
  move_move f g e := by cases e <;> simp only [move_move]

instance : Placed Diagnostic where
  move f d := { d with labels := move f d.labels }
  move_id d := by simp only [move_id]
  move_move f g d := by simp only [move_move]

theorem ParseError.diagnostic_move (e : ParseError) : (move f e).diagnostic = move f e.diagnostic := by
  cases e <;> rfl

theorem ScopeError.diagnostic_move (e : ScopeError) : (move f e).diagnostic = move f e.diagnostic := by
  cases e <;> rfl

theorem CodeError.diagnostic_move (e : CodeError) : (move f e).diagnostic = move f e.diagnostic := by
  cases e with
  | scope e => exact e.diagnostic_move f
  | _ => rfl

/-- What is reported is the same everywhere, but for the regions of its labels. -/
theorem CompileError.diagnostic_move (e : CompileError) : (move f e).diagnostic = move f e.diagnostic := by
  cases e with
  | parse e => exact e.diagnostic_move f
  | scope e => exact e.diagnostic_move f
  | code e => exact e.diagnostic_move f

theorem CompileError.isFatal_move (e : CompileError) : (move f e).isFatal = e.isFatal := by
  unfold isFatal
  rw [e.diagnostic_move f]
  rfl

end
end Wordstack
