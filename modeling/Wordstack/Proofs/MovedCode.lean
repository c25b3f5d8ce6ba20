/-
Code and its places. Every command keeps the part of the text that asks for it, and nothing is
decided by it: the program of moved items is the program, moved.
-/
import Wordstack.Code.Program
import Wordstack.Proofs.Follows
import Wordstack.Proofs.MovedScope

namespace Wordstack

/-! ## What is made while code is made -/

instance : Placed CodeError where
  move f
    | .unresolvedName name span => .unresolvedName name (f span)
    | .notAValue name span declaration => .notAValue name (f span) (f declaration)
    | .notAnLvalue span => .notAnLvalue (f span)
    | .expectedValue span => .expectedValue (f span)
    | .notCallable span => .notCallable (f span)
    | .prototypeWithoutBody name span prototype => .prototypeWithoutBody name (f span) (f prototype)
    | .argumentCount name expected found span => .argumentCount name expected found (f span)
    | .multipleReturns name span => .multipleReturns name (f span)
    | .returnCount expected found span => .returnCount expected found (f span)
    | .valueCount expected found span => .valueCount expected found (f span)
    | .outsideLoop keyword span => .outsideLoop keyword (f span)
    | .memberAccess span => .memberAccess (f span)
    | .nestedFunction name span => .nestedFunction name (f span)
    | .arrayInitializer name span => .arrayInitializer name (f span)
    | .indexCount span => .indexCount (f span)
    | .scope e => .scope (move f e)
  move_id e := by cases e <;> first | rfl | exact congrArg CodeError.scope (move_id _)
  move_move f g e := by cases e <;> first | rfl | exact congrArg CodeError.scope (move_move f g _)

instance : Placed Notes where
  move f notes := { notes with errors := move f notes.errors }
  move_id notes := by simp only [move_id]
  move_move f g notes := by simp only [move_move]

instance : Placed SymbolInfo where
  move f s := { s with span := f s.span }
  move_id _ := rfl
  move_move _ _ _ := rfl

instance : Placed Env where
  move f env := { env with globals := move f env.globals, blocks := move f env.blocks }
  move_id env := by simp only [move_id]
  move_move f g env := by simp only [move_move]

instance : Placed Command where
  move f c := { c with span := f c.span }
  move_id _ := rfl
  move_move _ _ _ := rfl

@[simp] theorem Command.move_mk (f : Span → Span) (op : Opcode) (operand : Operand) (span : Span) :
    move f (Command.mk op operand span) = ⟨op, operand, f span⟩ := rfl

@[simp] theorem Command.op_move (f : Span → Span) (c : Command) : (move f c).op = c.op := rfl

instance : Placed Produced where
  move f p := { p with code := move f p.code }
  move_id p := by simp only [move_id]
  move_move f g p := by simp only [move_move]

@[simp] theorem Produced.move_mk (f : Span → Span) (code : List Command) (values : Nat) :
    move f (Produced.mk code values) = ⟨move f code, values⟩ := rfl

@[simp] theorem Produced.code_move (f : Span → Span) (p : Produced) : (move f p).code = move f p.code := rfl

@[simp] theorem Produced.values_move (f : Span → Span) (p : Produced) : (move f p).values = p.values := rfl

instance : Placed Step where
  move f
    | .command c => .command (move f c)
    | .pending exit span => .pending exit (f span)
  move_id s := by cases s <;> rfl
  move_move _ _ s := by cases s <;> rfl

namespace Lower

/-- Notes that are made along with others, as long as those are clean. -/
structure Parallel (f : Span → Span) where
  along : Notes → Notes → Prop
  clean : Notes → Prop
  report {n' n : Notes} {e : CodeError} : e.diagnostic.isWarning = false → clean (report e n).2 →
    clean n ∧ (along n' n → along (report (move f e) n').2 (report e n).2)
  intern {n' n : Notes} {text : String} : clean (intern text n).2 →
    clean n ∧ (along n' n → (intern text n').1 = (intern text n).1 ∧ along (intern text n').2 (intern text n).2)

/-- The notes of what is made at other places. -/
def Parallel.moved (f : Span → Span) : Parallel f where
  along n' n := n' = move f n
  clean _ := True
  report := by
    rintro n' n e - -
    refine ⟨trivial, ?_⟩
    rintro rfl
    exact congrArg (Notes.mk n.strings) (move_append f n.errors [e]).symm
  intern := by
    rintro n' n text -
    refine ⟨trivial, ?_⟩
    rintro rfl
    exact ⟨rfl, rfl⟩

/-- `x'` does at other places what `x` does. -/
structure Moves {f : Span → Span} (K : Parallel f) {α : Type} [Placed α] (x' x : Lower α) : Prop where
  clean : ∀ n, K.clean (x n).2 → K.clean n
  along : ∀ {n' n}, K.along n' n → K.clean (x n).2 → (x' n').1 = move f (x n).1 ∧ K.along (x' n').2 (x n).2

variable {f : Span → Span} {K : Parallel f} {α β : Type} [Placed α] [Placed β]

theorem Moves.eq {x' x : Lower α} (h : Moves (.moved f) x' x) (n : Notes) :
    x' (move f n) = (move f (x n).1, move f (x n).2) := by
  obtain ⟨hresult, hnotes⟩ := h.along (n := n) rfl trivial
  exact Prod.ext hresult hnotes

theorem moves_pure {a' a : α} (h : a' = move f a) : Moves K (pure a') (pure a) := ⟨fun _ => id, fun hn _ => ⟨h, hn⟩⟩

theorem moves_bind {x' x : Lower α} {k' k : α → Lower β} (hx : Moves K x' x) (hk : ∀ a, Moves K (k' (move f a)) (k a)) :
    Moves K (x' >>= k') (x >>= k) := by
  refine ⟨fun n h => hx.clean n ((hk _).clean _ h), fun {n' n} hn h => ?_⟩
  obtain ⟨hresult, hnotes⟩ := hx.along hn ((hk _).clean _ h)
  have hrest := (hk (x n).1).along hnotes h
  rw [← hresult] at hrest
  exact hrest

theorem Moves.ite {c : Prop} [Decidable c] {x' x y' y : Lower α} (hx : c → Moves K x' x) (hy : ¬ c → Moves K y' y) :
    Moves K (if c then x' else y') (if c then x else y) := by
  split
  next h => exact hx h
  next h => exact hy h

theorem moves_report {e' e : CodeError} (h : e' = move f e) (he : e.diagnostic.isWarning = false := by rfl) :
    Moves K (report e') (report e) := by
  subst h
  exact ⟨fun n hn => (@Parallel.report _ K n n _ he hn).1, fun hn h => ⟨rfl, (K.report he h).2 hn⟩⟩

theorem moves_intern (text : String) : Moves K (intern text) (intern text) :=
  ⟨fun n hn => (@Parallel.intern _ K n n _ hn).1, fun hn h => (K.intern h).2 hn⟩

/-- A report and then the rest. -/
theorem moves_reporting {e' e : CodeError} {x' x : Lower α} (h : e' = move f e) (hx : Moves K x' x)
    (he : e.diagnostic.isWarning = false := by rfl) : Moves K (do report e'; x') (do report e; x) :=
  moves_bind (moves_report h he) fun _ => hx

end Lower

open Lower

/-! ## Names -/

section

variable (f : Span → Span)

theorem Env.meanings_move (env : Env) (name : String) : (move f env).meanings name = move f (env.meanings name) := by
  have hblocks : (move f env.blocks).filterMap (NameTable.get? name) = move f (env.blocks.filterMap (NameTable.get? name)) := by
    refine List.filterMap_map.trans (Eq.trans (congrArg (List.filterMap · env.blocks) (funext fun t => ?_)) List.map_filterMap.symm)
    exact NameTable.get?_move f t name
  have hglobals : ((move f env.globals).get? name).toList = move f (env.globals.get? name).toList := by
    rw [NameTable.get?_move]
    cases env.globals.get? name <;> rfl
  unfold Env.meanings
  rw [move_append, ← hblocks, ← hglobals]
  rfl

theorem Env.lookup?_move (env : Env) (name : String) : (move f env).lookup? name = move f (env.lookup? name) := by
  unfold Env.lookup?
  rw [env.meanings_move f]
  show (if env.excluded = some name then _ else _) = move f (if env.excluded = some name then _ else _)
  split
  · rw [show (move f (env.meanings name)).tail = move f (env.meanings name).tail from List.map_tail.symm]
    exact List.head?_map
  · exact List.head?_map

theorem Expr.token_moved : ∀ e : Expr, (e.moved f).token = move f e.token
  | .unclosed e => e.token_moved
  | .missing _ | .atom _ | .unary .. | .binary .. | .call .. | .index .. | .cast .. | .castOnly .. => rfl

theorem Expr.token_move (e : Expr) : (move f e).token = move f e.token := e.token_moved f

theorem Expr.isPlace_moved : ∀ e : Expr, (e.moved f).isPlace = e.isPlace
  | .unclosed e => e.isPlace_moved
  | .cast _ _ e => e.isPlace_moved
  | .unary op _ _ => by cases op <;> rfl
  | .missing _ | .atom _ | .binary .. | .call .. | .index .. | .castOnly .. => rfl

end

variable {f : Span → Span} {K : Parallel f} {α : Type} [Placed α]

theorem readVariable_move (storage : Storage) (isArray : Bool) (span : Span) :
    readVariable storage isArray (f span) = move f (readVariable storage isArray span) := by
  cases storage <;> cases isArray <;> rfl

theorem moves_lowerName (env : Env) (t : Token) : Moves K (lowerName (move f env) (move f t)) (lowerName env t) := by
  have hunresolved : Moves K
      (do report (.unresolvedName t.text (f t.span)); return invalidAt (f t.span))
      (do report (.unresolvedName t.text t.span); return invalidAt t.span) := moves_reporting rfl (moves_pure rfl)
  unfold lowerName
  rw [Token.text_move, env.lookup?_move f]
  rcases env.lookup? t.text with _ | ⟨kind, span, storage, type?, params, returns⟩
  · cases Builtin.ofName? t.text with
    | none => exact hunresolved
    | some b => exact moves_pure rfl
  · cases kind with
    | var =>
      cases storage with
      | none => exact hunresolved
      | some storage => exact moves_pure (readVariable_move ..)
    | func | prototype => exact moves_pure rfl
    | type | nameSpace => exact moves_reporting rfl (moves_pure rfl)
    | error => exact moves_pure rfl

theorem moves_lowerAtom (env : Env) (t : Token) : Moves K (lowerAtom (move f env) (move f t)) (lowerAtom env t) := by
  obtain ⟨kind, text, span, literal⟩ := t
  cases kind with
  | ident => exact moves_lowerName env ⟨.ident, text, span, literal⟩
  | string =>
    cases literal with
    | text s => exact moves_bind (moves_intern s) fun _ => moves_pure rfl
    | _ => exact moves_pure rfl
  | _ => cases literal <;> exact moves_pure rfl

/-! ## Values and places -/

@[simp] theorem move_invalidAt (f : Span → Span) (span : Span) : move f (invalidAt span) = invalidAt (f span) := rfl

section

variable (hf : Span.Steady f)

include hf

theorem moves_single (e : Expr) (p : Produced) : Moves K (single (move f e) (move f p)) (single e p) := by
  unfold single
  rw [Expr.isError_move, Expr.span_move hf, Expr.token_move]
  refine .ite (fun _ => moves_pure rfl) fun _ => moves_reporting rfl (moves_pure ?_)
  show (if p.values = 0 then move f p.code ++ invalidAt (f e.token.span) else move f p.code) = move f (if _ then _ else _)
  split
  · simp
  · rfl

/-- A value is computed, and then something is done with its code. -/
theorem moves_single_of {e : Expr} {x' x : Lower Produced} (hx : Moves K x' x) {k' k : List Command → Lower α}
    (hk : ∀ code, Moves K (k' (move f code)) (k code)) :
    Moves K (do let code ← single (move f e) (← x'); k' code) (do let code ← single e (← x); k code) :=
  moves_bind hx fun p => moves_bind (moves_single hf e p) hk

theorem moves_asLvalue (e : Expr) (mode : LvalueMode) (code : List Command) :
    Moves K (asLvalue (move f e) mode (move f code)) (asLvalue e mode code) := by
  have hnot : Moves K (asLvalue.notAPlace (move f e) (move f code)) (asLvalue.notAPlace e code) := by
    unfold asLvalue.notAPlace
    rw [Expr.span_move hf]
    exact moves_reporting rfl (moves_pure (by simp))
  unfold asLvalue
  rw [Expr.isError_move, show (move f e).isPlace = e.isPlace from e.isPlace_moved f, getLast?_move]
  refine .ite (fun _ => moves_pure rfl) fun _ => ?_
  cases code.getLast? with
  | none => exact hnot
  | some last =>
    refine .ite (fun _ => moves_pure rfl) fun _ => ?_
    rw [Command.op_move]
    rcases (if e.isPlace then last.op.toLvalue? mode else none) with _ | ⟨op, needsStore⟩
    · exact hnot
    · refine moves_pure ?_
      rw [dropLast_move, move_append]
      cases needsStore <;> rfl

/-! ## Calls -/

omit hf in
theorem calleeName?_move (callee : Expr) (last : Command) :
    calleeName? (move f callee) (move f last) = calleeName? callee last := by
  unfold calleeName?
  rw [Expr.token_move]
  rfl

omit hf in
theorem moves_arity (env : Env) (name : String) (callee : Token) (found : Nat) (span : Span) :
    Moves K (arity (move f env) name (move f callee) found (f span)) (arity env name callee found span) := by
  unfold arity
  rw [Token.text_move, env.lookup?_move f]
  cases env.lookup? callee.text with
  | none => cases Builtin.ofName? name <;> exact moves_pure rfl
  | some s => exact .ite (fun _ => moves_reporting rfl (moves_pure rfl)) fun _ => moves_pure rfl

theorem moves_lowerCall (env : Env) (e callee : Expr) (found : Nat) (args target : List Command) :
    Moves K (lowerCall (move f env) (move f e) (move f callee) found (move f args) (move f target))
      (lowerCall env e callee found args target) := by
  unfold lowerCall
  dsimp only
  rw [Expr.isError_move, getLast?_move, ← move_append]
  refine .ite (fun _ => moves_pure rfl) fun _ => ?_
  cases target.getLast? with
  | none => exact moves_pure rfl
  | some last =>
    rw [move_some]
    dsimp only
    rw [calleeName?_move, Command.op_move]
    refine .ite (fun _ => moves_pure rfl) fun _ => ?_
    rw [Expr.span_move hf, Expr.span_move hf, Expr.token_move]
    cases calleeName? callee last with
    | none => exact moves_reporting rfl (moves_pure (by simp))
    | some name =>
      refine moves_bind (moves_arity env name callee.token found e.span) fun p => ?_
      obtain ⟨params, returns⟩ := p
      have hresult : Produced.mk ((move f (args ++ target)).dropLast ++ [{ move f last with op := .call, operand := .label name }])
          returns = move f ⟨(args ++ target).dropLast ++ [{ last with op := .call, operand := .label name }], returns⟩ := by
        rw [dropLast_move, Produced.move_mk, move_append]
        rfl
      exact .ite (fun _ => moves_reporting rfl (moves_pure hresult)) fun _ => moves_pure hresult

/-! ## Expressions -/

omit hf in
@[simp] theorem move_shortCircuit (skip : Opcode) (span : Span) (left right : List Command) :
    move f (shortCircuit skip span left right) = shortCircuit skip (f span) (move f left) (move f right) := by
  simp [shortCircuit]

mutual

theorem moves_lower_moved (env : Env) : ∀ e : Expr, Moves K ((e.moved f).lower (move f env)) (e.lower env)
  | .missing _ | .castOnly .. => moves_pure rfl
  | .atom t => moves_bind (moves_lowerAtom env t) fun _ => moves_pure rfl
  | .unclosed e | .cast _ _ e => moves_lower_moved env e
  | .unary op t e => by
    have he := moves_lower_moved env e
    cases op
    case addressOf =>
      refine moves_single_of hf he fun code => ?_
      exact moves_bind (moves_asLvalue hf e .address code) fun _ => moves_pure rfl
    all_goals exact moves_single_of hf he fun code => moves_pure (by simp)
  | .binary op t l r => by
    have hl := moves_lower_moved env l
    have hr := moves_lower_moved env r
    cases op
    case assign =>
      refine moves_single_of hf hr fun value => moves_single_of hf hl fun code => ?_
      exact moves_bind (moves_asLvalue hf l .store code) fun store => moves_pure (by simp)
    case and | or => exact moves_single_of hf hl fun left => moves_single_of hf hr fun right => moves_pure (by simp)
    case member => exact moves_reporting rfl (moves_pure rfl)
    all_goals exact moves_single_of hf hr fun right => moves_single_of hf hl fun left => moves_pure (by simp)
  | .call t callee args => by
    refine moves_bind (moves_lowerArgs_moved env args) fun argsCode => ?_
    refine moves_single_of hf (moves_lower_moved env callee) fun target => ?_
    rw [show (Expr.movedAll f args).length = args.length by rw [Expr.movedAll_eq, length_move]]
    exact moves_lowerCall hf env (.call t callee args) callee args.length argsCode target
  | .index t _ [] => moves_pure rfl
  | .index t base (i :: more) => by
    have hindex := moves_lower_moved env i
    have hbase := moves_lower_moved env base
    have hspan : (Expr.index (move f t) (base.moved f) (i.moved f :: Expr.movedAll f more)).span =
        f (Expr.index t base (i :: more)).span := Expr.span_move hf (.index t base (i :: more))
    simp only [Expr.moved, Expr.movedAll]
    unfold Expr.lower
    rw [hspan, show (Expr.movedAll f more).isEmpty = more.isEmpty by cases more <;> rfl]
    refine .ite (fun _ => moves_reporting rfl ?_) fun _ => ?_
    all_goals exact moves_single_of hf hindex fun index => moves_single_of hf hbase fun array => moves_pure (by simp)

theorem moves_lowerArgs_moved (env : Env) :
    ∀ es : List Expr, Moves K (Expr.lowerArgs (move f env) (Expr.movedAll f es)) (Expr.lowerArgs env es)
  | [] => moves_pure rfl
  | e :: es => by
    refine moves_bind (moves_lowerArgs_moved env es) fun rest => ?_
    exact moves_single_of hf (moves_lower_moved env e) fun code => moves_pure (move_append f rest code).symm

end

theorem moves_lower (env : Env) (e : Expr) : Moves K ((move f e).lower (move f env)) (e.lower env) :=
  moves_lower_moved hf env e

theorem moves_lowerAll (env : Env) (es : List Expr) :
    Moves K (Expr.lowerAll (move f env) (move f es)) (Expr.lowerAll env es) := by
  induction es with
  | nil => exact moves_pure rfl
  | cons e es ih => exact moves_bind ih fun rest => moves_bind (moves_lower hf env e) fun p => moves_pure (by simp)

/-- An expression that must leave a value, and what is done with its code. -/
theorem moves_value (env : Env) (e : Expr) {k' k : List Command → Lower α}
    (hk : ∀ code, Moves K (k' (move f code)) (k code)) :
    Moves K (do let p ← (move f e).lower (move f env); let code ← single (move f e) p; k' code)
      (do let p ← e.lower env; let code ← single e p; k code) :=
  moves_single_of hf (moves_lower hf env e) hk

end

/-! ## Pieces of code -/

section

variable (f : Span → Span)

@[simp] theorem Code.move_ofCommands (cs : List Command) : move f (Code.ofCommands cs) = Code.ofCommands (move f cs) :=
  (map_move (g := Step.command) (fun _ => rfl) cs).symm

theorem Code.commands_move (code : Code) : Code.commands (move f code) = move f (Code.commands code) :=
  map_move (fun step => by cases step <;> rfl) code

@[simp] theorem Code.move_settle (total first : Nat) (code : Code) :
    move f (Code.settle total first code) = Code.settle total first (move f code) := by
  induction code generalizing first with
  | nil => rfl
  | cons step steps ih => cases step <;> exact congrArg (List.cons _) (ih (first + 1))

@[simp] theorem Code.move_ifThen (span : Span) (condition : List Command) (yes : Code) :
    move f (Code.ifThen span condition yes) = Code.ifThen (f span) (move f condition) (move f yes) := by
  simp [Code.ifThen]

@[simp] theorem Code.move_ifElse (span : Span) (condition : List Command) (yes no : Code) :
    move f (Code.ifElse span condition yes no) = Code.ifElse (f span) (move f condition) (move f yes) (move f no) := by
  simp [Code.ifElse]

@[simp] theorem Code.move_loop (span : Span) (condition : List Command) (body : Code) :
    move f (Code.loop span condition body) = Code.loop (f span) (move f condition) (move f body) := by
  simp [Code.loop]

@[simp] theorem move_freeCommands (bytes : Nat) (span : Span) : move f (freeCommands bytes span) = freeCommands bytes (f span) := by
  unfold freeCommands
  split <;> rfl

@[simp] theorem move_popCommands (n : Nat) (span : Span) : move f (popCommands n span) = popCommands n (f span) :=
  List.map_replicate

theorem Env.close_move (env inner : Env) (code : Code) (span : Span) :
    Env.close (move f env) (move f inner) (move f code) (f span) = move f (Env.close env inner code span) := by
  refine congrArg (Prod.mk _) ?_
  show move f code ++ Code.ofCommands (freeCommands (inner.depth - env.depth) (f span)) = _
  rw [← move_freeCommands, ← Code.move_ofCommands]
  exact (move_append f code _).symm

end

section

variable (hf : Span.Steady f)

include hf

/-! ## Lists of values -/

theorem moves_checkCount (expected found : Nat) (values : ExprList) :
    Moves K (checkCount expected found (move f values)) (checkCount expected found values) := by
  unfold checkCount
  rw [ExprList.isError_move, ExprList.span_move hf]
  exact .ite (fun _ => moves_report rfl) fun _ => moves_pure rfl

theorem moves_storeAll (env : Env) (targets : List Expr) :
    Moves K (storeAll (move f env) (move f targets)) (storeAll env targets) := by
  induction targets with
  | nil => exact moves_pure rfl
  | cons target targets ih =>
    refine moves_value hf env target fun code => moves_bind (moves_asLvalue hf target .store code) fun store => ?_
    exact moves_bind ih fun rest => moves_pure (move_append f store rest).symm

theorem moves_lowerSwap (env : Env) (targets values : ExprList) :
    Moves K (lowerSwap (move f env) (move f targets) (move f values)) (lowerSwap env targets values) := by
  refine moves_bind (moves_lowerAll hf env values.items) fun p => ?_
  rw [show (move f targets).items.length = targets.items.length from length_move f targets.items]
  refine moves_bind (moves_checkCount hf _ p.values values) fun _ => ?_
  exact moves_bind (moves_storeAll hf env targets.items) fun store => moves_pure (move_append f p.code store).symm

/-! ## Declarations -/

omit hf in
theorem moves_checkRefs (env : Env) (refs : TypeRefs) :
    Moves K (checkRefs (move f env) (move f refs)) (checkRefs env refs) := by
  induction refs with
  | nil => exact moves_pure rfl
  | cons p refs ih =>
    obtain ⟨name, span⟩ := p
    have hrest : ∀ ok : Bool, Moves K (do let rest ← checkRefs (move f env) (move f refs); return ok && rest)
        (do let rest ← checkRefs env refs; return ok && rest) := fun ok => moves_bind ih fun rest => moves_pure rfl
    rw [move_cons, show move f (name, span) = (name, f span) from rfl]
    unfold checkRefs
    rw [env.lookup?_move f]
    cases env.lookup? name with
    | none => exact moves_reporting rfl (hrest false)
    | some s => exact .ite (fun _ => hrest true) fun _ => moves_reporting rfl (hrest false)

theorem moves_localType? (env : Env) (ty : TypeExpr) :
    Moves K (localType? (move f env) (move f ty)) (localType? env ty) := by
  unfold localType?
  rw [(ty.describe_move hf).result]
  rcases hresult : ty.describe.result with ⟨e | t, refs⟩
  · exact moves_reporting rfl (moves_pure rfl) (ty.failsHard _ _ _ hresult)
  · refine moves_bind (moves_checkRefs env refs) fun ok => moves_pure ?_
    cases ok <;> rfl

omit hf in
theorem moves_declare (env : Env) (name : String) (info : SymbolInfo) :
    Moves K ((move f env).declare name (move f info)) (env.declare name info) := by
  obtain ⟨globals, blocks, excluded, depth, frameSize, loopDepth, function, returns⟩ := env
  cases blocks with
  | nil => exact moves_pure rfl
  | cons block outer =>
    have hset : ∀ env : Env, { move f env with blocks := NameTable.set name (move f info) (move f block) :: move f outer } =
        move f { env with blocks := NameTable.set name info block :: outer } := fun env =>
      congrArg (fun b => { move f env with blocks := b :: move f outer }) (NameTable.set_move f block name info)
    unfold Env.declare
    dsimp only
    rw [show (move f (Env.mk globals (block :: outer) excluded depth frameSize loopDepth function returns)).blocks =
      move f block :: move f outer from rfl]
    dsimp only
    rw [NameTable.get?_move]
    cases block.get? name with
    | none => exact moves_pure (hset _)
    | some first => exact moves_reporting rfl (moves_pure (hset _))

omit hf in
theorem moves_declareLocal (env : Env) (name : Token) (t : Ty) :
    Moves K (declareLocal (move f env) (move f name) t) (declareLocal env name t) :=
  moves_bind (moves_declare (env.alloc t.size) name.text (localVar name.span (env.alloc t.size).depth t)) fun _ =>
    moves_pure rfl

omit hf in
theorem moves_declareBroken (env : Env) (name : Token) :
    Moves K (declareBroken (move f env) (move f name)) (declareBroken env name) :=
  moves_bind (moves_declare env name.text { kind := .error, span := name.span }) fun _ => moves_pure rfl

theorem moves_declareTyped (env : Env) (name : Token) (ty : TypeExpr) :
    Moves K (declareTyped (move f env) (move f name) (move f ty)) (declareTyped env name ty) := by
  have hbroken : Moves K
      (do let r ← declareBroken (move f env) (move f name); return (r.1, r.2, (none : Option Ty)))
      (do let r ← declareBroken env name; return (r.1, r.2, (none : Option Ty))) :=
    moves_bind (moves_declareBroken env name) fun _ => moves_pure rfl
  unfold declareTyped
  rw [TypeExpr.isError_move, TypeExpr.isFunction_move]
  refine .ite (fun _ => hbroken) fun _ => .ite (fun _ => moves_reporting rfl hbroken) fun _ => ?_
  refine moves_bind (moves_localType? hf env ty) fun t? => ?_
  cases t? with
  | none => exact hbroken
  | some t => exact moves_bind (moves_declareLocal env name t) fun _ => moves_pure rfl

theorem moves_declareValue (env : Env) (name : Token) (ty : TypeExpr) (value : Expr) :
    Moves K (declareValue (move f env) (move f name) (move f ty) (move f value)) (declareValue env name ty value) := by
  refine moves_bind (moves_declareTyped hf env name ty) fun r => ?_
  obtain ⟨env, code, t?⟩ := r
  cases t? with
  | none => exact moves_pure rfl
  | some t =>
    refine .ite (fun _ => moves_reporting (congrArg _ (Expr.span_move hf value)) (moves_pure rfl)) fun _ => ?_
    refine moves_value hf { env with excluded := some name.text } value fun init => moves_pure ?_
    rw [move_pair, move_append, move_append]
    rfl

theorem moves_declareLocals (env : Env) (names : List Token) (types : List TypeExpr) :
    Moves K (declareLocals (move f env) (move f names) (move f types)) (declareLocals env names types) := by
  induction names generalizing env types with
  | nil => exact moves_pure rfl
  | cons name names ih =>
    cases types with
    | nil => exact moves_pure rfl
    | cons ty types =>
      refine moves_bind (moves_localType? hf env ty) fun t? => ?_
      rw [show move f t? = t? by cases t? <;> rfl]
      refine moves_bind (moves_declareLocal env name (t?.getD (.ofBase (.named name.text)))) fun r => ?_
      refine moves_bind (ih r.1 types) fun r' => moves_pure ?_
      rw [move_pair, move_pair, move_append, move_append]
      rfl

omit hf in
theorem typesFor?_move (names : List Token) (types : TypeList) :
    typesFor? (move f names) (move f types) = move f (typesFor? names types) := by
  have hmany : ∀ tys : List TypeExpr,
      (if (move f tys).length = (move f names).length then some (move f tys) else none) =
        move f (if tys.length = names.length then some tys else none) := by
    intro tys
    rw [length_move, length_move]
    split <;> rfl
  unfold typesFor?
  rw [TypeList.isError_move]
  split
  · rfl
  obtain ⟨start, items⟩ := types
  rcases items with _ | ⟨ty, _ | ⟨ty', tys⟩⟩
  · exact hmany []
  · refine congrArg some (List.map_map.trans (Eq.trans ?_ List.map_map.symm))
    rfl
  · exact hmany (ty :: ty' :: tys)

theorem moves_declareSeveral (env : Env) (names : List Token) (types : TypeList) (values? : Option ExprList) :
    Moves K (declareSeveral (move f env) (move f names) (move f types) (move f values?))
      (declareSeveral env names types values?) := by
  unfold declareSeveral
  rw [typesFor?_move, TypeList.isError_move, TypeList.span_move hf, length_move,
    show (move f types).items.length = types.items.length from length_move f types.items]
  cases typesFor? names types with
  | none => exact .ite (fun _ => moves_reporting rfl (moves_pure rfl)) fun _ => moves_pure rfl
  | some tys =>
    refine moves_bind (moves_declareLocals hf env names tys) fun r => ?_
    obtain ⟨env, code, stores⟩ := r
    cases values? with
    | none => exact moves_pure rfl
    | some values =>
      refine moves_bind (moves_lowerAll hf env values.items) fun p => ?_
      exact moves_bind (moves_checkCount hf names.length p.values values) fun _ => moves_pure (by simp)

/-! ## Statements -/

omit hf in
theorem moves_lowerExit (env : Env) (exit : LoopExit) (t : Token) :
    Moves K (lowerExit (move f env) exit (move f t)) (lowerExit env exit t) := by
  unfold lowerExit
  rw [show (move f env).loopDepth = env.loopDepth from rfl]
  cases env.loopDepth with
  | none => exact moves_reporting rfl (moves_pure rfl)
  | some base =>
    refine moves_pure ?_
    rw [move_append, Code.move_ofCommands, move_freeCommands]
    rfl

omit hf in
theorem moves_lowerReturn (env : Env) (t : Token) (p : Produced) (ok : Bool) :
    Moves K (lowerReturn (move f env) (move f t) (move f p) ok) (lowerReturn env t p ok) := by
  have hcode : move f p.code ++ freeCommands env.depth (f t.span) ++
      [{ op := .framePop, span := f t.span }, { op := .ret, span := f t.span }] =
        move f (p.code ++ freeCommands env.depth t.span ++
          [{ op := .framePop, span := t.span }, { op := .ret, span := t.span }]) := by simp
  refine .ite (fun _ => moves_reporting rfl (moves_pure hcode)) fun _ => ?_
  exact .ite (fun _ => moves_reporting rfl (moves_pure hcode)) fun _ => moves_pure hcode

theorem moves_branch (env : Env) (s : Stmt) {lower' lower : Env → Lower (Env × Code)}
    (h : ∀ env, Moves K (lower' (move f env)) (lower env)) :
    Moves K (branch (move f env) (move f s) lower') (branch env s lower) := by
  unfold branch
  rw [show (move f s).isBlock = s.isBlock by cases s <;> rfl, Stmt.span_move hf]
  exact .ite (fun _ => h env) fun _ => moves_bind (h env.openBlock) fun r => moves_pure (Env.close_move f env r.1 r.2 s.span)

omit hf in
/-- Code that does nothing to the environment. -/
theorem moves_commands (env : Env) {x' x : Lower (List Command)} (h : Moves K x' x) :
    Moves K (do return (move f env, Code.ofCommands (← x'))) (do return (env, Code.ofCommands (← x))) :=
  moves_bind h fun cs => moves_pure (by simp)

omit hf in
theorem moves_declaring {x' x : Lower (Env × List Command)} (h : Moves K x' x) :
    Moves K (do let (env, code) ← x'; return (env, Code.ofCommands code)) (do let (env, code) ← x; return (env, Code.ofCommands code)) :=
  moves_bind h fun r => moves_pure (congrArg (Prod.mk _) (Code.move_ofCommands f r.2).symm)

omit hf in
theorem moves_popping (env : Env) (t : Token) {x' x : Lower Produced} (h : Moves K x' x) :
    Moves K (do let p ← x'; return (move f env, Code.ofCommands (p.code ++ popCommands p.values (f t.span))))
      (do let p ← x; return (env, Code.ofCommands (p.code ++ popCommands p.values t.span))) :=
  moves_bind h fun p => moves_pure (by simp)

end

mutual

theorem moves_lowerStmt_moved (hf : Span.Steady f) :
    ∀ (s : Stmt) (env : Env), Moves K ((s.moved f).lower (move f env)) (s.lower env)
  | .missing _, _ | .ifOnly .., _ | .whileOnly .., _ | .misplaced .., _ => moves_pure rfl
  | .block t body, env => by
    refine moves_bind (moves_lowerStmts_moved hf body env.openBlock) fun r => moves_pure ?_
    rw [show (Stmt.block (move f t) (Stmt.movedAll f body)).span = f (Stmt.block t body).span from
      Stmt.span_move hf (.block t body)]
    exact Env.close_move f env r.1 r.2 _
  | .ifThen t c yes, env => by
    refine moves_value hf env c fun condition => ?_
    refine moves_bind (moves_branch hf env yes (moves_lowerStmt_moved hf yes)) fun r => moves_pure ?_
    exact congrArg (Prod.mk _) (Code.move_ifThen f t.span condition r.2).symm
  | .ifElse t c yes no, env => by
    refine moves_value hf env c fun condition => ?_
    refine moves_bind (moves_branch hf env yes (moves_lowerStmt_moved hf yes)) fun r => ?_
    refine moves_bind (moves_branch hf r.1 no (moves_lowerStmt_moved hf no)) fun r' => moves_pure ?_
    exact congrArg (Prod.mk _) (Code.move_ifElse f t.span condition r.2 r'.2).symm
  | .while t c body, env => by
    refine moves_value hf env c fun condition => ?_
    refine moves_bind (moves_branch hf { env with loopDepth := some env.depth } body (moves_lowerStmt_moved hf body)) fun r =>
      moves_pure ?_
    exact congrArg (Prod.mk _) (Code.move_loop f t.span condition r.2).symm
  | .return t, env => moves_commands env (moves_lowerReturn env t ⟨[], 0⟩ true)
  | .returnWith t values, env => by
    refine moves_bind (moves_lowerAll hf env values.items) fun p => ?_
    rw [ExprList.isError_move]
    exact moves_commands env (moves_lowerReturn env t p _)
  | .exit e t, env => moves_bind (moves_lowerExit env e t) fun _ => moves_pure rfl
  | .expr t e, env => moves_popping env t (moves_lower hf env e)
  | .exprs t es, env => moves_popping env t (moves_lowerAll hf env es.items)
  | .swap _ targets values, env => moves_commands env (moves_lowerSwap hf env targets values)
  | .declare name ty, env => moves_bind (moves_declareTyped hf env name ty) fun r => moves_pure (by simp)
  | .declareAs name ty value, env => moves_declaring (moves_declareValue hf env name ty value)
  | .define name ty brace body, env => by
    refine moves_bind (moves_declareTyped hf env name ty) fun r => ?_
    obtain ⟨env, code, t?⟩ := r
    cases t? with
    | none => exact moves_pure (by simp)
    | some t =>
      refine moves_reporting (congrArg (fun span => CodeError.scope (.blockInitializer name.text span)) ?_) (moves_pure (by simp))
      exact Stmt.span_move hf (.block brace body)
  | .external .., _ => moves_reporting rfl (moves_pure rfl)
  | .declareMany _ names types, env => moves_declaring (moves_declareSeveral hf env names types none)
  | .declareManyAs _ names types values, env => moves_declaring (moves_declareSeveral hf env names types (some values))
  | .record _ name _, env | .enumeration name _, env =>
    moves_bind (moves_declare env name.text { kind := .type, span := name.span }) fun _ => moves_pure rfl
  | .use t path alias?, env => by
    rw [Stmt.moved, Stmt.lower, Stmt.lower, Name.ofUse_move]
    rcases alias?.or path.getLast? with _ | t | t
    · exact moves_pure rfl
    all_goals exact moves_bind (moves_declare env t.text { kind := .nameSpace, span := t.span }) fun _ => moves_pure rfl

theorem moves_lowerStmts_moved (hf : Span.Steady f) :
    ∀ (body : List Stmt) (env : Env), Moves K (Stmt.lowerAll (move f env) (Stmt.movedAll f body)) (Stmt.lowerAll env body)
  | [], _ => moves_pure rfl
  | s :: rest, env => by
    refine moves_bind (moves_lowerStmt_moved hf s env) fun r => ?_
    refine moves_bind (moves_lowerStmts_moved hf rest r.1) fun r' => moves_pure ?_
    exact congrArg (Prod.mk _) (move_append f r.2 r'.2).symm

end

theorem moves_lowerStmts (hf : Span.Steady f) (body : List Stmt) (env : Env) :
    Moves K (Stmt.lowerAll (move f env) (move f body)) (Stmt.lowerAll env body) := by
  rw [← Stmt.movedAll_eq]
  exact moves_lowerStmts_moved hf body env

end Wordstack
