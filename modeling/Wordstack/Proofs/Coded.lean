/-
The code of expressions and statements. If nothing is reported but warnings, the code of a whole tree is the one that
`Expr.Coded` and `Stmt.Coded` say: names are found, what is written to is a place, functions get as many arguments as they
take. What is true of such code is shown by induction on these relations.
-/
import Wordstack.Proofs.Accepted

namespace Wordstack

open Lower

/-! ## Names and literals -/

/-- No name stands for something in error. -/
def Env.Valid (env : Env) : Prop := ∀ x s, env.lookup? x = some s → s.kind ≠ .error

/-- Whether a name stands for a function. -/
def Env.Callable (env : Env) (name : String) : Prop :=
  (∃ s, env.lookup? name = some s ∧ (s.kind = .func ∨ s.kind = .prototype)) ∨
    (env.lookup? name = none ∧ ∃ b, Builtin.ofName? name = some b)

/-- A name stands for a function that takes and leaves so many values. -/
def Env.Calls (env : Env) (name : String) (params returns : Nat) : Prop :=
  (∃ s, env.lookup? name = some s ∧ s.kind = .func ∧ s.params = params ∧ s.returns = returns) ∨
    (env.lookup? name = none ∧ ∃ b, Builtin.ofName? name = some b ∧ b.params = params ∧ b.returns = returns)

theorem Env.Calls.callable {env : Env} {name : String} {params returns : Nat} (h : env.Calls name params returns) :
    env.Callable name := by
  rcases h with ⟨s, hs, hk, -⟩ | ⟨hl, b, hb, -⟩
  · exact .inl ⟨s, hs, .inl hk⟩
  · exact .inr ⟨hl, b, hb⟩

theorem Builtin.name_of_ofName? {x : String} {b : Builtin} (h : Builtin.ofName? x = some b) : b.name = x := by
  have := List.find?_some h
  exact eq_of_beq this

/-- The code of a name or a literal. -/
inductive AtomCode (env : Env) (t : Token) : List Command → Prop
  | variable {s : SymbolInfo} {o : Storage} (ht : t.isIdent = true) (hs : env.lookup? t.text = some s) (hk : s.kind = .var)
    (ho : s.storage = some o) : AtomCode env t (readVariable o s.isArray t.span)
  | function (ht : t.isIdent = true) (h : env.Callable t.text) :
    AtomCode env t [{ op := .pushGea, operand := .label t.text, span := t.span }]
  | text {s : String} (ht : t.isIdent = false) (hs : t.literal = .text s) (label : String) :
    AtomCode env t [{ op := .pushGea, operand := .label label, span := t.span }]
  | number {v : UInt64} (ht : t.isIdent = false) (hv : t.literal = .unsigned v ∨ t.literal = .float v) :
    AtomCode env t [{ op := .pushUnsign, operand := .unsigned v, span := t.span }]

theorem accepted_name (env : Env) {t : Token} (ht : t.isIdent = true) :
    Ensures accepted (lowerName env t) fun cs => env.Valid → AtomCode env t cs := by
  unfold lowerName
  split
  next hl =>
    split
    next b hb =>
      refine .pure fun _ => ?_
      rw [Builtin.name_of_ofName? hb]
      exact .function ht (.inr ⟨hl, b, hb⟩)
    · exact ensures_rejected rfl _
  next s hl =>
    split
    next hk =>
      split
      next o ho => exact .pure fun _ => .variable ht hl hk ho
      · exact ensures_rejected rfl _
    next hk => exact .pure fun _ => .function ht (.inl ⟨s, hl, .inl hk⟩)
    next hk => exact .pure fun _ => .function ht (.inl ⟨s, hl, .inr hk⟩)
    · exact ensures_rejected rfl _
    · exact ensures_rejected rfl _
    next hk => exact .pure fun hv => absurd hk (hv _ _ hl)

theorem accepted_atom (env : Env) {t : Token} (ht : t.IsValue) :
    Ensures accepted (lowerAtom env t) fun cs => env.Valid → AtomCode env t cs := by
  have hident : t.kind ≠ .ident → t.isIdent = false := fun h => by simpa [Token.isIdent] using h
  unfold lowerAtom
  split
  next hk => exact accepted_name env (by simp [Token.isIdent, hk])
  next hk hs => exact (ensures_intern _).bind fun l => .pure fun _ _ => .text (hident (by simp [hk])) hs l
  next hv hk => exact .pure fun _ => .number (hident hk) (.inl hv)
  next hv hk => exact .pure fun _ => .number (hident hk) (.inr hv)
  next h₁ h₂ h₃ h₄ =>
    exfalso
    unfold Token.IsValue at ht
    split at ht <;> simp_all

/-! ## Expressions -/

/-- The code of a place whose address is taken, or to which a value is written, from the code that reads it. -/
inductive LvalueCode (mode : LvalueMode) : List Command → List Command → Prop
  | last {front : List Command} {c : Command} {op : Opcode} {store : Bool} (h : c.op.toLvalue? mode = some (op, store)) :
    LvalueCode mode (front ++ [c]) (front ++ { c with op } :: if store then [{ op := .store, span := c.span }] else [])

mutual

/-- What is made of an expression. -/
inductive Expr.Coded (env : Env) : Expr → List Command → Nat → Prop
  | atom {t cs} (h : AtomCode env t cs) : Expr.Coded env (.atom t) cs 1
  | addressOf {t e read cs} (he : Expr.Coded env e read 1) (hp : e.isPlace = true) (h : LvalueCode .address read cs) :
    Expr.Coded env (.unary .addressOf t e) cs 1
  | unary {op : UnaryOp} {t e cs} (hop : op ≠ .addressOf) (he : Expr.Coded env e cs 1) :
    Expr.Coded env (.unary op t e) (cs ++ [{ op := op.opcode, span := t.span }]) 1
  | assign {t l r value read write} (hr : Expr.Coded env r value 1) (hl : Expr.Coded env l read 1)
    (hp : l.isPlace = true) (h : LvalueCode .store read write) :
    Expr.Coded env (.binary .assign t l r) (value ++ write) 0
  | and {t l r left right} (hl : Expr.Coded env l left 1) (hr : Expr.Coded env r right 1) :
    Expr.Coded env (.binary .and t l r) (shortCircuit .jumpIfNot t.span left right) 1
  | or {t l r left right} (hl : Expr.Coded env l left 1) (hr : Expr.Coded env r right 1) :
    Expr.Coded env (.binary .or t l r) (shortCircuit .jumpIf t.span left right) 1
  | binary {op : BinaryOp} {t l r left right} (hop : op.opcode ≠ .invalid) (hr : Expr.Coded env r right 1)
    (hl : Expr.Coded env l left 1) :
    Expr.Coded env (.binary op t l r) (right ++ left ++ [{ op := op.opcode, span := t.span }]) 1
  | call {t f : Token} {args cs returns} (ht : f.isIdent = true) (hargs : Expr.CodedArgs env args cs)
    (hf : env.Calls f.text args.length returns) :
    Expr.Coded env (.call t (.atom f) args) (cs ++ [{ op := .call, operand := .label f.text, span := f.span }]) returns
  | index {t base i array index} (hi : Expr.Coded env i index 1) (hb : Expr.Coded env base array 1) :
    Expr.Coded env (.index t base [i]) (elementAddress t.span index array ++ [{ op := .load, span := t.span }]) 1
  | cast {t ty e cs n} (he : Expr.Coded env e cs n) : Expr.Coded env (.cast t ty e) cs n

/-- The code of the arguments of a call. -/
inductive Expr.CodedArgs (env : Env) : List Expr → List Command → Prop
  | nil : Expr.CodedArgs env [] []
  | cons {e es cs rest} (hes : Expr.CodedArgs env es rest) (he : Expr.Coded env e cs 1) :
    Expr.CodedArgs env (e :: es) (rest ++ cs)

end

/-- The code of a list of expressions. -/
inductive Expr.CodedAll (env : Env) : List Expr → Produced → Prop
  | nil : Expr.CodedAll env [] ⟨[], 0⟩
  | cons {e es} {p rest : Produced} (hes : Expr.CodedAll env es rest) (he : Expr.Coded env e p.code p.values) :
    Expr.CodedAll env (e :: es) ⟨rest.code ++ p.code, rest.values + p.values⟩

/-- The code that writes values to a list of places. -/
inductive Expr.CodedStores (env : Env) : List Expr → List Command → Prop
  | nil : Expr.CodedStores env [] []
  | cons {e es read write rest} (he : Expr.Coded env e read 1) (hp : e.isPlace = true) (h : LvalueCode .store read write)
    (hes : Expr.CodedStores env es rest) :
    Expr.CodedStores env (e :: es) (write ++ rest)

section

variable {env : Env} {e : Expr} {cs : List Command}

theorem AtomCode.last {t : Token} (h : AtomCode env t cs) : ∃ c, cs = [c] ∧ c.op ≠ .invalid ∧
    (t.isIdent = true → ∀ name, c.operand = .label name → name = t.text ∧ c.span = t.span ∧ env.Callable name) := by
  cases h with
  | @«variable» s o =>
    cases o <;> cases s.isArray
    all_goals
      refine ⟨_, rfl, by simp, ?_⟩
      rintro - _ ⟨⟩
  | function _ h =>
    refine ⟨_, rfl, nofun, ?_⟩
    rintro - _ ⟨⟩
    exact ⟨rfl, rfl, h⟩
  | text ht | number ht => exact ⟨_, rfl, nofun, fun ht' => absurd (ht.symm.trans ht') (by decide)⟩

theorem LvalueCode.valid {mode : LvalueMode} {read : List Command} (h : LvalueCode mode read cs) :
    ∃ front c, cs = front ++ [c] ∧ c.op ≠ .invalid := by
  cases h with
  | @last front c op store h =>
    cases store with
    | true => exact ⟨front ++ [{ c with op }], _, List.append_cons .., by simp⟩
    | false =>
      refine ⟨front, _, rfl, ?_⟩
      rintro rfl
      revert h
      cases c.op <;> cases mode <;> decide

theorem Expr.Coded.atomCode {t : Token} {n : Nat} (h : (Expr.atom t).Coded env cs n) : AtomCode env t cs := by
  cases h with
  | atom h => exact h

/-- Code that leaves a value ends with a command that may be executed. -/
theorem Expr.Coded.last {n : Nat} (h : e.Coded env cs n) (hn : n = 1) : ∃ front c, cs = front ++ [c] ∧ c.op ≠ .invalid := by
  induction h using Expr.Coded.rec (motive_2 := fun _ _ _ => True) with
  | atom h =>
    obtain ⟨c, rfl, hc, -⟩ := h.last
    exact ⟨[], c, rfl, hc⟩
  | addressOf _ _ h => exact h.valid
  | @unary op => exact ⟨_, _, rfl, by cases op <;> simp [UnaryOp.opcode]⟩
  | assign => cases hn
  | and _ _ _ ih | or _ _ _ ih =>
    obtain ⟨front, c, rfl, hc⟩ := ih rfl
    exact ⟨_, c, (List.append_assoc ..).symm, hc⟩
  | binary hop => exact ⟨_, _, rfl, hop⟩
  | call | index => exact ⟨_, _, rfl, by simp⟩
  | cast _ ih => exact ih hn
  | nil | cons => trivial

/-- The code of an expression as a value. -/
theorem accepted_value {β : Type} {f : List Command → Lower β} {Q : β → Prop} (hw : e.Whole)
    (he : Ensures accepted (e.lower env) fun p => env.Valid → e.Coded env p.code p.values)
    (hf : ∀ cs, Ensures accepted (f cs) fun b => (env.Valid → e.Coded env cs 1) → Q b) :
    Ensures accepted (e.lower env >>= fun p => single e p >>= f) Q := by
  refine he.bind fun p => (accepted_single hw.isError p).bind fun cs => (hf cs).mono ?_
  rintro b hb ⟨rfl, hv⟩ hp
  exact hb fun henv => hv ▸ hp henv

theorem accepted_asLvalue (hw : e.Whole) (mode : LvalueMode) (read : List Command) : Ensures accepted (asLvalue e mode read)
    fun cs => e.Coded env read 1 → e.isPlace = true ∧ LvalueCode mode read cs := by
  have hnot : ∀ {Q : List Command → Prop}, Ensures accepted (asLvalue.notAPlace e read) Q := ensures_rejected rfl _
  unfold asLvalue
  rw [hw.isError]
  split
  next h => cases h
  split
  next last hlast =>
    obtain ⟨front, rfl⟩ := List.getLast?_eq_some_iff.mp hlast
    split
    next hinvalid =>
      refine .pure fun he => ?_
      obtain ⟨_, c, hcode, hc⟩ := he.last rfl
      obtain rfl : last = c := by simpa using (List.append_inj' hcode rfl).2
      exact absurd hinvalid hc
    split
    next op store hop =>
      refine .pure fun _ => ?_
      split at hop
      next hp =>
        rw [List.dropLast_concat]
        exact ⟨hp, .last hop⟩
      · cases hop
    · exact hnot
  · exact hnot

/-- A place, and the code that takes its address or writes to it. -/
theorem accepted_place {β : Type} {f : List Command → Lower β} {Q : β → Prop} (hw : e.Whole) (mode : LvalueMode)
    (he : Ensures accepted (e.lower env) fun p => env.Valid → e.Coded env p.code p.values)
    (hf : ∀ cs, Ensures accepted (f cs) fun b =>
      (env.Valid → ∃ read, e.Coded env read 1 ∧ e.isPlace = true ∧ LvalueCode mode read cs) → Q b) :
    Ensures accepted (e.lower env >>= fun p => single e p >>= fun cs => asLvalue e mode cs >>= f) Q := by
  refine accepted_value hw he fun read => (@accepted_asLvalue env _ hw mode read).bind fun cs => (hf cs).mono ?_
  exact fun b hb hplace he => hb fun henv => ⟨read, he henv, hplace (he henv)⟩

/-! ## Calls -/

theorem Expr.Whole.eq_atom (h : e.Whole) (ht : e.token.isIdent = true) : e = .atom e.token := by
  cases h with
  | atom => rfl
  | _ => simp_all [Expr.token]

theorem of_calleeName? {c : Command} {name : String} (h : calleeName? e c = some name) :
    c.operand = .label name ∧ e.token.isIdent = true := by
  unfold calleeName? at h
  split at h
  next ho =>
    split at h
    next ht =>
      cases h
      exact ⟨ho, ht⟩
    · cases h
  · cases h

/-- What a name that is called takes and leaves. -/
theorem accepted_arity (env : Env) (name : String) (t : Token) (found : Nat) (span : Span) :
    Ensures accepted (arity env name t found span) fun a => name = t.text → env.Callable t.text → env.Calls t.text a.1 a.2 := by
  unfold arity
  split
  next s hl =>
    split
    · exact ensures_rejected rfl _
    next hk =>
      refine .pure ?_
      rintro - (⟨s', hs', hk'⟩ | ⟨hnone, -⟩)
      · obtain rfl : s = s' := Option.some.inj (hl.symm.trans hs')
        exact .inl ⟨s, hl, hk'.resolve_right hk, rfl, rfl⟩
      · cases hl.symm.trans hnone
  next hl =>
    split
    next b hb => exact .pure fun hname _ => .inr ⟨hl, b, hname ▸ hb, rfl, rfl⟩
    next hb =>
      refine .pure ?_
      rintro rfl (⟨s, hs, -⟩ | ⟨-, b, hb'⟩)
      · cases hl.symm.trans hs
      · cases hb.symm.trans hb'

/-- A call is one of a function by its name, with as many arguments as it takes. -/
theorem accepted_lowerCall (env : Env) (t : Token) {f : Expr} (hw : f.Whole) (args : List Expr) (cs target : List Command) :
    Ensures accepted (lowerCall env (.call t f args) f args.length cs target) fun p => f.Coded env target 1 →
      Expr.CodedArgs env args cs → (Expr.call t f args).Coded env p.code p.values := by
  unfold lowerCall
  dsimp only
  rw [hw.isError]
  split
  next h => cases h
  split
  next hnone =>
    refine .pure fun hf => ?_
    obtain ⟨front, c, hcode, -⟩ := hf.last rfl
    simp [show target = _ from hcode] at hnone
  next last hlast =>
    obtain ⟨front, rfl⟩ := List.getLast?_eq_some_iff.mp hlast
    split
    next hinvalid =>
      refine .pure fun hf => ?_
      obtain ⟨_, c, hcode, hc⟩ := hf.last rfl
      obtain rfl : last = c := by simpa using (List.append_inj' hcode rfl).2
      exact absurd hinvalid hc
    split
    · exact ensures_rejected rfl _
    next name hname =>
      obtain ⟨hoperand, ht⟩ := of_calleeName? hname
      obtain ⟨name', rfl⟩ : ∃ t, f = .atom t := ⟨_, hw.eq_atom ht⟩
      refine (accepted_arity env name name' args.length _).bind fun a => ?_
      split
      · exact ensures_rejected rfl _
      next hcount =>
        refine .pure fun harity hf hargs => ?_
        obtain ⟨c, hcode, -, hcallee⟩ := hf.atomCode.last
        obtain ⟨rfl, hc⟩ := List.append_eq_singleton_iff.mp hcode |>.resolve_right nofun
        cases hc
        obtain ⟨rfl, hspan, hcallable⟩ := hcallee ht name hoperand
        have hcalls := harity rfl hcallable
        rw [Decidable.of_not_not hcount] at hcalls
        rw [List.nil_append, List.dropLast_concat, hspan]
        exact .call ht hargs hcalls

end

mutual

theorem Expr.Whole.accepted_coded : ∀ {e : Expr}, e.Whole → ∀ env : Env,
    Ensures accepted (e.lower env) fun p => env.Valid → e.Coded env p.code p.values
  | _, .atom ht, env => (accepted_atom env ht).bind fun _ => .pure fun h hv => .atom (h hv)
  | _, @Expr.Whole.unary op t e _ he, env => by
    cases op with
    | addressOf =>
      refine accepted_place he .address (he.accepted_coded env) fun cs => .pure fun h hv => ?_
      obtain ⟨read, he, hp, hcs⟩ := h hv
      exact .addressOf he hp hcs
    | deref | neg | not | bitNot =>
      exact accepted_value he (he.accepted_coded env) fun cs => .pure fun h hv => .unary nofun (h hv)
  | _, @Expr.Whole.binary op t l r _ hl hr, env => by
    have ihl := hl.accepted_coded env
    have ihr := hr.accepted_coded env
    cases op
    case assign =>
      refine accepted_value hr ihr fun value => accepted_place hl .store ihl fun cs => .pure fun hl hr hv => ?_
      obtain ⟨read, hl, hp, hcs⟩ := hl hv
      exact .assign (hr hv) hl hp hcs
    case and => exact accepted_value hl ihl fun _ => accepted_value hr ihr fun _ => .pure fun hr hl hv => .and (hl hv) (hr hv)
    case or => exact accepted_value hl ihl fun _ => accepted_value hr ihr fun _ => .pure fun hr hl hv => .or (hl hv) (hr hv)
    case member => exact ensures_rejected rfl _
    all_goals
      exact accepted_value hr ihr fun _ => accepted_value hl ihl fun _ => .pure fun hl hr hv => .binary nofun (hr hv) (hl hv)
  | _, .call _ hf hargs, env =>
    (hargs.accepted_codedArgs env).bind fun cs => accepted_value hf (hf.accepted_coded env) fun target =>
      (accepted_lowerCall env _ hf _ cs target).mono fun p hp hf hargs hv => hp (hf hv) (hargs hv)
  | _, @Expr.Whole.index t base i more _ hb hi _, env => by
    refine ensures_index (ensures_report _) (accepted_value hi (hi.accepted_coded env) fun index =>
      accepted_value hb (hb.accepted_coded env) fun array => .pure fun hb hi hmore hv => ?_)
    obtain rfl : more = [] := Classical.byContradiction fun hne => by cases hmore hne
    exact .index (hi hv) (hb hv)
  | _, .cast _ _ he, env => (he.accepted_coded env).mono fun _ h hv => .cast (h hv)

theorem Expr.WholeAll.accepted_codedArgs : ∀ {es : List Expr}, Expr.WholeAll es → ∀ env : Env,
    Ensures accepted (Expr.lowerArgs env es) fun cs => env.Valid → Expr.CodedArgs env es cs
  | _, .nil, _ => .pure fun _ => .nil
  | _, .cons he hes, env => (hes.accepted_codedArgs env).bind fun _ => accepted_value he (he.accepted_coded env) fun _ =>
    .pure fun h hes hv => .cons (hes hv) (h hv)

end

theorem Expr.WholeAll.accepted_coded : ∀ {es : List Expr}, Expr.WholeAll es → ∀ env : Env,
    Ensures accepted (Expr.lowerAll env es) fun p => env.Valid → Expr.CodedAll env es p
  | _, .nil, _ => .pure fun _ => .nil
  | _, .cons he hes, env => (hes.accepted_coded env).bind fun _ => (he.accepted_coded env).bind fun _ =>
    .pure fun h hes hv => .cons (hes hv) (h hv)

theorem Expr.WholeAll.accepted_codedStores : ∀ {es : List Expr}, Expr.WholeAll es → ∀ env : Env,
    Ensures accepted (storeAll env es) fun cs => env.Valid → Expr.CodedStores env es cs
  | _, .nil, _ => .pure fun _ => .nil
  | _, .cons he hes, env => by
    refine accepted_place he .store (he.accepted_coded env) fun cs => (hes.accepted_codedStores env).bind fun _ =>
      .pure fun hes h hv => ?_
    obtain ⟨read, he, hp, hcs⟩ := h hv
    exact .cons he hp hcs (hes hv)

theorem accepted_swap (env : Env) {targets values : ExprList} (ht : Expr.WholeAll targets.items)
    (hv : Expr.WholeAll values.items) : Ensures accepted (lowerSwap env targets values) fun cs => ∃ p stores,
      cs = p.code ++ stores ∧ (env.Valid → Expr.CodedAll env values.items p) ∧ targets.items.length = p.values ∧
        (env.Valid → Expr.CodedStores env targets.items stores) :=
  (hv.accepted_coded env).bind fun p => (accepted_checkCount _ _ (ExprList.isError_of_whole hv)).bind fun _ =>
    (ht.accepted_codedStores env).bind fun stores => .pure fun ht hn hv => ⟨p, stores, rfl, hv, hn, ht⟩

/-! ## Statements -/

/-- What is made of the declarations of several variables: the code that makes room for them, and the code that writes
their values. -/
inductive CodedLocals : Env → List Token → List TypeExpr → Env → List Command → List Command → Prop
  | nil {env} : CodedLocals env [] [] env [] []
  | cons {env env' : Env} {name : Token} {names} {ty : TypeExpr} {types t codes stores}
    (ht : ty.describe.result.1 = .ok t) (hfresh : env.Fresh name.text)
    (h : CodedLocals (env.declared name.text name.span t) names types env' codes stores) :
    CodedLocals env (name :: names) (ty :: types) env' (allocCommand t.size name.span :: codes)
      (storeLocal (env.depth + t.size) name.span ++ stores)

mutual

/-- What is made of a statement, and the environment behind it. Its expressions are only looked at where all names are as
they should be. -/
inductive Stmt.Coded : Env → Stmt → Env → Code → Prop
  | block {env inner : Env} {t body code} (h : Stmt.CodedAll env.openBlock body inner code) :
    Stmt.Coded env (.block t body) (env.closeBlock inner)
      (code ++ .ofCommands (freeCommands (inner.depth - env.depth) (Stmt.block t body).span))
  | ifThen {env env' : Env} {t c yes cs code} (hc : env.Valid → Expr.Coded env c cs 1)
    (h : Stmt.CodedBranch env yes env' code) : Stmt.Coded env (.ifThen t c yes) env' (.ifThen t.span cs code)
  | ifElse {env env₁ env₂ : Env} {t c yes no cs code₁ code₂} (hc : env.Valid → Expr.Coded env c cs 1)
    (hy : Stmt.CodedBranch env yes env₁ code₁) (hn : Stmt.CodedBranch env₁ no env₂ code₂) :
    Stmt.Coded env (.ifElse t c yes no) env₂ (.ifElse t.span cs code₁ code₂)
  | while {env inner : Env} {t c body cs code} (hc : env.Valid → Expr.Coded env c cs 1)
    (h : Stmt.CodedBranch { env with loopDepth := some env.depth } body inner code) :
    Stmt.Coded env (.while t c body) (env.closeBlock inner) (.loop t.span cs code)
  | return {env : Env} {t} (h : 0 = env.returns) : Stmt.Coded env (.return t) env
    (.ofCommands ([] ++ freeCommands env.depth t.span ++ [{ op := .framePop, span := t.span }, { op := .ret, span := t.span }]))
  | returnWith {env : Env} {t} {values : ExprList} {p} (h : env.Valid → Expr.CodedAll env values.items p)
    (hn : p.values = env.returns) : Stmt.Coded env (.returnWith t values) env (.ofCommands
      (p.code ++ freeCommands env.depth t.span ++ [{ op := .framePop, span := t.span }, { op := .ret, span := t.span }]))
  | exit {env : Env} {e t base} (h : env.loopDepth = some base) :
    Stmt.Coded env (.exit e t) env (Code.ofCommands (freeCommands (env.depth - base) t.span) ++ [.pending e t.span])
  | expr {env : Env} {t e} {p : Produced} (h : env.Valid → Expr.Coded env e p.code p.values) :
    Stmt.Coded env (.expr t e) env (.ofCommands (p.code ++ popCommands p.values t.span))
  | exprs {env : Env} {t} {es : ExprList} {p} (h : env.Valid → Expr.CodedAll env es.items p) :
    Stmt.Coded env (.exprs t es) env (.ofCommands (p.code ++ popCommands p.values t.span))
  | swap {env : Env} {t} {targets values : ExprList} {p stores} (hv : env.Valid → Expr.CodedAll env values.items p)
    (hn : targets.items.length = p.values) (ht : env.Valid → Expr.CodedStores env targets.items stores) :
    Stmt.Coded env (.swap t targets values) env (.ofCommands (p.code ++ stores))
  | declare {env : Env} {name : Token} {ty : TypeExpr} {t} (ht : ty.describe.result.1 = .ok t) (hfresh : env.Fresh name.text) :
    Stmt.Coded env (.declare name ty) (env.declared name.text name.span t) (.ofCommands [allocCommand t.size name.span])
  | declareAs {env : Env} {name : Token} {ty : TypeExpr} {t value cs} (ht : ty.describe.result.1 = .ok t)
    (hfresh : env.Fresh name.text) (harray : t.isArray = false)
    (hv : ({ env.declared name.text name.span t with excluded := some name.text } : Env).Valid →
      Expr.Coded { env.declared name.text name.span t with excluded := some name.text } value cs 1) :
    Stmt.Coded env (.declareAs name ty value) (env.declared name.text name.span t)
      (.ofCommands ([allocCommand t.size name.span] ++ cs ++ storeLocal (env.depth + t.size) name.span))
  | declareMany {env env' t names types tys code stores} (htys : typesFor? names types = some tys)
    (h : CodedLocals env names tys env' code stores) : Stmt.Coded env (.declareMany t names types) env' (.ofCommands code)
  | declareManyAs {env env' : Env} {t names types} {values : ExprList} {tys code stores p}
    (htys : typesFor? names types = some tys) (h : CodedLocals env names tys env' code stores)
    (hv : env'.Valid → Expr.CodedAll env' values.items p) (hn : names.length = p.values) :
    Stmt.Coded env (.declareManyAs t names types values) env' (.ofCommands (code ++ p.code ++ stores))
  | record {env : Env} {kind} {name : Token} {fields} (hfresh : env.Fresh name.text) :
    Stmt.Coded env (.record kind name fields) (env.enter name.text { kind := .type, span := name.span }) []
  | enumeration {env : Env} {name : Token} {variants} (hfresh : env.Fresh name.text) :
    Stmt.Coded env (.enumeration name variants) (env.enter name.text { kind := .type, span := name.span }) []
  | use {env : Env} {t} {path : List Name} {alias? : Option Name} {n} (hn : alias?.or path.getLast? = some n)
    (hfresh : env.Fresh n.token.text) :
    Stmt.Coded env (.use t path alias?) (env.enter n.token.text { kind := .nameSpace, span := n.token.span }) []
  | useNothing {env t} {path : List Name} {alias? : Option Name} (hn : alias?.or path.getLast? = none) :
    Stmt.Coded env (.use t path alias?) env []

/-- What is made of a branch of an `if` or of the body of a loop. -/
inductive Stmt.CodedBranch : Env → Stmt → Env → Code → Prop
  | braced {env env'} {s : Stmt} {code} (hs : s.isBlock = true) (h : s.Coded env env' code) :
    Stmt.CodedBranch env s env' code
  | bare {env inner : Env} {s : Stmt} {code} (hs : s.isBlock = false) (h : s.Coded env.openBlock inner code) :
    Stmt.CodedBranch env s (env.closeBlock inner) (code ++ .ofCommands (freeCommands (inner.depth - env.depth) s.span))

/-- What is made of the statements of a block. -/
inductive Stmt.CodedAll : Env → List Stmt → Env → Code → Prop
  | nil {env} : Stmt.CodedAll env [] env []
  | cons {env env₁ env₂ s rest code codes} (h : Stmt.Coded env s env₁ code) (hrest : Stmt.CodedAll env₁ rest env₂ codes) :
    Stmt.CodedAll env (s :: rest) env₂ (code ++ codes)

end

theorem length_typesFor? {names : List Token} {types : TypeList} {tys : List TypeExpr}
    (h : typesFor? names types = some tys) : tys.length = names.length := by
  unfold typesFor? at h
  split at h
  · cases h
  split at h
  · cases h
    exact List.length_map _
  · split at h
    next hlen =>
      cases h
      exact hlen
    · cases h

theorem accepted_locals (env : Env) (names : List Token) (types : List TypeExpr) :
    Ensures accepted (declareLocals env names types) fun r => types.length = names.length →
      CodedLocals env names types r.1 r.2.1 r.2.2 := by
  induction names generalizing env types with
  | nil =>
    cases types with
    | nil => exact .pure fun _ => .nil
    | cons => exact .pure nofun
  | cons name names ih =>
    cases types with
    | nil => exact .pure nofun
    | cons ty types =>
      refine (accepted_localType? env ty).bind fun t? => (accepted_declareLocal env name _).bind fun r =>
        (ih r.1 types).bind fun _ => .pure fun h hr ht hlen => ?_
      obtain ⟨t, rfl, ht⟩ := ht
      obtain ⟨rfl, hfresh⟩ := hr
      rw [Env.depth_declared]
      exact .cons ht hfresh (h (Nat.succ.inj hlen))

/-- The declaration of several variables, up to what is done with their values. -/
theorem accepted_several (env : Env) (names : List Token) {types : TypeList} (ht : TypeExpr.WholeAll types.items)
    {values? : Option ExprList} (hv : ∀ values ∈ values?, Expr.WholeAll values.items) :
    Ensures accepted (declareSeveral env names types values?) fun r => ∃ tys code stores, typesFor? names types = some tys ∧
      CodedLocals env names tys r.1 code stores ∧ match values? with
        | none => r.2 = code
        | some values => ∃ p : Produced, (r.1.Valid → Expr.CodedAll r.1 values.items p) ∧ names.length = p.values ∧
          r.2 = code ++ p.code ++ stores := by
  unfold declareSeveral
  split
  · rw [TypeList.isError_of_whole ht]
    exact ensures_rejected rfl _
  next tys htys =>
    refine (accepted_locals env names tys).bind fun ⟨env', code, stores⟩ => ?_
    cases values? with
    | none => exact .pure fun h => ⟨tys, code, stores, htys, h (length_typesFor? htys), rfl⟩
    | some values =>
      refine ((hv _ rfl).accepted_coded env').bind fun p =>
        (accepted_checkCount _ _ (ExprList.isError_of_whole (hv _ rfl))).bind fun _ => .pure fun hn hp h => ?_
      exact ⟨tys, code, stores, htys, h (length_typesFor? htys), p, hp, hn, rfl⟩

theorem accepted_declareValue (env : Env) (name : Token) {ty : TypeExpr} (ht : ty.Whole) {value : Expr} (hv : value.Whole) :
    Ensures accepted (declareValue env name ty value) fun r =>
      (Stmt.declareAs name ty value).Coded env r.1 (.ofCommands r.2) := by
  refine (accepted_declareTyped env name ht).bind fun r => ?_
  obtain ⟨env', code, t?⟩ := r
  cases t? with
  | none =>
    refine .pure fun h => ?_
    obtain ⟨_, _, h, _⟩ := h
    cases h
  | some t =>
    dsimp only
    split
    · exact ensures_rejected rfl _
    next harray =>
      refine accepted_value hv (hv.accepted_coded _) fun init => .pure fun hp hd => ?_
      obtain ⟨t, ht, hd, hfresh⟩ := hd
      cases hd
      rw [Env.depth_declared]
      exact .declareAs ht hfresh (Bool.eq_false_iff.mpr harray) hp

theorem accepted_branch (env : Env) (s : Stmt) {lower : Env → Lower (Env × Code)}
    (h : ∀ env : Env, Ensures accepted (lower env) fun r => s.Coded env r.1 r.2) :
    Ensures accepted (branch env s lower) fun r => Stmt.CodedBranch env s r.1 r.2 := by
  unfold branch
  split
  next hs => exact (h env).mono fun _ => .braced hs
  next hs => exact (h _).bind fun _ => .pure fun hi => .bare (Bool.eq_false_iff.mpr hs) hi

mutual

theorem Stmt.Whole.accepted_coded : ∀ {s : Stmt}, s.Whole → ∀ env : Env,
    Ensures accepted (s.lower env) fun r => s.Coded env r.1 r.2
  | _, .block h, env => (h.accepted_coded env.openBlock).bind fun _ => .pure .block
  | _, .ifThen hc hy, env => accepted_value hc (hc.accepted_coded env) fun _ =>
    (accepted_branch env _ hy.accepted_coded).bind fun _ => .pure fun h hp => .ifThen hp h
  | _, .ifElse hc hy hn, env => accepted_value hc (hc.accepted_coded env) fun _ =>
    (accepted_branch env _ hy.accepted_coded).bind fun ⟨env', _⟩ =>
      (accepted_branch env' _ hn.accepted_coded).bind fun _ => .pure fun hn hy hp => .ifElse hp hy hn
  | _, .while hc hb, env => accepted_value hc (hc.accepted_coded env) fun _ =>
    (accepted_branch _ _ hb.accepted_coded).bind fun _ => .pure fun h hp => .while hp h
  | _, .return t, env => (accepted_lowerReturn env t _).bind fun _ => .pure fun ⟨hn, h⟩ => h ▸ .return hn
  | _, @Stmt.Whole.returnWith t values h, env => by
    unfold Stmt.lower
    rw [ExprList.isError_of_whole h]
    exact (h.accepted_coded env).bind fun p => (accepted_lowerReturn env t p).bind fun _ =>
      .pure fun ⟨hn, h⟩ hp => h ▸ .returnWith hp hn
  | _, .exit e t, env => by
    unfold Stmt.lower lowerExit
    split
    · exact ensures_rejected rfl _
    next h => exact .pure (.exit h)
  | _, .expr h, env => (h.accepted_coded env).bind fun _ => .pure .expr
  | _, .exprs h, env => (h.accepted_coded env).bind fun _ => .pure .exprs
  | _, .swap ht hv, env => (accepted_swap env ht hv).bind fun _ => .pure fun ⟨_, _, hcs, hv, hn, ht⟩ => hcs ▸ .swap hv hn ht
  | _, @Stmt.Whole.declare name _ h, env => by
    refine (accepted_declareTyped env name h).bind fun _ => .pure fun ⟨t, ht, hd, hfresh⟩ => ?_
    rw [hd]
    exact .declare ht hfresh
  | _, .declareAs h he, env => (accepted_declareValue env _ h he).bind fun _ => .pure id
  | _, @Stmt.Whole.define name _ _ _ h _, env => by
    refine (accepted_declareTyped env name h).bind fun ⟨_, _, t?⟩ => ?_
    dsimp only
    split
    · exact ensures_rejected rfl _
    next hnone =>
      refine .pure fun ⟨_, _, hd, _⟩ => ?_
      cases hd
      exact absurd rfl hnone
  | _, .external _, env => ensures_rejected rfl _
  | _, .declareMany h, env => by
    refine (accepted_several env _ h (by simp)).bind fun _ => .pure fun ⟨tys, code, stores, htys, h, hr⟩ => ?_
    exact hr ▸ .declareMany htys h
  | _, .declareManyAs h hv, env => by
    refine (accepted_several env _ h (by simpa using hv)).bind fun _ => .pure fun h => ?_
    obtain ⟨tys, code, stores, htys, h, p, hp, hn, hr⟩ := h
    exact hr ▸ .declareManyAs htys h hp hn
  | _, .record _, env => (accepted_declare env _ _).bind fun _ => .pure fun h => h.1 ▸ .record h.2
  | _, .enumeration _ _ _, env => (accepted_declare env _ _).bind fun _ => .pure fun h => h.1 ▸ .enumeration h.2
  | _, .use _ path alias? _ _, env => by
    unfold Stmt.lower
    split
    next hn => exact .pure (.useNothing hn)
    next n hn => exact (accepted_declare env _ _).bind fun _ => .pure fun h => h.1 ▸ .use hn h.2

theorem Stmt.WholeAll.accepted_coded : ∀ {body : List Stmt}, Stmt.WholeAll body → ∀ env : Env,
    Ensures accepted (Stmt.lowerAll env body) fun r => Stmt.CodedAll env body r.1 r.2
  | _, .nil, _ => .pure .nil
  | _, .cons h hs, env => (h.accepted_coded env).bind fun ⟨env', _⟩ => (hs.accepted_coded env').bind fun _ =>
    .pure fun hs h => .cons h hs

end

end Wordstack
