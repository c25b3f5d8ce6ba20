/-
Static scope. The code that is made for a name refers to what the name stands for in the text: where code is made, the
environment knows in each block what the text declares there, and it forgets a block where the text leaves it.
-/
import Wordstack.Proofs.Recording
import Wordstack.Proofs.Surroundings
import Wordstack.Proofs.Symbols

namespace Wordstack

open Lower

variable {ty : TypeExpr}

/-! ## Code that refers to what the names stand for -/

/-- Code for the words `ws` with the references `rs`: for each of the names there is a reference to what it stands for,
and no word has more than one. -/
structure Cites (ctx : GlobalContext) (os : List Occurrence) (ws : List Token) (rs : List (Span × Referent)) : Prop where
  found : ∀ o ∈ os, ∃ r, o.here.referent? ctx o.name.text = some r ∧ (o.name.span, r) ∈ rs
  once : ∀ p, rs.countP (·.1 = p) ≤ ws.countP (·.span = p)

/-- No name of the globals is in error. -/
def GlobalContext.Sound (ctx : GlobalContext) : Prop := ∀ x e, ctx.scope.get? x = some e → e.kind ≠ .error

section

variable {ctx : GlobalContext} {here : Surroundings}

namespace Cites

variable {os os' : List Occurrence} {ws ws' : List Token} {rs rs' : List (Span × Referent)}

theorem nil (ws : List Token) : Cites ctx [] ws [] := ⟨fun o ho => by (cases ho), fun _ => Nat.zero_le _⟩

theorem append (h : Cites ctx os ws rs) (h' : Cites ctx os' ws' rs') : Cites ctx (os ++ os') (ws ++ ws') (rs ++ rs') where
  found := by
    intro o ho
    rcases List.mem_append.mp ho with ho | ho
    · obtain ⟨r, hr, hm⟩ := h.found o ho
      exact ⟨r, hr, List.mem_append_left _ hm⟩
    · obtain ⟨r, hr, hm⟩ := h'.found o ho
      exact ⟨r, hr, List.mem_append_right _ hm⟩
  once := by
    intro p
    have h₁ := h.once p
    have h₂ := h'.once p
    simp only [List.countP_append]
    omega

/-- The second part may be computed first. -/
theorem flip (h : Cites ctx os ws rs) (h' : Cites ctx os' ws' rs') : Cites ctx (os ++ os') (ws ++ ws') (rs' ++ rs) := by
  have hperm : (rs ++ rs').Perm (rs' ++ rs) := List.perm_append_comm
  refine ⟨fun o ho => ?_, fun p => ?_⟩
  · obtain ⟨r, hr, hm⟩ := (h.append h').found o ho
    exact ⟨r, hr, hperm.mem_iff.mp hm⟩
  · rw [← hperm.countP_eq]
    exact (h.append h').once p

/-- Not every word has to have a reference. -/
theorem sublist (h : Cites ctx os ws rs) (hs : ws.Sublist ws') : Cites ctx os ws' rs :=
  ⟨h.found, fun p => Nat.le_trans (h.once p) hs.countP_le⟩

end Cites

/-! ## Expressions -/

/-- What a variable is read from. -/
def Storage.referent : Storage → Referent
  | .stack o => .frame o.toUInt64
  | .static o => .static o.toUInt64

/-- What a name that is found in `env` is lowered to. -/
def Env.referent? (env : Env) (x : String) : Option Referent :=
  match env.lookup? x with
  | some s =>
    match s.kind with
    | .var => s.storage.map Storage.referent
    | .func | .prototype => some (.label x)
    | _ => none
  | none => (Builtin.ofName? x).map fun b => .label b.name

/-- In `env` all names stand for what they stand for in the text, and none of them is an error. -/
def Env.Sees (ctx : GlobalContext) (env : Env) (here : Surroundings) : Prop :=
  ∀ x, env.referent? x = here.referent? ctx x ∧ ∀ s, env.lookup? x = some s → s.kind ≠ .error

theorem references_readVariable (storage : Storage) (isArray : Bool) (span : Span) :
    references (readVariable storage isArray span) = [(span, storage.referent)] := by
  cases storage <;> cases isArray <;> rfl

theorem Env.referent?_of_callable {env : Env} {x : String} (h : env.Callable x) : env.referent? x = some (.label x) := by
  rcases h with ⟨s, hs, hk | hk⟩ | ⟨hl, b, hb⟩
  · simp [Env.referent?, hs, hk]
  · simp [Env.referent?, hs, hk]
  · simp [Env.referent?, hl, hb, Builtin.name_of_ofName? hb]

variable {env : Env} {cs : List Command}

theorem Env.Sees.valid (h : env.Sees ctx here) : env.Valid := fun x => (h x).2

theorem Env.Sees.cites (h : env.Sees ctx here) {t : Token} (ht : t.isIdent = true) {r : Referent}
    (hr : env.referent? t.text = some r) : Cites ctx (here.occurrences [t]) [t] [(t.span, r)] := by
  refine ⟨fun o ho => ?_, fun p => by simp [List.countP_cons]⟩
  have ho : o = ⟨t, here⟩ := by simpa [Surroundings.occurrences, ht] using ho
  subst ho
  exact ⟨r, (h t.text).1.symm.trans hr, List.mem_singleton.mpr rfl⟩

theorem AtomCode.cites {t : Token} (h : AtomCode env t cs) (hsees : env.Sees ctx here) :
    Cites ctx (here.occurrences [t]) [t] (references cs) := by
  -- what is no name has one reference at most
  have hother : t.isIdent = false → ∀ rs : List (Span × Referent), (∀ p, rs.countP (·.1 = p) ≤ [t].countP (·.span = p)) →
      Cites ctx (here.occurrences [t]) [t] rs := by
    intro hi rs hrs
    exact ⟨fun o ho => by simp [Surroundings.occurrences, hi] at ho, hrs⟩
  cases h with
  | «variable» ht hs hk ho =>
    rw [references_readVariable]
    exact hsees.cites ht (by simp [Env.referent?, hs, hk, ho])
  | function ht h => exact hsees.cites ht (Env.referent?_of_callable h)
  | text ht =>
    exact hother ht _ fun p => by simp [references, Command.referent?, Operand.global?, List.countP_cons]
  | number ht => exact hother ht _ fun p => Nat.zero_le _

theorem Surroundings.occurrences_append (here : Surroundings) (as bs : List Token) :
    here.occurrences (as ++ bs) = here.occurrences as ++ here.occurrences bs := by
  simp [occurrences]

theorem Expr.Coded.cites {e : Expr} {n : Nat} (h : e.Coded env cs n) (hsees : env.Sees ctx here) :
    Cites ctx (here.occurrences e.atoms) e.words (references cs) := by
  induction h using Expr.Coded.rec (motive_2 := fun es cs _ =>
    Cites ctx (here.occurrences (Expr.atomsAll es)) (Expr.wordsAll es) (references cs)) with
  | atom h => exact h.cites hsees
  | addressOf _ _ h ih =>
    rw [h.references_eq]
    exact ih
  | @unary op _ _ _ _ _ ih =>
    rw [references_append, references_cons_none (by cases op <;> rfl), references_nil, List.append_nil]
    exact ih
  | assign _ _ _ h ihr ihl =>
    rw [references_append, h.references_eq, Expr.atoms, Surroundings.occurrences_append]
    exact ihl.flip ihr
  | and _ _ ihl ihr =>
    rw [references_shortCircuit (.inr rfl), Expr.atoms, Surroundings.occurrences_append]
    exact ihl.append ihr
  | or _ _ ihl ihr =>
    rw [references_shortCircuit (.inl rfl), Expr.atoms, Surroundings.occurrences_append]
    exact ihl.append ihr
  | @binary op _ _ _ _ _ _ _ _ ihr ihl =>
    rw [references_append, references_append, references_cons_none (by cases op <;> rfl), references_nil, List.append_nil,
      Expr.atoms, Surroundings.occurrences_append]
    exact ihl.flip ihr
  | call ht _ hf ih =>
    rw [references_append, Expr.atoms, Surroundings.occurrences_append]
    exact (hsees.cites ht (Env.referent?_of_callable hf.callable)).flip ih
  | @index t _ _ array index _ _ ihi ihb =>
    have hrefs : references (elementAddress t.span index array ++ [{ op := .load, span := t.span }]) =
        references index ++ references array := by
      simp [elementAddress, references_cons, Command.referent?]
    rw [hrefs, Expr.atoms, Surroundings.occurrences_append]
    simpa only [Expr.words, Expr.wordsAll, Expr.atomsAll, List.append_nil] using ihb.flip ihi
  | @cast _ ty e _ _ _ ih => exact ih.sublist (List.sublist_append_right ty.words e.words)
  | nil => exact .nil _
  | cons _ _ ihes ihe =>
    rw [references_append, Expr.atomsAll, Surroundings.occurrences_append]
    exact ihe.flip ihes

theorem Expr.CodedAll.cites {es : List Expr} {p : Produced} (h : Expr.CodedAll env es p) (hsees : env.Sees ctx here) :
    Cites ctx (here.occurrences (Expr.atomsAll es)) (Expr.wordsAll es) (references p.code) := by
  induction h with
  | nil => exact .nil _
  | cons _ he ih =>
    rw [references_append, Expr.atomsAll, Surroundings.occurrences_append]
    exact (he.cites hsees).flip ih

theorem Expr.CodedStores.cites {es : List Expr} (h : Expr.CodedStores env es cs) (hsees : env.Sees ctx here) :
    Cites ctx (here.occurrences (Expr.atomsAll es)) (Expr.wordsAll es) (references cs) := by
  induction h with
  | nil => exact .nil _
  | cons he _ h _ ih =>
    rw [references_append, h.references_eq, Expr.atomsAll, Surroundings.occurrences_append]
    exact (he.cites hsees).append ih

/-! ## Environments -/

/-- `s` is what is known of the declaration `d` where code is made. -/
def SymbolInfo.IsOf (s : SymbolInfo) (d : LocalName) : Prop :=
  match d.offset? with
  | some o => s.kind = .var ∧ s.storage = some (.stack o)
  | none => s.kind = .type ∨ s.kind = .nameSpace

/-- A table has the names of a block, each with what it was declared as last. -/
def BlockAgrees (table : NameTable SymbolInfo) (block : List LocalName) : Prop :=
  ∀ x, Option.Rel SymbolInfo.IsOf (table.get? x) (block.find? fun d => d.name.text = x)

/-- The environment knows what is declared around a point of the text. -/
structure Env.Agrees (ctx : GlobalContext) (env : Env) (here : Surroundings) : Prop where
  globals : env.globals = ctx.layout.symbols ctx.scope
  excluded : env.excluded = none
  depth : env.depth = here.depth
  blocks : List.Forall₂ BlockAgrees env.blocks (here.inner :: here.outer)

theorem rel_findSome? {tables : List (NameTable SymbolInfo)} {blocks : List (List LocalName)}
    (h : List.Forall₂ BlockAgrees tables blocks) (x : String) :
    Option.Rel SymbolInfo.IsOf (tables.findSome? (NameTable.get? x))
      (blocks.findSome? fun block => block.find? fun d => d.name.text = x) := by
  induction h with
  | nil => exact .none
  | @cons table block tables blocks hblock _ ih =>
    have hrel := hblock x
    simp only [List.findSome?_cons]
    revert hrel
    cases table.get? x <;> cases block.find? _ <;> intro hrel
    · exact ih
    · cases hrel
    · cases hrel
    · exact hrel

/-- What is found in the environment is what counts in the text. -/
theorem Env.Agrees.sees {env : Env} (h : env.Agrees ctx here) (hs : ctx.Sound) : env.Sees ctx here := by
  intro x
  have hrel := rel_findSome? h.blocks x
  unfold Env.referent? Surroundings.referent? Surroundings.nearest?
  rw [Env.lookup?_eq (by simp [h.excluded]), h.globals, ctx.layout.get?_symbols]
  revert hrel
  cases env.blocks.findSome? (NameTable.get? x) with
  | none =>
    cases (here.inner :: here.outer).findSome? _ with
    | none =>
      intro _
      cases he : ctx.scope.get? x with
      | none => exact ⟨rfl, fun s hs => by cases hs⟩
      | some e =>
        refine ⟨?_, fun s hs' => ?_⟩
        · simp only [Option.map_some, Option.none_or, Entry.info, Entry.referent?]
          cases hk : e.kind <;> simp [Storage.referent, Function.comp_def]
        · obtain rfl := Option.some.inj hs'
          exact hs x e he
    | some d => exact fun hrel => by cases hrel
  | some s =>
    cases (here.inner :: here.outer).findSome? _ with
    | none => exact fun hrel => by cases hrel
    | some d =>
      intro hrel
      cases hrel with
      | some hof =>
        unfold SymbolInfo.IsOf at hof
        refine ⟨?_, fun s' hs' => ?_⟩
        · cases ho : d.offset? with
          | some o =>
            simp only [ho] at hof
            simp [hof.1, hof.2, ho, Storage.referent]
          | none =>
            simp only [ho] at hof
            rcases hof with hk | hk <;> simp [hk, ho]
        · obtain rfl := Option.some.inj hs'
          split at hof
          · rw [hof.1]
            decide
          · rcases hof with hk | hk <;> rw [hk] <;> decide

namespace Env.Agrees

variable {env : Env}

theorem openBlock (h : env.Agrees ctx here) : env.openBlock.Agrees ctx here.inside :=
  ⟨h.globals, h.excluded, h.depth, .cons (fun _ => .none) h.blocks⟩

theorem closeBlock (h : env.Agrees ctx here) (inner : Env) : (env.closeBlock inner).Agrees ctx here :=
  ⟨h.globals, h.excluded, h.depth, h.blocks⟩

theorem inLoop (h : env.Agrees ctx here) (d : Option Nat) : ({ env with loopDepth := d } : Env).Agrees ctx here :=
  ⟨h.globals, h.excluded, h.depth, h.blocks⟩

theorem alloc (h : env.Agrees ctx here) (n : Nat) : (env.alloc n).Agrees ctx { here with depth := here.depth + n } :=
  ⟨h.globals, h.excluded, congrArg (· + n) h.depth, h.blocks⟩

/-- A declaration is entered where code is made as it is in the text. -/
theorem enter (h : env.Agrees ctx here) {d : LocalName} {x : String} (hx : d.name.text = x) {info : SymbolInfo} (hd : info.IsOf d) :
    (env.enter x info).Agrees ctx { here with inner := d :: here.inner } := by
  have hblocks := h.blocks
  unfold Env.enter
  split
  next hnil =>
    rw [hnil] at hblocks
    cases hblocks
  next block outer heq =>
    rw [heq] at hblocks
    cases hblocks with
    | cons hinner houter =>
      refine ⟨h.globals, h.excluded, h.depth, .cons (fun y => ?_) houter⟩
      rw [NameTable.get?_set, List.find?_cons]
      by_cases hy : x = y
      · simp only [hy, hx, if_true, decide_true]
        exact .some hd
      · simp only [hx, hy, if_false, decide_false]
        exact hinner y

theorem withVariable (h : env.Agrees ctx here) (name : Token) {x : String} (hx : name.text = x) (n : Nat) (span : Span) (t : Ty) :
    ((env.alloc n).enter x (localVar span (env.depth + n) t)).Agrees ctx (here.withVariable name n) :=
  (h.alloc n).enter hx ⟨rfl, by rw [h.depth]; rfl⟩

theorem withName (h : env.Agrees ctx here) (name : Token) {info : SymbolInfo} (hk : info.kind = .type ∨ info.kind = .nameSpace) :
    (env.enter name.text info).Agrees ctx (here.withName name) :=
  h.enter (d := ⟨name, none⟩) rfl hk

theorem ne_nil (h : env.Agrees ctx here) : env.blocks ≠ [] := by
  intro hnil
  have hblocks := h.blocks
  rw [hnil] at hblocks
  cases hblocks

/-- The value of a variable is lowered as if the variable were not there yet. -/
theorem hide (h : env.Agrees ctx here) (hs : ctx.Sound) {name : String} (hfresh : env.Fresh name) (span : Span) (t : Ty) :
    ({ env.declared name span t with excluded := some name } : Env).Sees ctx here := by
  have hlookup : ∀ x, ({ env.declared name span t with excluded := some name } : Env).lookup? x = env.lookup? x := by
    intro x
    have hbefore : env.lookup? x = (env.blocks.findSome? (NameTable.get? x)).or (env.globals.get? x) :=
      Env.lookup?_eq (by simp [h.excluded])
    have hne : (env.alloc t.size).blocks ≠ [] := h.ne_nil
    rw [hbefore]
    exact Env.lookup?_hide hne hfresh x
  intro x
  simp only [Env.referent?, hlookup]
  exact h.sees hs x

end Env.Agrees

/-! ## Declarations -/

theorem TypeExpr.bytes_eq {t : Ty} (h : ty.describe.result.1 = .ok t) : ty.bytes = t.size := by
  simp only [TypeExpr.bytes, h]

/-- The first value of a variable is written to where the variable lies. -/
theorem Cites.first (ctx : GlobalContext) (here : Surroundings) (name : Token) (n : Nat) :
    Cites ctx [⟨name, here.withVariable name n⟩] [name] [(name.span, .frame (here.depth + n).toUInt64)] := by
  refine ⟨fun o ho => ?_, fun p => by simp [List.countP_cons]⟩
  obtain rfl := List.mem_singleton.mp ho
  refine ⟨_, ?_, List.mem_singleton.mpr rfl⟩
  simp [Surroundings.referent?, Surroundings.nearest?, Surroundings.withVariable]

theorem CodedLocals.cites {env' : Env} {names : List Token} {types : List TypeExpr} {code stores : List Command}
    (h : CodedLocals env names types env' code stores) {here : Surroundings} (ha : env.Agrees ctx here) :
    env'.Agrees ctx (here.withVariables (names.zip (types.map TypeExpr.bytes))) ∧ references code = [] ∧
      Cites ctx (here.firstValues (names.zip (types.map TypeExpr.bytes))) names (references stores) := by
  induction h generalizing here with
  | nil => exact ⟨ha, rfl, .nil _⟩
  | @cons _ _ name _ _ _ t _ _ ht _ _ ih =>
    obtain ⟨ha', hcodes, hstores⟩ := ih (ha.withVariable name rfl t.size name.span t)
    rw [List.map_cons, List.zip_cons_cons, TypeExpr.bytes_eq ht]
    refine ⟨ha', ?_, ?_⟩
    · simpa using hcodes
    · rw [references_append, references_storeLocal, ha.depth]
      exact (Cites.first ctx here name t.size).append hstores

theorem sizedNames_eq {names : List Token} {types : TypeList} {tys : List TypeExpr} (h : typesFor? names types = some tys) :
    sizedNames names types = names.zip (tys.map TypeExpr.bytes) := by
  rw [sizedNames, h]
  rfl

/-! ## Statements -/

/-- A piece of the text, lowered where `here` is around it, leads to `here'`, and its code refers to what its names stand for. -/
def Scoped (ctx : GlobalContext) (here here' : Surroundings) (os : List Occurrence) (ws : List Token) (env : Env)
    (r : Env × Code) : Prop :=
  env.Agrees ctx here → r.1.Agrees ctx here' ∧ Cites ctx os ws r.2.references

theorem Scoped.cites {os : List Occurrence} {ws : List Token} (hs : ctx.Sound)
    (h : env.Sees ctx here → Cites ctx os ws (references cs)) : Scoped ctx here here os ws env (env, .ofCommands cs) := by
  intro ha
  rw [Code.references_ofCommands]
  exact ⟨ha, h (ha.sees hs)⟩

theorem Scoped.withName {ws : List Token} (name : Token) {info : SymbolInfo} (hk : info.kind = .type ∨ info.kind = .nameSpace) :
    Scoped ctx here (here.withName name) [] ws env (env.enter name.text info, []) :=
  fun ha => ⟨ha.withName name hk, .nil _⟩

theorem Code.references_closed (code : Code) (n : Nat) (span : Span) :
    (code ++ ofCommands (freeCommands n span)).references = code.references := by
  simp

theorem Stmt.Coded.scoped (hs : ctx.Sound) {env env' : Env} {s : Stmt} {code : Code} (h : s.Coded env env' code) :
    ∀ here, Scoped ctx here (s.declared here) (s.occurrences here) s.words env (env', code) := by
  induction h using Stmt.Coded.rec
    (motive_2 := fun env s env' code _ => ∀ here, Scoped ctx here here (s.occurrences (here.branch s)) s.words env (env', code))
    (motive_3 := fun env body _ code _ => ∀ here, env.Agrees ctx here →
      Cites ctx (Stmt.occurrencesAll here body) (Stmt.wordsAll body) code.references) with
  | block _ ih =>
    intro here ha
    refine ⟨ha.closeBlock _, ?_⟩
    rw [Code.references_closed]
    exact ih _ ha.openBlock
  | ifThen hc _ ih =>
    intro here ha
    refine ⟨(ih here ha).1, ?_⟩
    rw [Code.references_ifThen]
    exact ((hc (ha.sees hs).valid).cites (ha.sees hs)).append (ih here ha).2
  | ifElse hc _ _ ihy ihn =>
    intro here ha
    obtain ⟨ha₁, hy⟩ := ihy here ha
    refine ⟨(ihn here ha₁).1, ?_⟩
    rw [Code.references_ifElse]
    exact (((hc (ha.sees hs).valid).cites (ha.sees hs)).append hy).append (ihn here ha₁).2
  | «while» hc _ ih =>
    intro here ha
    refine ⟨ha.closeBlock _, ?_⟩
    rw [Code.references_loop]
    exact ((hc (ha.sees hs).valid).cites (ha.sees hs)).append (ih here (ha.inLoop _)).2
  | «return» =>
    refine fun here => .cites hs fun _ => ?_
    rw [references_leave]
    exact .nil _
  | returnWith h =>
    refine fun here => .cites hs fun hsees => ?_
    rw [references_leave]
    exact (h hsees.valid).cites hsees
  | exit =>
    refine fun here ha => ⟨ha, ?_⟩
    rw [Code.references_append, Code.references_ofCommands, references_freeCommands]
    exact .nil _
  | expr h =>
    refine fun here => .cites hs fun hsees => ?_
    rw [references_append, references_popCommands, List.append_nil]
    exact (h hsees.valid).cites hsees
  | exprs h =>
    refine fun here => .cites hs fun hsees => ?_
    rw [references_append, references_popCommands, List.append_nil]
    exact (h hsees.valid).cites hsees
  | swap hv _ ht =>
    refine fun here => .cites hs fun hsees => ?_
    rw [references_append]
    exact ((ht hsees.valid).cites hsees).flip ((hv hsees.valid).cites hsees)
  | @declare _ name _ t ht =>
    refine fun here ha => ⟨?_, .nil _⟩
    rw [Stmt.declared, TypeExpr.bytes_eq ht]
    exact ha.withVariable name rfl t.size name.span t
  | @declareAs _ name ty t value _ ht hfresh _ hv =>
    intro here ha
    have hsees := ha.hide hs hfresh name.span t
    have hvalue := ((hv hsees.valid).cites hsees).sublist (List.sublist_append_right ty.words value.words)
    rw [Stmt.declared, Stmt.occurrences, TypeExpr.bytes_eq ht]
    refine ⟨ha.withVariable name rfl t.size name.span t, ?_⟩
    rw [Code.references_ofCommands, references_append, references_append, references_allocCommand, references_nil,
      List.nil_append, references_storeLocal, ha.depth]
    exact (Cites.first ctx here name t.size).flip hvalue
  | @declareMany _ _ _ names types _ _ _ htys h =>
    intro here ha
    obtain ⟨ha', hcode, -⟩ := h.cites ha
    rw [Stmt.declared, sizedNames_eq htys]
    refine ⟨ha', ?_⟩
    rw [Code.references_ofCommands, hcode]
    exact .nil _
  | @declareManyAs _ _ _ names types values _ _ _ _ htys h hv =>
    intro here ha
    obtain ⟨ha', hcode, hstores⟩ := h.cites ha
    have hsees := ha'.sees hs
    rw [Stmt.declared, Stmt.occurrences, sizedNames_eq htys]
    refine ⟨ha', ?_⟩
    rw [Code.references_ofCommands, references_append, references_append, hcode, List.nil_append]
    refine (hstores.flip ((hv hsees.valid).cites hsees)).sublist ?_
    rw [Stmt.words, List.append_assoc]
    exact (List.sublist_append_right _ _).append_left _
  | record | enumeration => exact fun here => .withName _ (.inl rfl)
  | use hn =>
    intro here
    rw [Stmt.declared, hn]
    exact .withName _ (.inr rfl)
  | useNothing hn =>
    intro here
    rw [Stmt.declared, hn]
    exact fun ha => ⟨ha, .nil _⟩
  | @braced _ _ s _ hblock _ ih here =>
    have hdeclared : s.declared here = here := by
      cases s <;> first | rfl | cases hblock
    have hscoped := ih here
    rw [hdeclared] at hscoped
    rwa [show here.branch s = here from if_pos hblock]
  | @bare _ _ s _ hblock _ ih here =>
    intro ha
    refine ⟨ha.closeBlock _, ?_⟩
    rw [show here.branch s = here.inside from if_neg (by simp [hblock]), Code.references_closed]
    exact (ih _ ha.openBlock).2
  | nil => exact .nil _
  | cons _ _ ih ihs here ha =>
    rw [Code.references_append]
    exact (ih here ha).2.append (ihs _ (ih here ha).1)

theorem Stmt.CodedAll.cites (hs : ctx.Sound) {env env' : Env} {body : List Stmt} {code : Code}
    (h : Stmt.CodedAll env body env' code) {here : Surroundings} (ha : env.Agrees ctx here) :
    Cites ctx (Stmt.occurrencesAll here body) (Stmt.wordsAll body) code.references := by
  induction body generalizing env here code with
  | nil =>
    cases h
    exact .nil _
  | cons s body ih =>
    cases h with
    | cons h hrest =>
      obtain ⟨ha', hfirst⟩ := h.scoped hs here ha
      rw [Code.references_append]
      exact hfirst.append (ih hrest ha')

/-! ## Functions -/

theorem accepted_cites_params (ctx : GlobalContext) {ps : List (Parameter × Token)} (hps : ∀ p ∈ ps, p.1.name = p.2.text)
    (here : Surroundings) (env : Env) : Ensures accepted (lowerParams env ps) fun r => env.Agrees ctx here →
      r.1.Agrees ctx (here.withVariables (ps.map fun p => (p.2, Ty.slotSize))) ∧
        Cites ctx (here.firstValues (ps.map fun p => (p.2, Ty.slotSize))) (ps.map (·.2)) (references r.2) := by
  induction ps generalizing env here with
  | nil => exact .pure fun ha => ⟨ha, .nil _⟩
  | cons p ps ih =>
    obtain ⟨hp, hps⟩ := List.forall_mem_cons.mp hps
    refine (accepted_declare _ _ _).bind fun env' => (ih hps (here.withVariable p.2 Ty.slotSize) env').bind fun ⟨_, codes⟩ =>
      .pure fun hrest hd ha => ?_
    have hfirst := ha.withVariable p.2 hp.symm Ty.slotSize p.2.span p.1.type.asArgument
    rw [hd.1] at hrest
    obtain ⟨ha', hcodes⟩ := hrest hfirst
    refine ⟨ha', ?_⟩
    have hdepth : (env.alloc Ty.slotSize).depth = here.depth + Ty.slotSize := (ha.alloc Ty.slotSize).depth
    rw [references_append, references_allocCommand, references_storeLocal, hdepth]
    exact (Cites.first ctx here p.2 Ty.slotSize).append hcodes

theorem Param.WholeAll.sublist_words {ps : List Param} (h : Param.WholeAll ps) :
    (ps.map Param.token).Sublist (Param.wordsAll ps) := by
  induction ps with
  | nil => exact .slnil
  | cons p ps ih =>
    cases h with
    | cons hp hps =>
      cases hp with
      | @named t ty _ => exact ((ih hps).trans (List.sublist_append_right ty.words _)).cons_cons t

theorem TypeExpr.Whole.sublist_params (h : ty.Whole) : ty.paramTokens.Sublist ty.words := by
  cases h with
  | function hps => exact hps.sublist_words
  | functionTo hps _ => exact hps.sublist_words.trans (List.sublist_append_left ..)
  | _ => exact List.nil_sublist _

theorem Function.commands_emitAll {f : Function} (hf : f.code = #[]) (cs : List Command) :
    (f.emitAll cs).code.toList.map Instr.toCommand = cs := by
  rw [Function.emitAll_eq, hf]
  apply List.ext_getElem?
  intro i
  simp only [Array.empty_append, List.getElem?_map, List.getElem?_mapIdx, Option.map_map, Function.comp_def, Option.map_id']

theorem Signature.WrittenAs.names {s : Signature} (h : s.WrittenAs ty) :
    ∀ p ∈ s.params.zip ty.paramTokens, p.1.name = p.2.text := by
  have heq : List.Forall₂ Eq (s.params.map Parameter.name) (ty.paramTokens.map Token.text) := by
    rw [List.forall₂_eq_eq_eq]
    exact h.params
  rw [List.forall₂_map_left_iff, List.forall₂_map_right_iff] at heq
  exact fun p hp => (List.forall₂_iff_zip.mp heq).2 hp

theorem Env.agrees_ofFunction (ctx : GlobalContext) (function : String) (returns : Nat) :
    (Env.ofFunction (ctx.layout.symbols ctx.scope) function returns).Agrees ctx .start :=
  ⟨rfl, rfl, rfl, .cons (fun _ => .none) .nil⟩

/-- The code of a function refers, in the place of each name, to what the name stands for. -/
theorem accepted_cites_function (hs : ctx.Sound) (name brace : Token)
    {signature : Signature} (hsig : signature.WrittenAs ty) (hty : ty.Whole) {body : List Stmt} (hb : Stmt.WholeAll body) :
    Ensures accepted (lowerFunction (ctx.layout.symbols ctx.scope) name signature ty.paramTokens brace body) fun f =>
      f.name = name.text ∧ Cites ctx (functionOccurrences ty body) (Stmt.define name ty brace body).words
        (references (f.code.toList.map Instr.toCommand)) := by
  have hparams : (signature.params.zip ty.paramTokens).map (·.2) = ty.paramTokens :=
    List.map_snd_zip (Nat.le_of_eq hsig.length)
  have hsized : (signature.params.zip ty.paramTokens).map (fun p => (p.2, Ty.slotSize)) = ty.sizedParams := by
    rw [TypeExpr.sizedParams]
    nth_rewrite 2 [← hparams]
    rw [List.map_map]
    rfl
  unfold lowerFunction
  dsimp only
  split
  · exact (ensures_report _).bind fun _ => (accepted_cites_params ctx hsig.names .start _).bind fun _ =>
      (hb.accepted_coded _).bind fun _ => .pure fun _ _ h => by cases h
  · refine (accepted_cites_params ctx hsig.names .start _).bind fun r => ?_
    obtain ⟨env₁, spill⟩ := r
    refine (hb.accepted_coded _).bind fun r => ?_
    obtain ⟨inner, code⟩ := r
    refine .pure fun hbody hparam => ?_
    obtain ⟨ha₁, hspill⟩ := hparam (Env.agrees_ofFunction ..)
    rw [hsized] at ha₁ hspill
    rw [hparams] at hspill
    refine ⟨by simp, ?_⟩
    rw [Function.commands_emitAll rfl, List.cons_append, List.cons_append, references_cons_none rfl, references_append,
      references_append, references_functionEnd, List.append_nil]
    have hclosed : references (env₁.close inner code (Stmt.block brace body).span).2.commands = code.references :=
      Code.references_closed code _ _
    rw [hclosed]
    refine (hspill.append (hbody.cites hs ha₁.openBlock)).sublist ?_
    exact (hty.sublist_params.append_right _).trans (List.sublist_cons_self name _)

end

/-! ## Programs -/

section

variable {items : List Stmt} {scope : Scope} (hs : ∀ p ∈ scope, p.2.OK items p.1)

/-- What a function refers to, in the words of the item that it comes from. -/
def Function.CitesItem (items : List Stmt) (scope : Scope) (f : Function) : Prop :=
  ∃ e, scope.get? f.name = some e ∧ ∀ name ty brace body, items[e.root]? = some (.define name ty brace body) →
    Cites (.ofItems items scope) (functionOccurrences ty body) (Stmt.define name ty brace body).words
      (references (f.code.toList.map Instr.toCommand))

include hs

theorem accepted_cites_item {root : Nat} {item : Stmt} (hroot : items[root]? = some item) (hw : item.Whole) :
    Ensures accepted (lowerItem (.ofItems items scope) root item) fun f? => ∀ f ∈ f?, f.CitesItem items scope := by
  have hsound : (GlobalContext.ofItems items scope).Sound := fun x e he => (hs _ (NameTable.mem_of_get? he)).kind
  unfold lowerItem
  cases hw with
  | @define name brace ty body hty hb =>
    dsimp only
    split
    next sig hfor =>
      obtain ⟨e, he, hk, hr, -⟩ := of_signatureFor? hfor
      obtain ⟨t, sig', -, hfor', ⟨_, _, _, heq, hsig⟩ | ⟨_, heq⟩⟩ := item_of_func hs hroot he hk hr
      · cases heq
        cases hfor.symm.trans hfor'
        refine (accepted_cites_function hsound name brace hsig hty hb).bind fun f => .pure fun ⟨hname, hf⟩ f' hf' => ?_
        obtain rfl := Option.some.inj hf'
        refine ⟨e, hname ▸ he, fun name' ty' brace' body' hitem => ?_⟩
        rw [hr, hroot] at hitem
        cases hitem
        exact hf
      · cases heq
    · exact .pure fun f hf => by cases hf
  | @external name ty =>
    dsimp only
    split
    next sig hfor =>
      obtain ⟨e, he, -, hr, -⟩ := of_signatureFor? hfor
      refine .pure fun f hf => ?_
      obtain rfl := Option.some.inj hf
      refine ⟨e, he, fun name' ty' brace' body' hitem => ?_⟩
      rw [hr, hroot] at hitem
      cases hitem
    · exact .pure fun f hf => by cases hf
  | _ => exact .pure fun f hf => by cases hf

end

/-! ## Source texts -/

theorem Stmt.sublist_wordsAll {s : Stmt} {ss : List Stmt} (h : s ∈ ss) : s.words.Sublist (Stmt.wordsAll ss) := by
  induction ss with
  | nil => cases h
  | cons s' ss ih =>
    rcases List.mem_cons.mp h with rfl | h
    · exact List.sublist_append_left _ _
    · exact (ih h).trans (List.sublist_append_right _ _)

/-- No two words of a text without errors stand in the same place. -/
theorem countP_words_le {source : String} (h : (parse source).errors = []) {item : Stmt}
    (hitem : item ∈ (parse source).roots) (p : Span) : item.words.countP (·.span = p) ≤ 1 := by
  have hsub : item.words.Sublist (scan source).tokens := by
    refine (Stmt.sublist_wordsAll hitem).trans ?_
    rw [words_parse h]
    exact List.filter_sublist
  have hnodup : ((scan source).tokens.map Token.span).Nodup := by
    refine List.pairwise_map.mpr ((starts_scan source).imp fun hlt heq => ?_)
    rw [heq] at hlt
    exact Nat.lt_irrefl _ hlt
  have hcount : ((scan source).tokens.map Token.span).count p ≤ 1 := List.nodup_iff_count_le_one.mp hnodup p
  rw [List.count, List.countP_map] at hcount
  refine Nat.le_trans (hsub.countP_le) (Nat.le_trans (Nat.le_of_eq ?_) hcount)
  exact List.countP_congr fun t _ => by simp

theorem referents_eq_singleton {p : Span} {r : Referent} {rs : List (Span × Referent)} (hmem : (p, r) ∈ rs)
    (honce : rs.countP (·.1 = p) ≤ 1) : (rs.filter (·.1 = p)).map (·.2) = [r] := by
  have hmem' : (p, r) ∈ rs.filter (·.1 = p) := List.mem_filter.mpr ⟨hmem, by simp⟩
  rw [List.countP_eq_length_filter] at honce
  obtain ⟨a, ha⟩ := List.length_eq_one_iff.mp (Nat.le_antisymm honce (List.length_pos_of_mem hmem'))
  rw [ha] at hmem' ⊢
  rw [← List.mem_singleton.mp hmem']
  rfl

/-- What a name in a text stands for. -/
def Occurrence.referentIn? (source : String) (o : Occurrence) : Option Referent :=
  o.here.referent? (.ofItems (parse source).roots (Scope.ofItems (parse source).roots).scope) o.name.text

/-- **Names stand for what is declared nearest.** Let a function be defined in a text that compiles. Then the program has
this function, made from that definition or, if the text has the definition more than once, from another one that is
spelled the same. For each name in it there is just one reference in the code of the function, and it is to what the
name stands for where it is written: to what was declared last in the innermost block that declares the name, or else to
the parameter, the global or the builtin. -/
theorem names_resolved_lexically {file source : String} {c : Compilation} (h : compile file source = .ok c)
    {name brace : Token} {ty : TypeExpr} {body : List Stmt} (hitem : Stmt.define name ty brace body ∈ (parse source).roots) :
    ∃ f name' brace' ty' body', c.program.function? name.text = some f ∧
      Stmt.define name' ty' brace' body' ∈ (parse source).roots ∧
      (Stmt.define name' ty' brace' body').same (.define name ty brace body) = true ∧
      (∀ t ∈ Stmt.atomsAll body', t.isIdent = true → t ∈ (functionOccurrences ty' body').map Occurrence.name) ∧
      ∀ o ∈ functionOccurrences ty' body', ∃ r, o.referentIn? source = some r ∧ f.referencesAt o.name.span = [r] := by
  obtain ⟨hprogram, hparse, hscope, hcode⟩ := of_compile h
  have hwhole := whole_of_parse hparse
  have hs := entries_ok hwhole hscope
  obtain ⟨e, name', ty', brace', body', he, hk, hroot, hsame⟩ := entry_of_define hwhole hscope hitem
  have hmem : Stmt.define name' ty' brace' body' ∈ (parse source).roots := List.mem_of_getElem? hroot
  obtain ⟨f, hf⟩ := Option.isSome_iff_exists.mp (((functions_ofItems hwhole hs hcode).2.2 name.text).mpr ⟨e, he, hk⟩)
  obtain ⟨-, fs, hcites, -, hfun⟩ := of_parts (W := accepted) trivial hcode (ensures_height_initItems hs hwhole 0 _)
    (ensures_items fun i item hi =>
      accepted_cites_item hs (by rwa [Nat.zero_add]) (hwhole.get item (List.mem_of_getElem? hi)))
  have hfind := (hfun name.text).symm.trans hf
  obtain ⟨e', he', hitems⟩ := hcites f (List.mem_reverse.mp (List.mem_of_find?_eq_some hfind))
  have hname := List.find?_some hfind
  rw [beq_iff_eq] at hname
  rw [hname, he] at he'
  cases he'
  have hcited := hitems name' ty' brace' body' hroot
  refine ⟨f, name', brace', ty', body', hprogram ▸ hf, hmem, hsame, fun t ht hi => ?_, fun o ho => ?_⟩
  · rw [functionOccurrences, List.map_append]
    exact List.mem_append_right _ (Stmt.occurrences_complete_all hi body' _ ht)
  · obtain ⟨r, hr, hin⟩ := hcited.found o ho
    refine ⟨r, hr, referents_eq_singleton hin ?_⟩
    exact Nat.le_trans (hcited.once _) (countP_words_le hparse hmem _)

/-- The names in the definition of a function, each with what it stands for. -/
def Stmt.referentsIn (source : String) : Stmt → List (String × Option Referent)
  | .define _ ty _ body => (functionOccurrences ty body).map fun o => (o.name.text, o.referentIn? source)
  | _ => []

/-- A text in which names are hidden in a body, in a loop and in branches without braces, and come back. -/
def shadowingSource : String :=
  "y : u64; f : (x : u64, n : u64) = \x7b x : u64 = x + y; while n \x7b f : u64 = x; x : u64 = f; break; \x7d
    if n y : u64 = y; else n, y : u64 = y, n; f(x, y); putchar(n); \x7d"

/-- What the names of its function stand for, from the parameters on. -/
def shadowingReferents : List (String × Option Referent) :=
  [("x", some (.frame 8)), ("n", some (.frame 16)),
    ("x", some (.frame 24)), ("x", some (.frame 8)), ("y", some (.static 0)),
    ("n", some (.frame 16)), ("f", some (.frame 32)), ("x", some (.frame 24)), ("x", some (.frame 40)), ("f", some (.frame 32)),
    ("n", some (.frame 16)), ("y", some (.frame 32)), ("y", some (.static 0)),
    ("n", some (.frame 32)), ("y", some (.frame 40)), ("y", some (.frame 40)), ("n", some (.frame 32)),
    ("f", some (.label "f")), ("x", some (.frame 24)), ("y", some (.static 0)),
    ("putchar", some (.label "putchar")), ("n", some (.frame 16))]

theorem names_resolved_lexically_shadowing :
    ∃ c name ty brace body, compile "" shadowingSource = .ok c ∧
      Stmt.define name ty brace body ∈ (parse shadowingSource).roots ∧
      (Stmt.define name ty brace body).referentsIn shadowingSource = shadowingReferents ∧
      ∃ f name' brace' ty' body', c.program.function? name.text = some f ∧
        Stmt.define name' ty' brace' body' ∈ (parse shadowingSource).roots ∧
        (Stmt.define name' ty' brace' body').same (.define name ty brace body) = true ∧
        (∀ t ∈ Stmt.atomsAll body', t.isIdent = true → t ∈ (functionOccurrences ty' body').map Occurrence.name) ∧
        ∀ o ∈ functionOccurrences ty' body', ∃ r,
          o.referentIn? shadowingSource = some r ∧ f.referencesAt o.name.span = [r] := by
  have hrun : (SourceUnit.ofSource shadowingSource).errors.any CompileError.isFatal = false ∧
      ∃ item ∈ (parse shadowingSource).roots, item.referentsIn shadowingSource = shadowingReferents := by
    decide +kernel
  obtain ⟨hfatal, item, hmem, hreferents⟩ := hrun
  obtain ⟨c, hc, -⟩ := compile_of_errors "" hfatal
  cases item with
  | define name ty brace body =>
    exact ⟨c, name, ty, brace, body, hc, hmem, hreferents, names_resolved_lexically hc hmem⟩
  | _ => cases hreferents

end Wordstack
