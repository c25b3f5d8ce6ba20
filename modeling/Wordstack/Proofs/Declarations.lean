/-
What the items of a program declare, and what they do to a scope, one action after the
other. The actions of an item depend on nothing but the item, so that those of a list of
items in another order are the same actions in another order.
-/
import Wordstack.Proofs.TypeFacts
import Wordstack.Scope.Survey

namespace Wordstack

variable {refs : TypeRefs} {t : Ty} {ty : TypeExpr}

/-! ## What items declare -/

/-- The names that an item declares. -/
def Stmt.declaredNames (item : Stmt) : List String :=
  match item with
  | .record _ name _ | .enumeration name _ | .declare name _ | .declareAs name _ _ | .define name _ _ _
  | .external name _ => [name.text]
  | .use _ path alias? =>
    if item.isError then [] else ((alias?.or path.getLast?).map (·.token.text)).toList
  | .declareMany _ names _ | .declareManyAs _ names _ _ => names.map (·.text)
  | _ => []

/-- The name of a structure, a union or an enumeration. -/
def Stmt.typeName? : Stmt → Option String
  | .record _ name _ | .enumeration name _ => some name.text
  | _ => none

/-- The names that a declaration gives types to. One type may stand for all names. -/
def Stmt.typed : Stmt → List (Token × TypeExpr)
  | .declare name ty | .declareAs name ty _ | .define name ty _ _ | .external name ty => [(name, ty)]
  | .declareMany _ names types | .declareManyAs _ names types _ =>
    match types.items with
    | [ty] => names.map (·, ty)
    | tys => if tys.length = names.length then names.zip tys else []
  | _ => []

/-- Whether the type of a declaration is broken in its form. -/
def Stmt.isBroken : Stmt → Bool
  | .declare _ ty | .declareAs _ ty _ | .define _ ty _ _ | .external _ ty => ty.isError
  | .declareMany _ _ types | .declareManyAs _ _ types _ => types.isError
  | _ => false

/-- Whether what a declaration gives as a value goes with its type: functions take a block, and nothing
else does. What is defined elsewhere is a function. -/
def Stmt.isAdmissible : Stmt → Bool
  | .declareAs _ ty _ => !ty.isFunction
  | .define _ ty _ _ | .external _ ty => ty.isFunction
  | _ => true

mutual

/-- The names of types that stand in a type expression. -/
def TypeExpr.mentions : TypeExpr → List String
  | .missing _ => []
  | .name t =>
    match t.kind with
    | .primitive _ => []
    | _ => [t.text]
  | .pointer _ ty | .openArray _ ty | .array _ _ ty => ty.mentions
  | .function _ params => Param.mentionsAll params
  | .functionTo _ params _ returns => Param.mentionsAll params ++ TypeExpr.mentionsAll returns

def TypeExpr.mentionsAll : List TypeExpr → List String
  | [] => []
  | ty :: tys => ty.mentions ++ TypeExpr.mentionsAll tys

def Param.mentions : Param → List String
  | .missing _ => []
  | .named _ ty => ty.mentions

def Param.mentionsAll : List Param → List String
  | [] => []
  | p :: ps => p.mentions ++ Param.mentionsAll ps

end

mutual

/-- The names of types that a type is made of. -/
def BaseType.mentions : BaseType → List String
  | .primitive _ => []
  | .named name => [name]
  | .function s => s.mentions

def Ty.mentions : Ty → List String
  | ⟨base, _, _⟩ => base.mentions

def Signature.mentions : Signature → List String
  | ⟨params, returns, _⟩ => Parameter.mentionsAll params ++ Ty.mentionsAll returns

def Parameter.mentions : Parameter → List String
  | ⟨_, type⟩ => type.mentions

def Parameter.mentionsAll : List Parameter → List String
  | [] => []
  | p :: ps => p.mentions ++ Parameter.mentionsAll ps

def Ty.mentionsAll : List Ty → List String
  | [] => []
  | t :: ts => t.mentions ++ Ty.mentionsAll ts

end

def SymbolData.mentions : SymbolData → List String
  | .var t => t.mentions
  | .func s => s.mentions
  | .none | .nameSpace _ => []

/-- Functions that agree mention the same types. -/
theorem Signature.mentions_of_agrees {s s' : Signature} (h : s.agrees s' = true) : s.mentions = s'.mentions := by
  obtain ⟨ps, rs, _⟩ := s
  obtain ⟨qs, _, _⟩ := s'
  obtain ⟨rfl, hparams⟩ : rs = _ ∧ ps.map (·.type) = qs.map (·.type) := by simpa [Signature.agrees] using h
  have hall : ∀ ps : List Parameter, Parameter.mentionsAll ps = Ty.mentionsAll (ps.map (·.type)) := by
    intro ps
    induction ps with
    | nil => rfl
    | cons p ps ih =>
      rw [Parameter.mentionsAll, ih]
      cases p
      rfl
  rw [Signature.mentions, Signature.mentions, hall, hall, hparams]

/-! ## Types and the names in them -/

/-- A description that succeeds has collected these names, which are those that `m` finds in the result. -/
def Describe.Collects {α : Type} (m : α → List String) (d : Describe α) (names : List String) : Prop :=
  ∀ refs a refs', d refs = (.ok a, refs') → refs'.map (·.1) = refs.map (·.1) ++ names ∧ m a = names

namespace Describe.Collects

variable {α β γ : Type} {m : α → List String} {m' : β → List String} {d : Describe α} {f : α → Describe β}
  {names names' : List String}

theorem pure {a : α} (h : m a = []) : Collects m (Pure.pure a) [] := by
  intro refs a' refs' heq
  cases heq
  simp [h]

theorem throw (e : ScopeError) : Collects m (throw e : Describe α) names := by
  intro refs a refs' h
  cases h

/-- Nothing more is collected. -/
theorem andThen (hd : Collects m d names)
    (hf : ∀ a refs b refs', f a refs = (.ok b, refs') → refs' = refs ∧ m' b = m a) : Collects m' (d >>= f) names := by
  intro refs b refs' h
  obtain ⟨a, _, hd', hf'⟩ := Describe.of_bind h
  obtain ⟨hrefs, ha⟩ := hd _ _ _ hd'
  obtain ⟨rfl, hb⟩ := hf _ _ _ _ hf'
  exact ⟨hrefs, hb.trans ha⟩

theorem map (hd : Collects m d names) {g : α → β} (hg : ∀ a, m' (g a) = m a) :
    Collects m' (d >>= fun a => Pure.pure (g a)) names :=
  hd.andThen fun a _ _ _ h => by cases h; exact ⟨rfl, hg a⟩

theorem both (hd : Collects m d names) {d' : Describe β} (hd' : Collects m' d' names') {m'' : γ → List String} {g : α → β → γ}
    (hg : ∀ a b, m'' (g a b) = m a ++ m' b) :
    Collects m'' (d >>= fun a => d' >>= fun b => Pure.pure (g a b)) (names ++ names') := by
  intro refs c refs' h
  obtain ⟨a, _, hfirst, h⟩ := Describe.of_bind h
  obtain ⟨b, _, hlast, h⟩ := Describe.of_bind h
  cases h
  obtain ⟨hrefs, ha⟩ := hd _ _ _ hfirst
  obtain ⟨hrefs', hb⟩ := hd' _ _ _ hlast
  exact ⟨by rw [hrefs', hrefs, List.append_assoc], by rw [hg, ha, hb]⟩

end Describe.Collects

mutual

theorem TypeExpr.collects : ∀ ty : TypeExpr, Describe.Collects Ty.mentions ty.describe ty.mentions
  | .missing _ => .throw _
  | .name t => by
    unfold TypeExpr.describe TypeExpr.mentions
    cases t.kind
    case primitive p => exact .pure rfl
    all_goals
      intro refs a refs' h
      cases h
      exact ⟨List.map_append, rfl⟩
  | .pointer _ target => target.collects.map fun t => by cases t; rfl
  | .openArray _ element => element.collects.map fun t => by cases t; rfl
  | .array _ length element => element.collects.andThen fun el refs b refs' h => by
    cases hlength : length.arrayLength? with
    | none =>
      rw [hlength] at h
      cases h
    | some n =>
      simp only [hlength] at h
      split at h
      · cases h
        exact ⟨rfl, by cases el; rfl⟩
      · cases h
  | .function _ params => (Param.collects_all params).map fun _ => List.append_nil _
  | .functionTo _ params _ returns => (Param.collects_all params).both (TypeExpr.collects_all returns) fun _ _ => rfl

theorem TypeExpr.collects_all : ∀ tys : List TypeExpr,
    Describe.Collects Ty.mentionsAll (TypeExpr.describeAll tys) (TypeExpr.mentionsAll tys)
  | [] => .pure rfl
  | ty :: tys => ty.collects.both (TypeExpr.collects_all tys) fun _ _ => rfl

theorem Param.collects : ∀ p : Param, Describe.Collects Parameter.mentions p.describe p.mentions
  | .missing _ => .throw _
  | .named _ ty => ty.collects.map fun _ => rfl

theorem Param.collects_all : ∀ ps : List Param,
    Describe.Collects Parameter.mentionsAll (Param.describeAll ps) (Param.mentionsAll ps)
  | [] => .pure rfl
  | p :: ps => p.collects.both (Param.collects_all ps) fun _ _ => rfl

end

theorem TypeExpr.map_fst_describe (h : ty.describe.result = (.ok t, refs)) :
    refs.map (·.1) = ty.mentions ∧ t.mentions = ty.mentions := ty.collects [] t refs h

theorem TypeExpr.map_fst_describeSignature {s : Signature}
    (h : ty.describeSignature.result = (.ok s, refs)) : refs.map (·.1) = ty.mentions ∧ s.mentions = ty.mentions := by
  have hcollects : Describe.Collects Signature.mentions ty.describeSignature ty.mentions := by
    unfold TypeExpr.describeSignature
    split
    · refine ty.collects.andThen fun t refs b refs' h => ?_
      obtain ⟨base, _, _⟩ := t
      cases base with
      | function s =>
        cases h
        exact ⟨rfl, rfl⟩
      | _ => cases h
    · exact .throw _
  exact hcollects [] s refs h

/-- A function type that can be described has a signature. -/
theorem TypeExpr.describeSignature_of_describe (hf : ty.isFunction = true)
    (h : ty.describe.result = (.ok t, refs)) : ∃ s, ty.describeSignature.result = (.ok s, refs) := by
  have hbind : ∀ f : Ty → Describe Signature, (ty.describe >>= f) [] = f t refs := fun f => by
    have hd : (ty.describe >>= f) [] = ExceptT.bindCont f (ty.describe []).1 (ty.describe []).2 := rfl
    rw [hd, show ty.describe [] = (.ok t, refs) from h]
    rfl
  have hbase : ∃ s, t.base = .function s := by
    cases ty with
    | function _ params =>
      obtain ⟨_, _, _, h⟩ := Describe.of_bind h
      cases h
      exact ⟨_, rfl⟩
    | functionTo _ params _ returns =>
      obtain ⟨_, _, _, h⟩ := Describe.of_bind h
      obtain ⟨_, _, _, h⟩ := Describe.of_bind h
      cases h
      exact ⟨_, rfl⟩
    | _ => cases hf
  obtain ⟨s, hs⟩ := hbase
  refine ⟨s, ?_⟩
  show ty.describeSignature [] = _
  unfold TypeExpr.describeSignature
  rw [if_pos hf, hbind, hs]
  rfl

/-! ## What items do to a scope -/

/-- One thing that an item does to a scope. -/
inductive Action
  | report (e : ScopeError)
  | enter (name : Token) (kind : SymbolKind) (data : SymbolData) (refs : TypeRefs)

namespace Action

def name? : Action → Option String
  | .enter name _ _ _ => some name.text
  | .report _ => none

/-- What the action of an item does. -/
def run (root : Nat) (item : Stmt) (s : Survey) : Action → Survey
  | .report e => s.report [e]
  | .enter name kind data refs => s.declareWith name.text { kind, root, item, span := name.span, data } refs

/-- Enters a name of which nothing is known. -/
def fail (name : Token) : Action := .enter name .error .none []

/-- The actions for a name with the type of a variable. -/
def varOf (name : Token) (ty : TypeExpr) : List Action :=
  match ty.describe.result with
  | (.error e, _) => [.report e, fail name]
  | (.ok type, refs) => [.enter name .var (.var type) refs]

def single (item : Stmt) (name : Token) (ty : TypeExpr) : List Action :=
  if ty.isError then [fail name]
  else if ty.isFunction then
    match ty.describeSignature.result with
    | (.error e, _) => [.report e, fail name]
    | (.ok signature, refs) =>
      (Survey.functionKind name item).2.map .report ++
        [.enter name (Survey.functionKind name item).1 (.func signature) refs]
  else (Survey.variableErrors name item).map .report ++ varOf name ty

def external (name : Token) (ty : TypeExpr) : List Action :=
  if ty.isError then [fail name]
  else if ty.isFunction then
    match ty.describeSignature.result with
    | (.error e, _) => [.report e, fail name]
    | (.ok signature, refs) => [.enter name .func (.func { signature with external := true }) refs]
  else [.report (.externalNotFunction name.text ty.span), fail name]

def each (names : List Token) (types : List TypeExpr) : List Action :=
  (names.zip types).flatMap fun p => varOf p.1 p.2

def shared (names : List Token) (ty : TypeExpr) : List Action :=
  match ty.describe.result with
  | (.error e, _) => (if names.isEmpty then [] else [.report e]) ++ names.map fail
  | (.ok type, refs) => names.map (.enter · .var (.var type) refs)

def many (names : List Token) (types : TypeList) : List Action :=
  if types.isError then names.map fail
  else
    match types.items with
    | [ty] => shared names ty
    | tys =>
      if tys.length = names.length then each names tys
      else .report (.typeCount names.length tys.length types.span) :: names.map fail

end Action

/-- The actions of an item. They depend neither on its position nor on what stands around it. -/
def Stmt.actions (item : Stmt) : List Action :=
  match item with
  | .record _ name _ | .enumeration name _ => [.enter name .type .none []]
  | .use _ path alias? =>
    if item.isError then []
    else
      match alias?.or path.getLast? with
      | none => []
      | some n => [.enter n.token .nameSpace (.nameSpace (path.map (·.token.text))) []]
  | .declare name ty | .declareAs name ty _ | .define name ty _ _ => Action.single item name ty
  | .external name ty => Action.external name ty
  | .declareMany _ names types | .declareManyAs _ names types _ => Action.many names types
  | _ => []

namespace Survey

@[simp] theorem report_nil (s : Survey) : s.report [] = s := by
  simp [report]

theorem declareWith_nil (s : Survey) (name : String) (e : Entry) : s.declareWith name e [] = s.declare name e := by
  show (s.report []).declare name e = _
  rw [report_nil]

variable (s : Survey) (root : Nat) (item : Stmt)

theorem declareError_eq (name : Token) : s.declareError root item name = Action.run root item s (.fail name) :=
  (declareWith_nil ..).symm

theorem foldl_report (errors : List ScopeError) :
    (errors.map Action.report).foldl (Action.run root item) s = s.report errors := by
  induction errors generalizing s with
  | nil => exact (report_nil s).symm
  | cons e errors ih =>
    rw [List.map_cons, List.foldl_cons, ih]
    simp [Action.run, report]

theorem foldl_declareError (names : List Token) :
    names.foldl (declareError · root item) s = (names.map Action.fail).foldl (Action.run root item) s := by
  induction names generalizing s with
  | nil => rfl
  | cons name names ih =>
    rw [List.foldl_cons, ih, declareError_eq]
    rfl

theorem declareSingle_eq (name : Token) (ty : TypeExpr) :
    s.declareSingle root item name ty = (Action.single item name ty).foldl (Action.run root item) s := by
  unfold declareSingle Action.single
  split
  · exact declareError_eq ..
  split
  · rcases ty.describeSignature.result with ⟨e | signature, refs⟩
    · exact declareError_eq ..
    · dsimp only
      rw [List.foldl_append, foldl_report]
      rfl
  · rw [List.foldl_append, foldl_report, Action.varOf]
    rcases ty.describe.result with ⟨e | type, refs⟩
    · exact declareError_eq ..
    · rfl

theorem declareExternal_eq (name : Token) (ty : TypeExpr) :
    s.declareExternal root item name ty = (Action.external name ty).foldl (Action.run root item) s := by
  unfold declareExternal Action.external
  split
  · exact declareError_eq ..
  split
  · rcases ty.describeSignature.result with ⟨e | signature, refs⟩
    · exact declareError_eq ..
    · rfl
  · exact declareError_eq ..

theorem declareEach_eq (names : List Token) (types : List TypeExpr) :
    s.declareEach root item names types = (Action.each names types).foldl (Action.run root item) s := by
  induction names generalizing s types with
  | nil => rfl
  | cons name names ih =>
    cases types with
    | nil => rfl
    | cons ty types =>
      unfold declareEach
      dsimp only
      rw [ih, show Action.each (name :: names) (ty :: types) = Action.varOf name ty ++ Action.each names types from rfl,
        List.foldl_append, Action.varOf]
      congr 1
      rcases ty.describe.result with ⟨e | type, refs⟩
      · exact declareError_eq ..
      · rfl

theorem declareShared_eq (names : List Token) (ty : TypeExpr) :
    s.declareShared root item names ty = (Action.shared names ty).foldl (Action.run root item) s := by
  unfold declareShared Action.shared
  rcases ty.describe.result with ⟨e | type, refs⟩
  · dsimp only
    rw [List.foldl_append, foldl_declareError]
    split <;> rfl
  · dsimp only
    rw [List.foldl_map]
    rfl

theorem declareMany_eq (names : List Token) (types : TypeList) :
    s.declareMany root item names types = (Action.many names types).foldl (Action.run root item) s := by
  unfold declareMany Action.many
  split
  · exact foldl_declareError ..
  obtain ⟨start, tys⟩ := types
  rcases tys with _ | ⟨ty, _ | ⟨ty', tys⟩⟩
  · dsimp only
    split
    · exact declareEach_eq ..
    · exact foldl_declareError ..
  · exact declareShared_eq ..
  · dsimp only
    split
    · exact declareEach_eq ..
    · exact foldl_declareError ..

/-- The names of an item are entered by its actions. -/
theorem declareItem_eq : s.declareItem root item = item.actions.foldl (Action.run root item) s := by
  cases item with
  | record _ _ _ | enumeration _ _ => exact (declareWith_nil ..).symm
  | use t path alias? =>
    unfold declareItem Stmt.actions
    dsimp only
    split
    · rfl
    cases alias?.or path.getLast? with
    | none => rfl
    | some n => exact (declareWith_nil ..).symm
  | declare _ _ | declareAs _ _ _ | define _ _ _ _ => exact declareSingle_eq ..
  | external _ _ => exact declareExternal_eq ..
  | declareMany _ _ _ | declareManyAs _ _ _ _ => exact declareMany_eq ..
  | _ => rfl

end Survey

/-! ## What actions there are -/

/-- The item defines the function, or declares it as one that is defined elsewhere. -/
def Stmt.IsFunctionOf (item : Stmt) (name : Token) (data : SymbolData) : Prop :=
  ∃ s, data = .func s ∧ ((∃ ty brace body, item = .define name ty brace body ∧ s.WrittenAs ty) ∨ ∃ ty, item = .external name ty)

namespace Action

/-- What is true of the actions of a declaration. Only a declaration that is broken in its form may enter
a name as an error and report nothing. -/
structure Sound (item : Stmt) (as : List Action) : Prop where
  fatal : ∀ e, .report e ∈ as → e.isWarning = false
  kind : ∀ {name kind data refs}, .enter name kind data refs ∈ as → kind ≠ .type
  reported : ∀ {name data refs}, .enter name .error data refs ∈ as → item.isBroken = false → ∃ e, .report e ∈ as
  func : ∀ {name data refs}, .enter name .func data refs ∈ as → item.IsFunctionOf name data
  refs : ∀ {name kind data refs}, .enter name kind data refs ∈ as → refs.map (·.1) = data.mentions

namespace Sound

variable {item : Stmt} {as bs : List Action}

theorem nil : Sound item [] := ⟨nofun, nofun, nofun, nofun, nofun⟩

theorem append (ha : Sound item as) (hb : Sound item bs) : Sound item (as ++ bs) where
  fatal e h := (List.mem_append.mp h).elim (ha.fatal e) (hb.fatal e)
  kind h := (List.mem_append.mp h).elim ha.kind hb.kind
  reported h hbroken := by
    rcases List.mem_append.mp h with h | h
    · obtain ⟨e, he⟩ := ha.reported h hbroken
      exact ⟨e, List.mem_append_left _ he⟩
    · obtain ⟨e, he⟩ := hb.reported h hbroken
      exact ⟨e, List.mem_append_right _ he⟩
  func h := (List.mem_append.mp h).elim ha.func hb.func
  refs h := (List.mem_append.mp h).elim ha.refs hb.refs

theorem flatMap {α : Type} {f : α → List Action} (h : ∀ x, Sound item (f x)) (xs : List α) :
    Sound item (xs.flatMap f) := by
  induction xs with
  | nil => exact nil
  | cons x xs ih => exact (h x).append ih

theorem report {e : ScopeError} (he : e.isWarning = false) : Sound item [.report e] where
  fatal e' h := by
    cases List.mem_singleton.mp h
    exact he
  kind h := by cases List.mem_singleton.mp h
  reported h := by cases List.mem_singleton.mp h
  func h := by cases List.mem_singleton.mp h
  refs h := by cases List.mem_singleton.mp h

theorem enter {name : Token} {kind : SymbolKind} {data : SymbolData} {refs : TypeRefs} (hk : kind ≠ .type) (he : kind ≠ .error)
    (hf : kind = .func → item.IsFunctionOf name data) (hr : refs.map (·.1) = data.mentions) :
    Sound item [.enter name kind data refs] where
  fatal e h := by cases List.mem_singleton.mp h
  kind h := by
    cases List.mem_singleton.mp h
    exact hk
  reported h := by
    cases List.mem_singleton.mp h
    exact absurd rfl he
  func h := by
    cases List.mem_singleton.mp h
    exact hf rfl
  refs h := by
    cases List.mem_singleton.mp h
    exact hr

theorem silent (hbroken : item.isBroken = true) (names : List Token) : Sound item (names.map fail) := by
  refine ⟨fun e h => ?_, fun h => ?_, fun _ h => ?_, fun h => ?_, fun h => ?_⟩
  case refine_3 =>
    rw [hbroken] at h
    cases h
  all_goals
    obtain ⟨name, -, h⟩ := List.mem_map.mp h
    cases h
  · exact nofun
  · rfl

/-- Names of which nothing is known may follow a report. -/
theorem failing {e : ScopeError} (he : e.isWarning = false) {as : List Action}
    (has : ∀ {name kind data refs}, .enter name kind data refs ∈ as → kind = .error ∧ refs.map (·.1) = data.mentions)
    (hreport : ∀ e, .report e ∉ as) : Sound item (.report e :: as) where
  fatal e' h := by
    rcases List.mem_cons.mp h with h | h
    · cases h
      exact he
    · exact absurd h (hreport e')
  kind h := by
    rcases List.mem_cons.mp h with h | h
    · cases h
    · rw [(has h).1]
      exact nofun
  reported _ _ := ⟨e, List.mem_cons_self⟩
  func h := by
    rcases List.mem_cons.mp h with h | h
    · cases h
    · cases (has h).1
  refs h := by
    rcases List.mem_cons.mp h with h | h
    · cases h
    · exact (has h).2

theorem failing_all {e : ScopeError} (he : e.isWarning = false) (names : List Token) :
    Sound item (.report e :: names.map fail) := by
  refine failing he (fun h => ?_) fun e h => ?_
  all_goals
    obtain ⟨name, -, h⟩ := List.mem_map.mp h
    cases h
  exact ⟨rfl, rfl⟩

end Sound

variable {item : Stmt}

theorem sound_varOf (name : Token) (ty : TypeExpr) : Sound item (varOf name ty) := by
  unfold varOf
  split
  next e refs h => exact .failing_all (ty.failsHard _ _ _ h) [name]
  next h =>
    obtain ⟨hrefs, hty⟩ := ty.map_fst_describe h
    exact .enter nofun nofun nofun (hrefs.trans hty.symm)

theorem sound_single (item : Stmt) (name : Token) (ty : TypeExpr) (hbroken : item.isBroken = ty.isError)
    (hdefine : ∀ n ty' brace body, item = .define n ty' brace body → n = name ∧ ty' = ty) :
    Sound item (single item name ty) := by
  unfold single
  split
  next h => exact .silent (hbroken.trans h) [name]
  split
  · split
    next e refs h => exact .failing_all (ty.failsHard_signature _ _ _ h) [name]
    next s refs h =>
      obtain ⟨hrefs, hs⟩ := ty.map_fst_describeSignature h
      unfold Survey.functionKind
      split
      next n ty' brace body =>
        obtain ⟨rfl, rfl⟩ := hdefine _ _ _ _ rfl
        exact .enter nofun nofun (fun _ => ⟨s, rfl, .inl ⟨_, _, _, rfl, TypeExpr.writtenAs h⟩⟩) (hrefs.trans hs.symm)
      · refine .failing rfl (fun h => ?_) fun e h => ?_
        all_goals cases List.mem_singleton.mp h
        exact ⟨rfl, hrefs.trans hs.symm⟩
      · exact .enter nofun nofun nofun (hrefs.trans hs.symm)
  · refine .append ?_ (sound_varOf ..)
    unfold Survey.variableErrors
    split
    · exact .report rfl
    · exact .nil

theorem sound_external (name : Token) (ty : TypeExpr) : Sound (.external name ty) (external name ty) := by
  unfold external
  split
  next h => exact .silent (show (Stmt.external name ty).isBroken = true from h) [name]
  split
  · split
    next e refs h => exact .failing_all (ty.failsHard_signature _ _ _ h) [name]
    next s refs h =>
      obtain ⟨hrefs, hs⟩ := ty.map_fst_describeSignature h
      refine .enter nofun nofun (fun _ => ⟨_, rfl, .inr ⟨ty, rfl⟩⟩) (hrefs.trans (hs.symm.trans ?_))
      cases s
      rfl
  · exact .failing_all rfl [name]

theorem sound_shared (names : List Token) (ty : TypeExpr) : Sound item (shared names ty) := by
  unfold shared
  split
  next e refs h =>
    cases names with
    | nil => exact .nil
    | cons name names => exact .failing_all (ty.failsHard _ _ _ h) (name :: names)
  next h =>
    obtain ⟨hrefs, hty⟩ := ty.map_fst_describe h
    rw [List.map_eq_flatMap]
    refine .flatMap (fun name => ?_) names
    exact .enter nofun nofun nofun (hrefs.trans hty.symm)

theorem sound_many (names : List Token) (types : TypeList) (hbroken : item.isBroken = types.isError) :
    Sound item (many names types) := by
  unfold many
  split
  next h => exact .silent (hbroken.trans h) names
  split
  · exact sound_shared ..
  split
  · exact .flatMap (fun p => sound_varOf ..) _
  · exact .failing_all rfl names

end Action

/-- Only structures, unions and enumerations are entered as types. -/
theorem Stmt.sound_actions (item : Stmt) :
    (∃ name, item.typeName? = some name.text ∧ item.actions = [.enter name .type .none []]) ∨
      item.typeName? = none ∧ Action.Sound item item.actions := by
  cases item with
  | record _ name _ | enumeration name _ => exact .inl ⟨name, rfl, rfl⟩
  | use t path alias? =>
    refine .inr ⟨rfl, ?_⟩
    unfold Stmt.actions
    dsimp only
    split
    · exact .nil
    split
    · exact .nil
    · exact .enter nofun nofun nofun rfl
  | declare name ty | declareAs name ty _ => exact .inr ⟨rfl, Action.sound_single _ name ty rfl fun _ _ _ _ h => by cases h⟩
  | define name ty _ _ =>
    refine .inr ⟨rfl, Action.sound_single _ name ty rfl fun _ _ _ _ h => ?_⟩
    cases h
    exact ⟨rfl, rfl⟩
  | external name ty => exact .inr ⟨rfl, Action.sound_external ..⟩
  | declareMany _ names types | declareManyAs _ names types _ => exact .inr ⟨rfl, Action.sound_many names types rfl⟩
  | _ => exact .inr ⟨rfl, .nil⟩

/-! ## The names that actions enter -/

namespace Action

theorem filterMap_name?_report (errors : List ScopeError) : (errors.map report).filterMap name? = [] := by
  induction errors with
  | nil => rfl
  | cons e errors ih => exact ih

theorem filterMap_name?_map {f : Token → Action} (hf : ∀ t, (f t).name? = some t.text) (names : List Token) :
    (names.map f).filterMap name? = names.map (·.text) := by
  rw [List.filterMap_map, ← List.filterMap_eq_map]
  congr 1
  funext t
  exact hf t

theorem filterMap_name?_varOf (name : Token) (ty : TypeExpr) : (varOf name ty).filterMap name? = [name.text] := by
  unfold varOf
  split <;> rfl

theorem filterMap_name?_single (item : Stmt) (name : Token) (ty : TypeExpr) :
    (single item name ty).filterMap name? = [name.text] := by
  unfold single
  split
  · rfl
  split
  · split
    · rfl
    · rw [List.filterMap_append, filterMap_name?_report]
      rfl
  · rw [List.filterMap_append, filterMap_name?_report, filterMap_name?_varOf]
    rfl

theorem filterMap_name?_external (name : Token) (ty : TypeExpr) : (external name ty).filterMap name? = [name.text] := by
  unfold external
  split
  · rfl
  split
  · split <;> rfl
  · rfl

theorem filterMap_name?_each (names : List Token) (types : List TypeExpr) (h : types.length = names.length) :
    (each names types).filterMap name? = names.map (·.text) := by
  induction names generalizing types with
  | nil => rfl
  | cons name names ih =>
    cases types with
    | nil => cases h
    | cons ty types =>
      rw [show each (name :: names) (ty :: types) = varOf name ty ++ each names types from rfl, List.filterMap_append,
        filterMap_name?_varOf, ih types (Nat.succ.inj h)]
      rfl

theorem filterMap_name?_shared (names : List Token) (ty : TypeExpr) :
    (shared names ty).filterMap name? = names.map (·.text) := by
  unfold shared
  split
  · rw [List.filterMap_append, filterMap_name?_map fun _ => rfl]
    split <;> rfl
  · exact filterMap_name?_map (fun _ => rfl) names

theorem filterMap_name?_many (names : List Token) (types : TypeList) :
    (many names types).filterMap name? = names.map (·.text) := by
  unfold many
  split
  · exact filterMap_name?_map (fun _ => rfl) names
  split
  · exact filterMap_name?_shared ..
  split
  next h => exact filterMap_name?_each _ _ h
  · exact filterMap_name?_map (fun _ => rfl) names

end Action

theorem Stmt.filterMap_name?_actions (item : Stmt) : item.actions.filterMap Action.name? = item.declaredNames := by
  cases item with
  | use t path alias? =>
    unfold Stmt.actions Stmt.declaredNames
    dsimp only
    split
    · rfl
    split
    next h =>
      rw [h]
      rfl
    next h =>
      rw [h]
      rfl
  | declare name ty | declareAs name ty _ | define name ty _ _ => exact Action.filterMap_name?_single ..
  | external name ty => exact Action.filterMap_name?_external ..
  | declareMany _ names types | declareManyAs _ names types _ => exact Action.filterMap_name?_many ..
  | _ => rfl

/-! ## All names are declared once -/

namespace Stmt

/-- The types that items declare. -/
def typeNames (items : List Stmt) : List String := items.filterMap Stmt.typeName?

/-- The actions of items, each with the position of its item. -/
def tasks (root : Nat) (items : List Stmt) : List (Nat × Action) :=
  (items.zipIdx root).flatMap fun p => p.1.actions.map (p.2, ·)

variable {items : List Stmt}

theorem mem_tasks {p : Nat × Action} : p ∈ tasks 0 items ↔ ∃ item, items[p.1]? = some item ∧ p.2 ∈ item.actions := by
  obtain ⟨i, a⟩ := p
  simp [tasks, List.mem_flatMap, List.mk_mem_zipIdx_iff_getElem?]

/-- The items are looked at in turn. -/
theorem pairwise_tasks (items : List Stmt) : (tasks 0 items).Pairwise (·.1 ≤ ·.1) := by
  refine List.pairwise_flatMap.mpr ⟨fun p _ => List.pairwise_map.mpr ?_, ?_⟩
  · exact List.pairwise_of_forall fun _ _ => Nat.le_refl p.2
  · have hlt : ((items.zipIdx 0).map Prod.snd).Pairwise (· < ·) := by
      rw [List.zipIdx_map_snd]
      exact List.pairwise_lt_range'
    refine (List.pairwise_map.mp hlt).imp fun hlt x hx y hy => ?_
    obtain ⟨_, -, rfl⟩ := List.mem_map.mp hx
    obtain ⟨_, -, rfl⟩ := List.mem_map.mp hy
    exact Nat.le_of_lt hlt

theorem filterMap_name?_tasks (items : List Stmt) :
    (tasks 0 items).filterMap (·.2.name?) = items.flatMap declaredNames := by
  rw [tasks, List.filterMap_flatMap]
  simp only [List.filterMap_map, Function.comp_def, filterMap_name?_actions]
  rw [← List.flatMap_map (f := Prod.fst), List.zipIdx_map_fst]

theorem mem_typeNames {name : Token} {data : SymbolData} {refs : TypeRefs}
    (h : .enter name .type data refs ∈ items.flatMap actions) : name.text ∈ typeNames items := by
  obtain ⟨item, hitem, h⟩ := List.mem_flatMap.mp h
  rcases item.sound_actions with ⟨name', htype, hactions⟩ | ⟨-, hsound⟩
  · rw [hactions] at h
    cases List.mem_singleton.mp h
    exact List.mem_filterMap.mpr ⟨item, hitem, htype⟩
  · exact absurd rfl (hsound.kind h)

theorem declared_of_typeName {n : String} (h : n ∈ typeNames items) : ∃ item ∈ items, n ∈ item.declaredNames := by
  obtain ⟨item, hitem, hname⟩ := List.mem_filterMap.mp h
  refine ⟨item, hitem, ?_⟩
  rw [← filterMap_name?_actions]
  rcases item.sound_actions with ⟨name, htype, hactions⟩ | ⟨hnone, -⟩
  · rw [hactions]
    exact List.mem_singleton.mpr (Option.some.inj (hname.symm.trans htype))
  · cases hnone.symm.trans hname

variable (h : (items.flatMap declaredNames).Nodup) {a b : Action} {n : String}

include h

theorem eq_of_name (ha : a ∈ items.flatMap actions) (hb : b ∈ items.flatMap actions) (han : a.name? = some n)
    (hbn : b.name? = some n) : a = b := by
  have hnodup : ((items.flatMap actions).filterMap Action.name?).Nodup := by
    rw [List.filterMap_flatMap]
    simp only [filterMap_name?_actions]
    exact h
  refine List.Pairwise.forall_of_forall_of_flip (R := fun a b => a.name? = some n → b.name? = some n → a = b)
    (fun _ _ _ _ => rfl) ?_ ?_ ha hb han hbn
  · exact (List.pairwise_filterMap.mp hnodup).imp fun h ha hb => absurd rfl (h n ha n hb)
  · exact (List.pairwise_filterMap.mp hnodup).imp fun h hb ha => absurd rfl (h n ha n hb)

/-- What is entered as a type says nothing else, and it is entered as nothing else. -/
theorem enter_type {name : Token} {kind : SymbolKind} {data : SymbolData} {refs : TypeRefs}
    (henter : .enter name kind data refs ∈ items.flatMap actions) (hn : name.text ∈ typeNames items) :
    kind = .type ∧ data = .none := by
  obtain ⟨item, hitem, hname⟩ := List.mem_filterMap.mp hn
  rcases item.sound_actions with ⟨name', htype, hactions⟩ | ⟨hnone, -⟩
  · have htext := Option.some.inj (htype.symm.trans hname)
    have henter' := List.mem_flatMap.mpr ⟨item, hitem, hactions ▸ List.mem_cons_self⟩
    cases eq_of_name h henter henter' rfl (congrArg some htext)
    exact ⟨rfl, rfl⟩
  · cases hnone.symm.trans hname

end Stmt
/-! ## Types that are in order -/

namespace Action

/-- The name is entered, and not as an error, with the names that its type mentions. -/
def Enters (as : List Action) (name : Token) (ty : TypeExpr) : Prop :=
  ∃ kind data refs, .enter name kind data refs ∈ as ∧ kind ≠ .error ∧ refs.map (·.1) = ty.mentions

variable {ty : TypeExpr} {t : Ty} {refs : TypeRefs}

theorem enters_varOf (name : Token) (h : ty.describe.result = (.ok t, refs)) : Enters (varOf name ty) name ty := by
  unfold varOf
  rw [h]
  exact ⟨.var, _, refs, List.mem_singleton.mpr rfl, nofun, (ty.map_fst_describe h).1⟩

theorem enters_single {item : Stmt} (name : Token) (herror : ty.isError = false)
    (hkind : ty.isFunction = true → (Survey.functionKind name item).1 ≠ .error)
    (h : ty.describe.result = (.ok t, refs)) : Enters (single item name ty) name ty := by
  unfold single
  rw [if_neg (by rw [herror]; exact nofun)]
  split
  next hf =>
    obtain ⟨s, hs⟩ := ty.describeSignature_of_describe hf h
    rw [hs]
    exact ⟨_, _, refs, List.mem_append_right _ List.mem_cons_self, hkind hf, (ty.map_fst_describeSignature hs).1⟩
  · obtain ⟨kind, data, refs', hmem, hrest⟩ := enters_varOf name h
    exact ⟨kind, data, refs', List.mem_append_right _ hmem, hrest⟩

theorem enters_external (name : Token) (herror : ty.isError = false) (hf : ty.isFunction = true)
    (h : ty.describe.result = (.ok t, refs)) : Enters (external name ty) name ty := by
  unfold external
  rw [if_neg (by rw [herror]; exact nofun), if_pos hf]
  obtain ⟨s, hs⟩ := ty.describeSignature_of_describe hf h
  rw [hs]
  exact ⟨.func, _, refs, List.mem_singleton.mpr rfl, nofun, (ty.map_fst_describeSignature hs).1⟩

theorem enters_each {names : List Token} {types : List TypeExpr} {name : Token} (hmem : (name, ty) ∈ names.zip types)
    (h : ty.describe.result = (.ok t, refs)) : Enters (each names types) name ty := by
  obtain ⟨kind, data, refs', henter, hrest⟩ := enters_varOf name h
  exact ⟨kind, data, refs', List.mem_flatMap.mpr ⟨(name, ty), hmem, henter⟩, hrest⟩

theorem enters_shared {names : List Token} {name : Token} (hmem : name ∈ names)
    (h : ty.describe.result = (.ok t, refs)) : Enters (shared names ty) name ty := by
  unfold shared
  rw [h]
  exact ⟨.var, _, refs, List.mem_map.mpr ⟨name, hmem, rfl⟩, nofun, (ty.map_fst_describe h).1⟩

theorem enters_many (start : Token) {names : List Token} {types : TypeList} {name : Token}
    (herror : types.isError = false) (hmem : (name, ty) ∈ (Stmt.declareMany start names types).typed)
    (h : ty.describe.result = (.ok t, refs)) : Enters (many names types) name ty := by
  have hmany : ∀ tys : List TypeExpr, (name, ty) ∈ (if tys.length = names.length then names.zip tys else []) →
      Enters (if tys.length = names.length then each names tys
        else .report (.typeCount names.length tys.length types.span) :: names.map fail) name ty := by
    intro tys hmem
    split at hmem
    next hlength =>
      rw [if_pos hlength]
      exact enters_each hmem h
    · cases hmem
  unfold many
  rw [if_neg (by rw [herror]; exact nofun)]
  obtain ⟨start, tys⟩ := types
  rcases tys with _ | ⟨ty', _ | ⟨ty'', tys⟩⟩
  · exact hmany [] hmem
  · obtain ⟨n, hn, heq⟩ := List.mem_map.mp hmem
    cases heq
    exact enters_shared hn h
  · exact hmany _ hmem

end Action

/-- A declaration whose type and value are in order enters its names. -/
theorem Stmt.enters_of_typed {item : Stmt} (hbroken : item.isBroken = false) (hadmissible : item.isAdmissible = true)
    {name : Token} (hmem : (name, ty) ∈ item.typed) (ht : ty.describe.result.1 = .ok t) :
    Action.Enters item.actions name ty := by
  have h : ty.describe.result = (.ok t, ty.describe.result.2) := Prod.ext ht rfl
  cases item with
  | declare n ty' =>
    cases List.mem_singleton.mp hmem
    exact Action.enters_single name hbroken (fun _ => nofun) h
  | declareAs n ty' value =>
    cases List.mem_singleton.mp hmem
    refine Action.enters_single name hbroken (fun hf => ?_) h
    rw [Stmt.isAdmissible, hf] at hadmissible
    cases hadmissible
  | define n ty' brace body =>
    cases List.mem_singleton.mp hmem
    exact Action.enters_single name hbroken (fun _ => nofun) h
  | external n ty' =>
    cases List.mem_singleton.mp hmem
    exact Action.enters_external name hbroken hadmissible h
  | declareMany start names types | declareManyAs start names types values =>
    exact Action.enters_many start hbroken hmem h
  | _ => cases hmem

end Wordstack
