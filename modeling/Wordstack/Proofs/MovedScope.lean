/-
The names of a program and its places. Collecting names does not look at places, with one
exception: prototypes without a body are reported as they stand in the text, which only
takes the order of their places.
-/
import Wordstack.Proofs.Declarations
import Wordstack.Proofs.Places

namespace Wordstack

/-! ## What is said about names -/

instance : Placed Ty := .nowhere _
instance : Placed Resolution := .nowhere _

instance : Placed ScopeError where
  move f
    | .redefinition name span first => .redefinition name (f span) (f first)
    | .prototypeAsType name span prototype => .prototypeAsType name (f span) (f prototype)
    | .functionAsType name span function => .functionAsType name (f span) (f function)
    | .notAType name span declaration => .notAType name (f span) (f declaration)
    | .blockInitializer name span => .blockInitializer name (f span)
    | .functionBody name span => .functionBody name (f span)
    | .externalNotFunction name span => .externalNotFunction name (f span)
    | .unknownType name span => .unknownType name (f span)
    | .arrayLength span => .arrayLength (f span)
    | .typeCount names types span => .typeCount names types (f span)
    | .invalidType span => .invalidType (f span)
    | .unusedPrototype name span => .unusedPrototype name (f span)
  move_id e := by cases e <;> rfl
  move_move _ _ e := by cases e <;> rfl

/-! ## Describing types -/

/-- The description of a type at other places: types have no places, but names are mentioned somewhere and complaints are
made about something. -/
def Describe.Moves (f : Span → Span) {α : Type} (d' d : Describe α) : Prop :=
  ∀ refs : TypeRefs, d' (move f refs) = ((d refs).1.mapError (move f), move f (d refs).2)

namespace Describe.Moves

variable {f : Span → Span} {α β : Type}

theorem pure (a : α) : Moves f (Pure.pure a) (Pure.pure a) := fun _ => rfl

theorem throw {e' e : ScopeError} (h : e' = move f e) : Moves f (throw e' : Describe α) (throw e) := by
  subst h
  exact fun _ => rfl

theorem bind {x' x : Describe α} {k' k : α → Describe β} (hx : Moves f x' x) (hk : ∀ a, Moves f (k' a) (k a)) :
    Moves f (x' >>= k') (x >>= k) := by
  intro refs
  show ExceptT.bindCont k' (x' (move f refs)).1 (x' (move f refs)).2 = _
  rw [hx refs]
  show _ = ((ExceptT.bindCont k (x refs).1 (x refs).2).1.mapError (move f), move f (ExceptT.bindCont k (x refs).1 (x refs).2).2)
  rcases x refs with ⟨e | a, refs⟩
  · rfl
  · exact hk a refs

theorem result {d' d : Describe α} (h : Moves f d' d) : d'.result = (d.result.1.mapError (move f), move f d.result.2) := h []

end Describe.Moves

section

variable {f : Span → Span}

theorem Expr.atom?_moved : ∀ e : Expr, (e.moved f).atom? = e.atom?.map (move f)
  | .unclosed e => e.atom?_moved
  | .missing _ | .atom _ | .unary .. | .binary .. | .call .. | .index .. | .cast .. | .castOnly .. => rfl

theorem Expr.arrayLength?_moved (e : Expr) : (e.moved f).arrayLength? = e.arrayLength? := by
  unfold Expr.arrayLength?
  rw [e.atom?_moved]
  rcases e.atom? with _ | ⟨kind, text, span, literal⟩
  · rfl
  · cases kind <;> first | rfl | (cases literal <;> rfl)

mutual

theorem TypeExpr.describe_moved (hf : Span.Steady f) : ∀ ty : TypeExpr, Describe.Moves f (ty.moved f).describe ty.describe
  | .missing _ => .throw rfl
  | .name t => by
    rw [TypeExpr.moved, TypeExpr.describe, TypeExpr.describe, Token.kind_move]
    cases t.kind with
    | primitive p => exact .pure _
    | _ => exact fun refs => congrArg (Prod.mk _) (move_append f refs [(t.text, t.span)]).symm
  | .pointer _ target => (target.describe_moved hf).bind fun _ => .pure _
  | .openArray _ element => (element.describe_moved hf).bind fun _ => .pure _
  | .array _ length element => by
    refine (element.describe_moved hf).bind fun element => ?_
    rw [length.arrayLength?_moved]
    have hlength : ScopeError.arrayLength (length.moved f).span = move f (ScopeError.arrayLength length.span) :=
      congrArg ScopeError.arrayLength (Expr.span_move hf length)
    cases length.arrayLength? with
    | none => exact .throw hlength
    | some n =>
      dsimp only
      split
      · exact .pure _
      · exact .throw hlength
  | .function _ params => (Param.describeAll_moved hf params).bind fun _ => .pure _
  | .functionTo _ params _ returns =>
    (Param.describeAll_moved hf params).bind fun _ => (TypeExpr.describeAll_moved hf returns).bind fun _ => .pure _

theorem TypeExpr.describeAll_moved (hf : Span.Steady f) :
    ∀ tys : List TypeExpr, Describe.Moves f (TypeExpr.describeAll (TypeExpr.movedAll f tys)) (TypeExpr.describeAll tys)
  | [] => .pure _
  | ty :: tys => (ty.describe_moved hf).bind fun _ => (TypeExpr.describeAll_moved hf tys).bind fun _ => .pure _

theorem Param.describe_moved (hf : Span.Steady f) : ∀ p : Param, Describe.Moves f (p.moved f).describe p.describe
  | .missing _ => .throw rfl
  | .named _ ty => (ty.describe_moved hf).bind fun _ => .pure _

theorem Param.describeAll_moved (hf : Span.Steady f) :
    ∀ ps : List Param, Describe.Moves f (Param.describeAll (Param.movedAll f ps)) (Param.describeAll ps)
  | [] => .pure _
  | p :: ps => (p.describe_moved hf).bind fun _ => (Param.describeAll_moved hf ps).bind fun _ => .pure _

end

theorem TypeExpr.isFunction_move (ty : TypeExpr) : (move f ty).isFunction = ty.isFunction := by
  cases ty <;> rfl

theorem TypeExpr.describe_move (hf : Span.Steady f) (ty : TypeExpr) : Describe.Moves f (move f ty).describe ty.describe :=
  ty.describe_moved hf

theorem TypeExpr.describeSignature_move (hf : Span.Steady f) (ty : TypeExpr) :
    Describe.Moves f (move f ty).describeSignature ty.describeSignature := by
  have hinvalid : ScopeError.invalidType (move f ty).span = move f (ScopeError.invalidType ty.span) :=
    congrArg ScopeError.invalidType (TypeExpr.span_move hf ty)
  unfold TypeExpr.describeSignature
  rw [ty.isFunction_move]
  split
  · refine (ty.describe_move hf).bind fun t => ?_
    cases t.base with
    | function s => exact .pure s
    | primitive | named => exact .throw hinvalid
  · exact .throw hinvalid

end

/-- The name that a module is used by. -/
theorem Name.ofUse_move (f : Span → Span) (path : List Name) (alias? : Option Name) :
    (move f alias?).or (move f path).getLast? = move f (alias?.or path.getLast?) := by
  rw [getLast?_move]
  cases alias? <;> rfl

/-! ## Tables and entries -/

namespace NameTable

variable {α : Type} [Placed α] (f : Span → Span)

theorem get?_move (t : NameTable α) (x : String) : get? x (move f t) = move f (get? x t) := by
  induction t with
  | nil => rfl
  | cons e rest ih =>
    rw [move_cons, get?, get?, ih, move_ite]
    rfl

theorem set_move (t : NameTable α) (name : String) (a : α) : set name (move f a) (move f t) = move f (set name a t) := by
  induction t with
  | nil => rfl
  | cons e rest ih =>
    rw [move_cons, set, set, ih, move_ite]
    rfl

theorem erase_move (t : NameTable α) (name : String) : erase name (move f t) = move f (erase name t) := by
  induction t with
  | nil => rfl
  | cons e rest ih =>
    rw [move_cons, erase, erase, ih, move_ite]
    rfl

end NameTable

instance : Placed Entry where
  move f e := { e with item := move f e.item, span := f e.span }
  move_id e := by simp only [move_id, id]
  move_move f g e := by simp only [move_move, Function.comp]

instance : Placed Declared where
  move f
    | .stored => .stored
    | .kept => .kept
    | .conflict first => .conflict (f first)
  move_id d := by cases d <;> rfl
  move_move _ _ d := by cases d <;> rfl

section

variable (f : Span → Span)

theorem Stmt.hasValue_move (s : Stmt) : (move f s).hasValue = s.hasValue := by
  cases s <;> rfl

theorem Entry.isDefinition_move (e : Entry) : (move f e).isDefinition = e.isDefinition := by
  unfold Entry.isDefinition
  have hvalue : (move f e).item.hasValue = e.item.hasValue := e.item.hasValue_move f
  rw [hvalue]
  rfl

theorem Entry.redeclare_move (first next : Entry) :
    (move f first).redeclare (move f next) = move f (first.redeclare next) := by
  have hsame : (move f first).item.same (move f next).item = first.item.same next.item := Stmt.same_move f _ _
  unfold Entry.redeclare
  rw [first.isDefinition_move, next.isDefinition_move, hsame,
    show (move f first).sameAs (move f next) = first.sameAs next from rfl]
  split
  · cases first.isDefinition <;> cases next.isDefinition <;> dsimp only
    · rfl
    · show (if next.kind = .var then _ else _) = _
      split <;> rfl
    · rfl
    · split <;> rfl
  · rw [show (move f first).signature? = first.signature? from rfl, show (move f next).signature? = next.signature? from rfl,
      show (move f first).kind = first.kind from rfl, show (move f next).kind = next.kind from rfl]
    dsimp only
    split <;> rfl

theorem Scope.declare_move (s : Scope) (name : String) (e : Entry) :
    Scope.declare (move f s) name (move f e) = move f (s.declare name e) := by
  unfold Scope.declare
  rw [NameTable.get?_move]
  rcases s.get? name with _ | first
  · rfl
  · exact first.redeclare_move f e

theorem Scope.resolveName_move (s : Scope) (final : Bool) (name : String) (span : Span) :
    Scope.resolveName (move f s) final name (f span) = move f (s.resolveName final name span) := by
  unfold Scope.resolveName
  rw [NameTable.get?_move]
  rcases s.get? name with _ | ⟨kind, root, item, first, data, unresolved⟩
  · cases final <;> rfl
  · cases kind <;> rfl

theorem Scope.resolve_move (s : Scope) (final : Bool) (refs : TypeRefs) :
    Scope.resolve (move f s) final (move f refs) = move f (s.resolve final refs) := by
  induction refs with
  | nil => rfl
  | cons p refs ih =>
    obtain ⟨name, span⟩ := p
    have hname := s.resolveName_move f final name span
    show ((Scope.resolveName (move f s) final name (f span)).1.join (Scope.resolve (move f s) final (move f refs)).1,
      (Scope.resolveName (move f s) final name (f span)).2 ++ (Scope.resolve (move f s) final (move f refs)).2) = _
    rw [hname, ih]
    exact congrArg (Prod.mk _) (move_append f _ _).symm

end

/-! ## What is known so far -/

instance : Placed Survey where
  move f s := { scope := move f s.scope, errors := move f s.errors, deferred := move f s.deferred }
  move_id s := by simp only [move_id]
  move_move f g s := by simp only [move_move]

namespace Survey

variable {f : Span → Span} (s : Survey)

theorem report_move (errors : List ScopeError) : (move f s).report (move f errors) = move f (s.report errors) :=
  congrArg (Survey.mk (move f s.scope) · (move f s.deferred)) (move_append f s.errors errors).symm

theorem declare_move (name : String) (e : Entry) :
    (move f s).declare name (move f e) = move f (s.declare name e) := by
  unfold declare
  rw [show (move f s).scope.declare name (move f e) = _ from Scope.declare_move f s.scope name e]
  cases s.scope.declare name e with
  | stored => exact congrArg (Survey.mk · (move f s.errors) (move f s.deferred)) (NameTable.set_move f s.scope name e)
  | kept => rfl
  | conflict first => exact s.report_move [.redefinition name e.span first]

theorem declareWith_move (name : String) (e : Entry) (refs : TypeRefs) :
    (move f s).declareWith name (move f e) (move f refs) = move f (s.declareWith name e refs) := by
  have hdeclare : ∀ (s : Survey) (e : Entry), (move f s).declare name (move f e) = move f (s.declare name e) :=
    fun s e => s.declare_move name e
  unfold declareWith
  rw [show Scope.resolve (move f s).scope false (move f refs) = _ from Scope.resolve_move f s.scope false refs]
  rcases s.scope.resolve false refs with ⟨resolution, errors⟩
  rw [show move f (resolution, errors) = (resolution, move f errors) from rfl]
  dsimp only
  rw [report_move]
  generalize s.report errors = s
  cases resolution with
  | resolved => exact hdeclare s e
  | failed => exact hdeclare s { e with kind := .error }
  | deferred =>
    have hscope : (move f s).scope.declare name { move f e with unresolved := true } =
        move f (s.scope.declare name { e with unresolved := true }) :=
      Scope.declare_move f s.scope name { e with unresolved := true }
    have hentered : (move f s).declare name { move f e with unresolved := true } =
        move f (s.declare name { e with unresolved := true }) := hdeclare s { e with unresolved := true }
    have hqueued : ((move f s).deferred.any fun p => p.1 == name) = s.deferred.any fun p => p.1 == name := List.any_map
    dsimp only
    rw [hscope, hqueued, hentered]
    cases s.scope.declare name { e with unresolved := true } with
    | stored =>
      generalize s.declare name { e with unresolved := true } = s'
      show (if _ then _ else _) = move f (if _ then _ else _)
      split
      · rfl
      · exact congrArg (Survey.mk (move f s'.scope) (move f s'.errors)) (move_append f s'.deferred [(name, refs)]).symm
    | kept => rfl
    | conflict first => rfl

end Survey

/-! ## What items do -/

instance : Placed Action where
  move f
    | .report e => .report (move f e)
    | .enter name kind data refs => .enter (move f name) kind data (move f refs)
  move_id a := by cases a <;> simp only [move_id]
  move_move _ _ a := by cases a <;> simp only [move_move]

namespace Action

variable {f : Span → Span}

theorem run_move (root : Nat) (item : Stmt) (s : Survey) : ∀ a : Action,
    (move f a).run root (move f item) (move f s) = move f (a.run root item s)
  | .report e => s.report_move [e]
  | .enter name kind data refs => s.declareWith_move name.text { kind, root, item, span := name.span, data } refs

theorem varOf_move (hf : Span.Steady f) (name : Token) (ty : TypeExpr) :
    varOf (move f name) (move f ty) = move f (varOf name ty) := by
  unfold varOf
  rw [(ty.describe_move hf).result]
  rcases ty.describe.result with ⟨e | type, refs⟩ <;> rfl

theorem map_report_move (errors : List ScopeError) : (move f errors).map report = move f (errors.map report) :=
  map_move (fun _ => by rfl) errors

theorem map_fail_move (names : List Token) : (move f names).map fail = move f (names.map fail) :=
  map_move (fun _ => by rfl) names

theorem functionKind_move (hf : Span.Steady f) (name : Token) (item : Stmt) :
    Survey.functionKind (move f name) (move f item) =
      ((Survey.functionKind name item).1, move f (Survey.functionKind name item).2) := by
  cases item
  case declareAs t ty value =>
    exact congrArg (fun span => (SymbolKind.error, [ScopeError.functionBody name.text span])) (Expr.span_move hf value)
  all_goals rfl

theorem variableErrors_move (hf : Span.Steady f) (name : Token) (item : Stmt) :
    Survey.variableErrors (move f name) (move f item) = move f (Survey.variableErrors name item) := by
  cases item
  case define t ty brace body =>
    have hspan : (move f (Stmt.block brace body)).span = f (Stmt.block brace body).span := Stmt.span_move hf _
    exact congrArg (fun span => [ScopeError.blockInitializer name.text span]) hspan
  all_goals rfl

theorem single_move (hf : Span.Steady f) (item : Stmt) (name : Token) (ty : TypeExpr) :
    single (move f item) (move f name) (move f ty) = move f (single item name ty) := by
  unfold single
  rw [TypeExpr.isError_move, TypeExpr.isFunction_move, (ty.describeSignature_move hf).result, functionKind_move hf,
    variableErrors_move hf, varOf_move hf, map_report_move, map_report_move]
  split
  · rfl
  split
  · rcases ty.describeSignature.result with ⟨e | signature, refs⟩
    · rfl
    · rw [move_append]
      rfl
  · exact (move_append f _ _).symm

theorem external_move (hf : Span.Steady f) (name : Token) (ty : TypeExpr) :
    external (move f name) (move f ty) = move f (external name ty) := by
  unfold external
  rw [TypeExpr.isError_move, TypeExpr.isFunction_move, (ty.describeSignature_move hf).result, TypeExpr.span_move hf]
  split
  · rfl
  split
  · rcases ty.describeSignature.result with ⟨e | signature, refs⟩ <;> rfl
  · rfl

theorem each_move (hf : Span.Steady f) (names : List Token) (types : List TypeExpr) :
    each (move f names) (move f types) = move f (each names types) := by
  induction names generalizing types with
  | nil => rfl
  | cons name names ih =>
    cases types with
    | nil => rfl
    | cons ty types =>
      show varOf (move f name) (move f ty) ++ each (move f names) (move f types) = move f (varOf name ty ++ each names types)
      rw [varOf_move hf, ih, move_append]

theorem shared_move (hf : Span.Steady f) (names : List Token) (ty : TypeExpr) :
    shared (move f names) (move f ty) = move f (shared names ty) := by
  unfold shared
  rw [(ty.describe_move hf).result]
  rcases ty.describe.result with ⟨e | type, refs⟩
  · cases names with
    | nil => rfl
    | cons name names => exact congrArg (_ :: _ :: ·) (map_fail_move names)
  · exact map_move (fun _ => by rfl) names

theorem many_move (hf : Span.Steady f) (names : List Token) (types : TypeList) :
    many (move f names) (move f types) = move f (many names types) := by
  have hmany : ∀ tys : List TypeExpr, (if (move f tys).length = (move f names).length then each (move f names) (move f tys)
        else .report (.typeCount (move f names).length (move f tys).length (move f types).span) :: (move f names).map fail) =
      move f (if tys.length = names.length then each names tys
        else .report (.typeCount names.length tys.length types.span) :: names.map fail) := by
    intro tys
    rw [length_move, length_move, TypeList.span_move hf, each_move hf, map_fail_move, move_ite]
    rfl
  unfold many
  rw [TypeList.isError_move]
  split
  · exact map_fail_move names
  obtain ⟨start, items⟩ := types
  rcases items with _ | ⟨ty, _ | ⟨ty', tys⟩⟩
  · exact hmany []
  · exact shared_move hf names ty
  · exact hmany (ty :: ty' :: tys)

end Action

theorem Stmt.actions_move {f : Span → Span} (hf : Span.Steady f) (item : Stmt) : (move f item).actions = move f item.actions := by
  cases item with
  | use t path alias? =>
    have hpath : (move f path).map (·.token.text) = path.map (·.token.text) := by
      rw [show move f path = path.map (move f) from rfl, List.map_map]
      refine List.map_congr_left fun n _ => ?_
      cases n <;> rfl
    have herror : (Stmt.use (move f t) (move f path) (move f alias?)).isError = (Stmt.use t path alias?).isError :=
      Stmt.isError_move f (.use t path alias?)
    rw [show move f (Stmt.use t path alias?) = .use (move f t) (move f path) (move f alias?) from rfl]
    unfold actions
    dsimp only
    rw [herror, Name.ofUse_move, hpath]
    split
    · rfl
    · rcases alias?.or path.getLast? with _ | n | n <;> rfl
  | declare name ty => exact Action.single_move hf (.declare name ty) name ty
  | declareAs name ty value => exact Action.single_move hf (.declareAs name ty value) name ty
  | define name ty brace body => exact Action.single_move hf (.define name ty brace body) name ty
  | external name ty => exact Action.external_move hf name ty
  | declareMany t names types => exact Action.many_move hf names types
  | declareManyAs t names types values => exact Action.many_move hf names types
  | _ => rfl

/-! ## Collecting names -/

namespace Survey

variable {f : Span → Span} (s : Survey)

theorem declareItem_move (hf : Span.Steady f) (root : Nat) (item : Stmt) :
    (move f s).declareItem root (move f item) = move f (s.declareItem root item) := by
  rw [declareItem_eq, declareItem_eq, Stmt.actions_move hf]
  induction item.actions generalizing s with
  | nil => rfl
  | cons a as ih =>
    rw [move_cons, List.foldl_cons, List.foldl_cons, Action.run_move]
    exact ih _

theorem declareItems_move (hf : Span.Steady f) (root : Nat) (items : List Stmt) :
    (move f s).declareItems root (move f items) = move f (s.declareItems root items) := by
  induction items generalizing s root with
  | nil => rfl
  | cons item items ih =>
    rw [move_cons, declareItems, declareItems, declareItem_move s hf]
    exact ih _ _

theorem resolveDeferred_move (name : String) (refs : TypeRefs) :
    (move f s).resolveDeferred name (move f refs) = move f (s.resolveDeferred name refs) := by
  unfold resolveDeferred
  rw [show (move f s).scope.get? name = _ from NameTable.get?_move f s.scope name,
    show (move f s).scope.erase name = _ from NameTable.erase_move f s.scope name, Scope.resolve_move]
  rcases s.scope.get? name with _ | e
  · rfl
  rcases Scope.resolve (s.scope.erase name) true refs with ⟨resolution, errors⟩
  exact congr (congrArg (fun scope errors => Survey.mk scope errors (move f s.deferred))
    (NameTable.set_move f s.scope name
      { e with kind := if resolution = .resolved then e.kind else .error, unresolved := false }))
    (move_append f s.errors errors).symm

theorem resolveAll_move : (move f s).resolveAll = move f s.resolveAll := by
  have hfold : ∀ (s : Survey) (deferred : List (String × TypeRefs)),
      (move f deferred).foldl (fun s p => s.resolveDeferred p.1 p.2) (move f s) =
        move f (deferred.foldl (fun s p => s.resolveDeferred p.1 p.2) s) := by
    intro s deferred
    induction deferred generalizing s with
    | nil => rfl
    | cons p deferred ih =>
      rw [move_cons, List.foldl_cons, List.foldl_cons, ← ih, ← resolveDeferred_move]
      rfl
  exact hfold s s.deferred

end Survey

/-! ## The names of a program -/

/-- Regions stand in the same order before and after. -/
def Span.Ordered (f : Span → Span) : Prop :=
  ∀ s t : Span, (f s).start.offset ≤ (f t).start.offset ↔ s.start.offset ≤ t.start.offset

instance : Placed Analysis where
  move f a := ⟨move f a.scope, move f a.errors⟩
  move_id a := by simp only [move_id]
  move_move f g a := by simp only [move_move]

theorem Survey.unusedPrototypes_move {f : Span → Span} (ho : Span.Ordered f) (scope : Scope) :
    unusedPrototypes (move f scope) = move f (unusedPrototypes scope) := by
  have hunused :
      ((move f scope).filterMap fun p => if p.2.kind = .prototype then some (p.2.span, p.1) else none) =
        move f (scope.filterMap fun p => if p.2.kind = .prototype then some (p.2.span, p.1) else none) := by
    refine List.filterMap_map.trans (Eq.trans (congrArg (List.filterMap · scope) (funext fun p => ?_)) List.map_filterMap.symm)
    show (if p.2.kind = .prototype then some (f p.2.span, p.1) else none) = Option.map (move f) (if _ then _ else _)
    split <;> rfl
  unfold unusedPrototypes
  generalize hentries : (scope.filterMap fun p => if p.2.kind = .prototype then some (p.2.span, p.1) else none) = entries at hunused
  have hsort : ((move f entries).mergeSort fun a b => a.1.start.offset ≤ b.1.start.offset) =
      move f (entries.mergeSort fun a b => a.1.start.offset ≤ b.1.start.offset) := by
    refine (List.map_mergeSort fun a _ b _ => ?_).symm
    exact (decide_eq_decide.mpr (ho a.1 b.1)).symm
  refine (congrArg (List.map _) ((congrArg (List.mergeSort · _) hunused).trans hsort)).trans ?_
  refine List.map_map.trans (Eq.trans ?_ List.map_map.symm)
  rw [← hentries]
  rfl

theorem Survey.ofItems_move {f : Span → Span} (hf : Span.Steady f) (items : List Stmt) :
    (declareItems {} 0 (move f items)).resolveAll = move f (declareItems {} 0 items).resolveAll := by
  rw [← resolveAll_move, ← declareItems_move _ hf]
  rfl

theorem Scope.ofItems_move {f : Span → Span} (hf : Span.Steady f) (ho : Span.Ordered f) (items : List Stmt) :
    Scope.ofItems (move f items) = move f (Scope.ofItems items) := by
  unfold Scope.ofItems
  rw [Survey.ofItems_move hf]
  exact congrArg (Analysis.mk _) ((congrArg _ (Survey.unusedPrototypes_move ho _)).trans (move_append f _ _).symm)

end Wordstack
