/-
A declaration that is stated again. Its names have entries already that say all that it says, and its types are known, so that
nothing is entered and nothing is reported; no entry comes from it, so that it gets neither room nor code. But the values of
a declaration of several names are computed wherever they stand: here they are computed again, and dropped.
-/
import Wordstack.Proofs.Balance
import Wordstack.Proofs.Items
import Wordstack.Proofs.Recording

namespace Wordstack

open Lower

variable {items : List Stmt} {d d' : Stmt}

/-! ## Names -/

theorem Scope.resolve_of_types {s : Scope} (final : Bool) {refs : TypeRefs} (h : ∀ p ∈ refs, s.IsType p.1) :
    s.resolve final refs = (.resolved, []) := by
  induction refs with
  | nil => rfl
  | cons p refs ih =>
    obtain ⟨⟨e, he, hk⟩, hrefs⟩ := List.forall_mem_cons.mp h
    obtain ⟨name, span⟩ := p
    have hname : s.resolveName final name span = (.resolved, []) := by
      simp only [resolveName, show s.get? name = some e from he, hk]
    simp only [resolve, hname, ih hrefs]
    rfl

theorem Survey.fatal_resolveAll {s : Survey} (h : Fatal s.errors) : Fatal s.resolveAll.errors := by
  refine List.foldlRecOn (motive := fun s : Survey => Fatal s.errors) s.deferred _ h fun s hs p _ => ?_
  dsimp only
  unfold resolveDeferred
  split
  · exact hs
  · exact hs.append_left _

theorem Survey.declareItems_append (s : Survey) (root : Nat) (items : List Stmt) (item : Stmt) :
    s.declareItems root (items ++ [item]) = (s.declareItems root items).declareItem (root + items.length) item := by
  induction items generalizing s root with
  | nil => rfl
  | cons first items ih =>
    rw [List.cons_append, declareItems, ih, declareItems, List.length_cons, Nat.add_right_comm]
    rfl

/-- Where an item stands, and where its tokens do, does not count when a name is declared again. -/
theorem Entry.redeclare_unplaced {first : Entry} {kind : SymbolKind} {i root : Nat} {span span' : Span} {data : SymbolData}
    (hsame : unplaced d' = unplaced d) (h : first.redeclare { kind, root := i, item := d, span, data } = .kept) :
    first.redeclare { kind, root, item := d', span := span', data } = .kept := by
  have hmoved := first.redeclare_move (fun _ => .nowhere) { kind, root := i, item := d, span, data }
  have hmoved' := first.redeclare_move (fun _ => .nowhere) { kind, root, item := d', span := span', data }
  have hentry : move (fun _ => .nowhere) ({ kind, root, item := d', span := span', data } : Entry) =
      { move (fun _ => .nowhere) ({ kind, root := i, item := d, span, data } : Entry) with root } :=
    congrArg (fun item => ({ kind, root, item, span := .nowhere, data } : Entry)) hsame
  rw [h] at hmoved
  rw [hentry] at hmoved'
  have hkept : move (fun _ => .nowhere) (first.redeclare { kind, root, item := d', span := span', data }) = .kept :=
    hmoved'.symm.trans hmoved
  cases hd : first.redeclare { kind, root, item := d', span := span', data } with
  | kept => rfl
  | _ =>
    rw [hd] at hkept
    cases hkept

theorem Action.mem_of_unplaced (h : unplaced d' = unplaced d) {a' : Action} (ha : a' ∈ d'.actions) :
    ∃ a ∈ d.actions, unplaced a' = unplaced a := by
  have hsteady := Span.steady_const .nowhere
  have hactions : unplaced d'.actions = unplaced d.actions :=
    (Stmt.actions_move hsteady d').symm.trans ((congrArg Stmt.actions h).trans (Stmt.actions_move hsteady d))
  have hmem : unplaced a' ∈ unplaced d'.actions := List.mem_map_of_mem ha
  rw [hactions] at hmem
  obtain ⟨a, ha, heq⟩ := List.mem_map.mp hmem
  exact ⟨a, ha, heq.symm⟩

section

variable (hw : Stmt.WholeAll items) (ha : ScopeErrors.Accepted (Scope.ofItems items).errors)
include hw ha

/-- All types are known when the items have been looked at once. -/
theorem Survey.isType_of_mentions {i : Nat} {item : Stmt} (hi : items[i]? = some item) {name : Token} {kind : SymbolKind}
    {data : SymbolData} {refs : TypeRefs} (henter : .enter name kind data refs ∈ item.actions) :
    ∃ first, (Survey.declareItems {} 0 items).scope.get? name.text = some first ∧
      first.redeclare { kind, root := i, item, span := name.span, data } = .kept ∧
        ∀ m ∈ refs.map (·.1), (Survey.declareItems {} 0 items).scope.IsType m := by
  have htabled := Survey.tabled_declareItems items
  have hcomplete := Scope.complete_ofItems hw ha
  have hbad : ¬ Bad items (Survey.declareItems {} 0 items).errors := fun h =>
    Survey.not_bad (fun item h => (hw.get item h).isBroken) ha.not_fatal (h.imp fatal_resolveAll id)
  obtain ⟨first, hfirst, hkept, -⟩ := htabled.covers hbad (Stmt.mem_tasks.mpr ⟨item, hi, henter⟩) hi
  refine ⟨first, hfirst, hkept, fun m hm => ?_⟩
  obtain ⟨e, he, hkept, -⟩ := hcomplete.covers hi henter
  rw [Stmt.refs_of_enter item henter] at hm
  have hmentions : m ∈ e.data.mentions := (Entry.mentions_of_kept hkept).symm ▸ hm
  rcases (Survey.tabled_ofItems items).typed he (hcomplete.kind he) with htypes | hnone
  · -- What is a type in the end has been entered as one.
    obtain ⟨e', he', hk⟩ := htypes m hmentions
    obtain ⟨hroot, name', refs', rfl, henter'⟩ := hcomplete.owner he'
    rw [hk] at henter'
    obtain ⟨first', hfirst', hkept', -⟩ := htabled.covers hbad (Stmt.mem_tasks.mpr ⟨_, hroot, henter'⟩) hroot
    exact ⟨first', hfirst', (Entry.kind_of_kept hkept' fun h => by cases h).1⟩
  · cases hnone

theorem Survey.declareItem_restated (hd : d ∈ items) (hsame : unplaced d' = unplaced d) (root : Nat) :
    (Survey.declareItems {} 0 items).declareItem root d' = Survey.declareItems {} 0 items := by
  rw [Survey.declareItem_eq]
  refine List.foldlRecOn (motive := (· = _)) d'.actions _ rfl fun s hs a' ha' => ?_
  subst hs
  obtain ⟨a, hmem, hunplaced⟩ := Action.mem_of_unplaced hsame ha'
  obtain ⟨i, hi⟩ := List.getElem?_of_mem hd
  cases a with
  | report e => exact absurd hmem ((Scope.complete_ofItems hw ha).silent hd e)
  | enter name kind data refs =>
    cases a' with
    | report e => cases hunplaced
    | enter name' kind' data' refs' =>
      obtain ⟨hname, rfl, rfl, hrefs⟩ := Action.enter.inj hunplaced
      obtain ⟨first, hfirst, hkept, htypes⟩ := isType_of_mentions hw ha hi hmem
      have htext : name'.text = name.text := (congrArg Token.text hname :)
      have hrefs' : refs'.map (·.1) = refs.map (·.1) := by
        simpa [Placed.move, Function.comp_def] using congrArg (List.map Prod.fst) hrefs
      have hresolve := @Scope.resolve_of_types (Survey.declareItems {} 0 items).scope false refs' fun p hp =>
        htypes p.1 (hrefs' ▸ List.mem_map_of_mem hp)
      show (Survey.declareItems {} 0 items).declareWith name'.text _ refs' = _
      unfold declareWith
      rw [hresolve]
      dsimp only
      unfold declare Scope.declare
      simp only [report_nil, hfirst, Entry.redeclare_unplaced hsame hkept, htext]

theorem Scope.ofItems_restated (hd : d ∈ items) (hsame : unplaced d' = unplaced d) :
    Scope.ofItems (items ++ [d']) = Scope.ofItems items := by
  unfold Scope.ofItems
  rw [Survey.declareItems_append, Survey.declareItem_restated hw ha hd hsame]

end

/-! ## Code that is made again -/

/-- What was made without errors leaves no note where it is made again and all its texts are known. -/
def Lower.Parallel.again (m : Notes) : Parallel id where
  along n' _ := n' = m
  clean n := n.Accepted ∧ n.strings.texts <+: m.strings.texts
  report := by
    intro n' n e he h
    cases he.symm.trans ((ensures_report e).clean n trivial h.1).2
  intern := by
    intro n' n text h
    obtain ⟨hgrows, i, hlabel, hplace⟩ := n.strings.intern_spec text
    have hknown := (m.strings.get?_places text i).mpr (hplace _ h.2)
    have hagain : m.strings.intern text = (StringTable.label i, m.strings) := by
      unfold StringTable.intern
      split
      next j hj =>
        cases hj.symm.trans hknown
        rfl
      next hnone => cases hnone.symm.trans hknown
    refine ⟨⟨h.1, hgrows.trans h.2⟩, ?_⟩
    rintro rfl
    show (n'.strings.intern text).1 = (n.strings.intern text).1 ∧ { n' with strings := (n'.strings.intern text).2 } = n'
    rw [hagain, hlabel]
    exact ⟨rfl, rfl⟩

theorem Lower.Moves.again {α : Type} [Placed α] {m n : Notes} {x : Lower α} (hx : Moves (.again m) x x)
    (hclean : (Parallel.again m).clean (x n).2) : x m = ((x n).1, m) := by
  obtain ⟨hresult, hnotes⟩ := hx.along (n := n) rfl hclean
  exact Prod.ext (hresult.trans (move_id _)) hnotes

/-- The values of a declaration of several names. -/
def lowerValues (env : Env) (names : List Token) (values : ExprList) : Lower Produced := do
  let p ← values.lower env
  checkCount names.length p.values values
  return p

/-- The values of each declaration have been computed once with the globals, so that they are computed again without a note. -/
theorem lowerValues_of_initItems {ctx : GlobalContext} {m : Notes} {t : Token} {names : List Token} {types : TypeList}
    {values : ExprList} (hd : .declareManyAs t names types values ∈ items) (root : Nat) (slots : List UInt64) (n : Notes)
    (h : (Parallel.again m).clean (initItems ctx root slots items n).2) : ∃ p, lowerValues ctx.env names values m = (p, m) := by
  have hmoves : Moves (.again m) (lowerValues ctx.env names values) (lowerValues ctx.env names values) := by
    have hlower := moves_lowerAll (K := .again m) Span.steady_id ctx.env values.items
    have hcount := fun p : Produced => moves_checkCount (K := .again m) Span.steady_id names.length p.values values
    simp only [move_id] at hlower hcount
    exact moves_bind hlower fun p => moves_bind (hcount p) fun _ => moves_pure rfl
  induction items generalizing root slots n with
  | nil => cases hd
  | cons item items ih =>
    rcases List.mem_cons.mp hd with rfl | hd
    · exact ⟨_, hmoves.again ((moves_initItems Span.steady_id ctx (root + 1) slots items).clean _ h)⟩
    · exact ih hd (root + 1) _ _ h

/-! ## Programs -/

theorem Lower.bind_run {α β : Type} {x : Lower α} {k : α → Lower β} {n n' : Notes} {a : α} (h : x n = (a, n')) :
    (x >>= k) n = k a n' := by
  show k (x n).1 (x n).2 = _
  rw [h]

section

variable {scope : Scope} {root : Nat} (hroot : ∀ x e, scope.get? x = some e → e.root ≠ root)
include hroot

theorem Layout.place_eq (l : Layout) (name : Token) : place scope root l name = l := by
  unfold place
  split
  · rfl
  next e he => exact if_neg fun h => hroot _ e he h.2

theorem Layout.offsetFor?_eq_none (l : Layout) (name : Token) : l.offsetFor? scope root name = none := by
  unfold offsetFor?
  split
  · rfl
  next e he => exact if_neg fun h => hroot _ e he h.2

theorem lowerItem_eq_none (layout : Layout) (env : Env) (item : Stmt) :
    lowerItem ⟨scope, layout, env⟩ root item = pure none := by
  have hnone : ∀ name, lowerItem.signatureFor? ⟨scope, layout, env⟩ root name = none := by
    intro name
    unfold lowerItem.signatureFor?
    split
    · rfl
    next e he => exact if_neg fun h => hroot _ e he h.2
  unfold lowerItem
  split
  · rw [hnone]
  · rw [hnone]
  · rfl

end

theorem Layout.placeItems_append (scope : Scope) (root : Nat) (l : Layout) (items : List Stmt) (item : Stmt) :
    placeItems scope root l (items ++ [item]) =
      item.variables.foldl (place scope (root + items.length)) (placeItems scope root l items) := by
  induction items generalizing root l with
  | nil => rfl
  | cons first items ih =>
    rw [List.cons_append, placeItems, ih, placeItems, List.length_cons, Nat.add_right_comm]
    rfl

theorem initItems_append (ctx : GlobalContext) (root : Nat) (slots : List UInt64) (items : List Stmt) (item : Stmt) :
    initItems ctx root slots (items ++ [item]) = initItems ctx root slots items >>= fun r =>
      initItem ctx (root + items.length) item r.1 >>= fun r' => pure (r'.1, r.2 ++ r'.2) := by
  induction items generalizing root slots with
  | nil => simp [initItems]
  | cons first items ih =>
    simp only [List.cons_append, initItems, ih, bind_assoc, pure_bind, List.length_cons, List.append_assoc,
      Nat.add_right_comm root 1, Nat.add_assoc]

theorem lowerItems_append (ctx : GlobalContext) (root : Nat) (items : List Stmt) (item : Stmt) :
    lowerItems ctx root (items ++ [item]) = lowerItems ctx root items >>= fun fs =>
      lowerItem ctx (root + items.length) item >>= fun f? => pure (fs ++ f?.toList) := by
  induction items generalizing root with
  | nil => simp [lowerItems]
  | cons first items ih =>
    simp only [List.cons_append, lowerItems, ih, bind_assoc, pure_bind, List.length_cons, List.append_assoc,
      Nat.add_right_comm root 1, Nat.add_assoc]

namespace Program

theorem foldl_insert_init (init : Function) (fs : List Function) (p : Program) :
    fs.foldl insert { p with init } = { fs.foldl insert p with init } := by
  induction fs generalizing p with
  | nil => rfl
  | cons f fs ih => exact ih (p.insert f)

theorem parts_eq {ctx : GlobalContext} {globals : List UInt64} {code : List Command} {m : Notes}
    (h : initItems ctx 0 (List.replicate ctx.layout.slots 0) items {} = ((globals, code), m)) :
    parts ctx items {} = ((globals, code, (lowerItems ctx 0 items m).1), (lowerItems ctx 0 items m).2) :=
  Lower.bind_run h

/-- An item that no entry comes from adds nothing but the code of its values. -/
theorem ofItems_append {scope : Scope} {item : Stmt} {globals : List UInt64} {code more : List Command} {m : Notes}
    (hroot : ∀ x e, scope.get? x = some e → e.root ≠ items.length)
    (hinit : initItems (.ofItems items scope) 0 (List.replicate (Layout.ofItems scope items).slots 0) items {} =
      ((globals, code), m))
    (hitem : ∀ slots, initItem (.ofItems items scope) items.length item slots m = ((slots, more), m)) :
    (ofItems items scope).program.init = setup (Layout.ofItems scope items).slots code ∧
      ofItems (items ++ [item]) scope = { ofItems items scope with program := { (ofItems items scope).program with
        init := setup (Layout.ofItems scope items).slots (code ++ more) } } := by
  have hlayout : Layout.ofItems scope (items ++ [item]) = Layout.ofItems scope items := by
    unfold Layout.ofItems
    rw [Layout.placeItems_append, Nat.zero_add]
    exact List.foldlRecOn (motive := (· = _)) _ _ rfl fun _ h name _ => h ▸ Layout.place_eq hroot _ name
  have hcontext : GlobalContext.ofItems (items ++ [item]) scope = .ofItems items scope := by
    unfold GlobalContext.ofItems
    rw [hlayout]
  have hmore : initItems (.ofItems items scope) 0 (List.replicate (Layout.ofItems scope items).slots 0) (items ++ [item]) {} =
      ((globals, code ++ more), m) := by
    rw [initItems_append, Nat.zero_add, Lower.bind_run hinit]
    exact Lower.bind_run (hitem globals)
  have hfunctions : lowerItems (.ofItems items scope) 0 (items ++ [item]) = lowerItems (.ofItems items scope) 0 items := by
    rw [lowerItems_append, Nat.zero_add, GlobalContext.ofItems, lowerItem_eq_none hroot]
    simp
  rw [ofItems_eq, ofItems_eq, hcontext, hlayout, parts_eq hinit, parts_eq hmore, hfunctions]
  dsimp only
  rw [← foldl_insert_init]
  exact ⟨(foldl_insert_parts ..).1, rfl⟩

end Program

/-! ## Texts -/

section

variable {scope : Scope} {root : Nat} (hroot : ∀ x e, scope.get? x = some e → e.root ≠ root) (layout : Layout) (env : Env)
include hroot

theorem initItem_restated {item : Stmt} (hswap : item.isSwap = false)
    (hmany : ∀ t names types values, item ≠ .declareManyAs t names types values) (slots : List UInt64) :
    initItem ⟨scope, layout, env⟩ root item slots = pure (slots, []) := by
  cases item with
  | declareAs name ty value =>
    unfold initItem
    dsimp only
    rw [Layout.offsetFor?_eq_none hroot]
  | declareManyAs t names types values => exact absurd rfl (hmany t names types values)
  | swap => cases hswap
  | _ => rfl

/-- Values that nobody wants are dropped. -/
theorem initItem_restated_many {m : Notes} {t : Token} {names : List Token} {types : TypeList} {values : ExprList} {p : Produced}
    (hp : lowerValues env names values m = (p, m)) (slots : List UInt64) :
    initItem ⟨scope, layout, env⟩ root (.declareManyAs t names types values) slots m =
      ((slots, p.code ++ names.flatMap fun name => popCommands 1 name.span), m) := by
  unfold initItem
  dsimp only
  simp only [Layout.offsetFor?_eq_none hroot]
  exact Lower.bind_run (k := fun p => pure (slots, p.code ++ _)) hp

end

/-- What becomes of a program when `d` is stated again: nothing, unless `d` gives values to several names. Then the values
are computed once more when all globals have been set up, and dropped. -/
def Program.Restates (p : Program) (env : Env) (d : Stmt) (p' : Program) : Prop :=
  match d with
  | .declareManyAs _ names _ values => ∃ slots code again notes, p.init = setup slots code ∧
      lowerValues env names values notes = (again, notes) ∧ p' = { p with
        init := setup slots (code ++ (again.code ++ names.flatMap fun name => popCommands 1 name.span)) }
  | _ => p' = p

theorem Program.ofItems_restated {scope : Scope} (hw : Stmt.WholeAll items) (hs : ∀ p ∈ scope, p.2.OK items p.1)
    (hroot : ∀ x e, scope.get? x = some e → e.root ≠ items.length)
    (hc : ∀ e ∈ (ofItems items scope).errors, e.diagnostic.isWarning = true) (hd : d ∈ items) (hswap : d.isSwap = false) :
    ∃ p, ofItems (items ++ [d]) scope = { ofItems items scope with program := p } ∧
      (ofItems items scope).program.Restates (GlobalContext.ofItems items scope).env d p := by
  rcases hinit : initItems (.ofItems items scope) 0 (List.replicate (Layout.ofItems scope items).slots 0) items {} with
    ⟨⟨globals, code⟩, m⟩
  by_cases hmany : ∀ t names types values, d ≠ .declareManyAs t names types values
  · obtain ⟨hsetup, happend⟩ := ofItems_append hroot hinit fun slots =>
      congrFun (initItem_restated hroot _ _ hswap hmany slots) _
    rw [List.append_nil, ← hsetup] at happend
    refine ⟨_, happend, ?_⟩
    unfold Restates
    split
    · exact absurd rfl (hmany _ _ _ _)
    · rfl
  · simp only [not_forall, not_not] at hmany
    obtain ⟨t, names, types, values, rfl⟩ := hmany
    have hclean : (Parallel.again m).clean
        (initItems (.ofItems items scope) 0 (List.replicate (Layout.ofItems scope items).slots 0) items {}).2 := by
      have hitems := ensures_conforms_items hs hw 0 fun i item hi => by rwa [Nat.zero_add]
      rw [ofItems_eq, parts_eq hinit] at hc
      rw [hinit]
      exact ⟨(hitems.clean m trivial hc).1, List.prefix_rfl⟩
    obtain ⟨p, hp⟩ := lowerValues_of_initItems hd 0 _ _ hclean
    obtain ⟨hsetup, happend⟩ := ofItems_append hroot hinit fun slots => initItem_restated_many hroot _ _ hp slots
    exact ⟨_, happend, _, code, p, m, hsetup, hp, rfl⟩

/-! ## Texts -/

theorem Rule.advancing_fst {α : Type} (x : Rule α) (s : ParseState) : (advancing x s).1 = (x s).1 := by
  show ((if (x s).2.rest.length = s.rest.length then do take 1; return (x s).1 else return (x s).1 : Rule α) (x s).2).1 = _
  split <;> rfl

/-- No item begins with a semicolon. -/
theorem exists_missing {t stop : Token} {ts : List Token} (htext : Text (t :: ts) stop) (ht : t.kind = .symbol .semicolon) :
    ∃ t', .missing t' ∈ (TokenList.parse ⟨t :: ts, stop⟩).roots := by
  obtain ⟨a, left, errors, hleft, -, hrun, -⟩ := Rules.advancing_item htext
  have hitem : Rules.whole.item ⟨t :: ts, stop, [], false⟩ = Rule.missingDeclaration ⟨t :: ts, stop, [], false⟩ := by
    unfold Rules.item
    rw [Rules.peek_bind]
    simp only [List.headD_cons, ht]
  have ha : (Rules.whole.item ⟨t :: ts, stop, [], false⟩).1 = a := by
    have hfst := congrArg Prod.fst (hrun [])
    rwa [Rule.advancing_fst, Rules.itemOrSkip_eq, Rules.orSkip_eq] at hfst
  rw [parse_cons (List.cons_ne_nil t ts) hleft (hrun []), ← ha, hitem]
  exact ⟨_, List.mem_cons_self⟩

/-- A text without errors falls into the tokens of its items. -/
theorem exists_parts {ts : List Token} {stop : Token} (htext : Text ts stop) (herrors : (TokenList.parse ⟨ts, stop⟩).errors = []) :
    ∃ parts : List (List Token × Stmt), ts = parts.flatMap (·.1) ∧ (TokenList.parse ⟨ts, stop⟩).roots = parts.map (·.2) ∧
      ∀ p ∈ parts, TokenList.parse ⟨p.1, stop⟩ = ⟨[p.2], []⟩ := by
  induction hn : ts.length using Nat.strongRecOn generalizing ts with
  | ind n ih =>
    subst hn
    cases ts with
    | nil =>
      rw [parse_nil htext.stop]
      exact ⟨[], rfl, rfl, List.forall_mem_nil _⟩
    | cons t ts =>
      obtain ⟨a, left, errors, hleft, hlength, hrun, hclean⟩ := Rules.advancing_item htext
      rw [parse_cons (List.cons_ne_nil t ts) hleft (hrun [])] at herrors ⊢
      obtain ⟨hnone, hrest⟩ := List.append_eq_nil_iff.mp herrors
      obtain ⟨q, hq, hne, hitem⟩ := hclean hnone
      obtain ⟨parts, hparts, hroots, hread⟩ := ih _ hlength hleft hrest rfl
      have hnil : Text [] stop := .nil htext.stop
      have halone := hitem [] stop [] hnil (.inr (by rw [List.headD_nil, htext.stop]; rfl))
      rw [List.append_nil] at halone
      refine ⟨(q, a) :: parts, by rw [hq, hparts]; rfl, by rw [hroots]; rfl, List.forall_mem_cons.mpr ⟨?_, hread⟩⟩
      rw [parse_cons hne hnil (Rule.advancing_eq halone (by simp [Ne.symm, hne])), parse_nil htext.stop]
      rfl

theorem TokenList.InRow.left {ts us : List Token} {stop : Token} (h : InRow ⟨ts ++ us, stop⟩) : InRow ⟨ts, stop⟩ := by
  have hall : (all ⟨ts, stop⟩).Sublist (all ⟨ts ++ us, stop⟩) := (List.sublist_append_left ts us).append_right [stop]
  exact ⟨fun t ht => h.wide t (List.mem_append_left us ht), h.stop, h.apart.sublist hall,
    fun t ht t' ht' => h.place t (hall.subset ht) t' (hall.subset ht')⟩

theorem ScopeError.isWarning_move (f : Span → Span) (e : ScopeError) : (move f e).isWarning = e.isWarning := by
  cases e <;> rfl

theorem ScopeErrors.accepted_unplaced {errors errors' : List ScopeError} (h : unplaced errors' = unplaced errors)
    (ha : ScopeErrors.Accepted errors) : ScopeErrors.Accepted errors' := by
  intro e he
  have hmem : unplaced e ∈ unplaced errors := h ▸ List.mem_map_of_mem he
  obtain ⟨e', he', heq⟩ := List.mem_map.mp hmem
  rw [← e.isWarning_move fun _ => .nowhere, show move _ e = _ from heq.symm, ScopeError.isWarning_move]
  exact ha e' he'

theorem Stmt.WholeAll.left {ss : List Stmt} (h : Stmt.WholeAll (ss ++ [d])) : Stmt.WholeAll ss := by
  induction ss with
  | nil => exact .nil
  | cons s ss ih =>
    cases h with
    | cons h hs => exact .cons h (ih hs)

theorem Program.unplaced_ofItems {items items' : List Stmt} {scope scope' : Scope} (hitems : unplaced items' = unplaced items)
    (hscope : unplaced scope' = unplaced scope) :
    unplaced (ofItems items' scope').errors = unplaced (ofItems items scope).errors ∧
      unplaced (ofItems items' scope').program = unplaced (ofItems items scope).program := by
  obtain ⟨herrors, hprogram⟩ := ofItems_move (Span.steady_const .nowhere) items scope
  obtain ⟨herrors', hprogram'⟩ := ofItems_move (Span.steady_const .nowhere) items' scope'
  unfold unplaced at *
  rw [hitems, hscope] at herrors' hprogram'
  exact ⟨herrors'.symm.trans herrors, hprogram'.symm.trans hprogram⟩

theorem exists_parse {ts ts' : TokenList} {roots : List Stmt} (hstop : ts.stop.kind = .eof) (h : unplaced ts' = unplaced ts)
    (hparse : ts.parse = ⟨roots, []⟩) : ∃ roots', ts'.parse = ⟨roots', []⟩ ∧ unplaced roots' = unplaced roots := by
  have hsame := unplaced_parse hstop h
  rw [hparse] at hsame
  obtain ⟨hroots, herrors⟩ := Parsed.mk.inj hsame
  exact ⟨ts'.parse.roots, congrArg (Parsed.mk _) (List.map_eq_nil_iff.mp herrors), hroots⟩

/-- The tokens of a text at other places, and those of one of its items behind them. -/
theorem parse_restated {ts us : TokenList} {item : List Token} {roots : List Stmt} (hstop : ts.stop.kind = .eof)
    (hparse : ts.parse = ⟨roots, []⟩) (hw : d.Whole) (hitem : TokenList.parse ⟨item, ts.stop⟩ = ⟨[d], []⟩)
    (hus : Text us.tokens us.stop) (h : unplaced us = unplaced (⟨ts.tokens ++ item, ts.stop⟩ : TokenList)) :
    ∃ ts' item' d', us.tokens = ts' ++ item' ∧ unplaced (⟨ts', us.stop⟩ : TokenList) = unplaced ts ∧
      unplaced d' = unplaced d ∧ us.parse = ⟨(TokenList.parse ⟨ts', us.stop⟩).roots ++ [d'], []⟩ := by
  obtain ⟨htokens, hsame⟩ := TokenList.mk.inj h
  obtain ⟨ts', item', hsplit, hts', hitem'⟩ := List.map_eq_append_iff.mp (htokens.trans (move_append _ ts.tokens item))
  obtain ⟨tokens, stop⟩ := us
  obtain rfl : tokens = ts' ++ item' := hsplit
  have hthere : unplaced (⟨ts', stop⟩ : TokenList) = unplaced ts := (TokenList.mk.injEq ..).mpr ⟨hts', hsame⟩
  obtain ⟨roots', hread, -⟩ := exists_parse hstop hthere hparse
  obtain ⟨_, hlast, hd⟩ := @exists_parse ⟨item, ts.stop⟩ ⟨item', stop⟩ _ hstop
    ((TokenList.mk.injEq ..).mpr ⟨hitem', hsame⟩) hitem
  obtain ⟨d', rfl, hd'⟩ := List.map_eq_singleton_iff.mp hd
  -- the copy does not begin with a semicolon, which would belong to what is before it
  have hnext : (item'.headD stop).kind.continues false = false := by
    cases item' with
    | nil =>
      rw [List.headD_nil, hus.stop]
      rfl
    | cons t rest =>
      refine Bool.eq_false_iff.mpr fun hcontinues => ?_
      have ht : t.kind = .symbol .semicolon := by
        rw [List.headD_cons] at hcontinues
        unfold TokenKind.continues at hcontinues
        split at hcontinues
        · cases hcontinues
        · assumption
        · cases hcontinues
      obtain ⟨t', ht'⟩ := exists_missing hus.right ht
      rw [hlast] at ht'
      cases List.mem_singleton.mp ht'
      cases d with
      | missing t => cases hw
      | _ => cases hd'
  refine ⟨ts', item', d', rfl, hthere, hd', ?_⟩
  rw [parse_append hus.left (by rw [hread]) hus.right hnext, hlast]

/-- What becomes of the items at other places, if one of them comes once more behind them. -/
theorem restated_elsewhere {items' : List Stmt} (hw : Stmt.WholeAll items) (ha : ScopeErrors.Accepted (Scope.ofItems items).errors)
    (hc : ∀ e ∈ (Program.ofItems items (Scope.ofItems items).scope).errors, e.diagnostic.isWarning = true) (hd : d ∈ items)
    (hswap : d.isSwap = false) (hw' : Stmt.WholeAll items') (hitems : unplaced items' = unplaced items)
    (hscope : unplaced (Scope.ofItems items') = unplaced (Scope.ofItems items)) (hd' : unplaced d' = unplaced d) :
    Scope.ofItems (items' ++ [d']) = Scope.ofItems items' ∧
      ∃ p, (Program.ofItems items (Scope.ofItems items).scope).program.Restates
          (GlobalContext.ofItems items (Scope.ofItems items).scope).env d p ∧
        unplaced (Program.ofItems (items' ++ [d']) (Scope.ofItems items').scope).program = unplaced p ∧
        unplaced (Program.ofItems (items' ++ [d']) (Scope.ofItems items').scope).errors =
          unplaced (Program.ofItems items (Scope.ofItems items).scope).errors := by
  have hroot : ∀ x e, (Scope.ofItems items).scope.get? x = some e → e.root ≠ items.length := by
    intro x e he
    have hitem := ((Scope.complete_ofItems hw ha).owner he).1
    exact Nat.ne_of_lt (List.getElem?_eq_some_iff.mp hitem).1
  obtain ⟨hscope, herrors⟩ := Analysis.mk.inj hscope
  obtain ⟨d₁, hd₁, hsame⟩ : ∃ d₁ ∈ items', unplaced d' = unplaced d₁ := by
    have hmem : unplaced d ∈ unplaced items' := hitems ▸ List.mem_map_of_mem hd
    obtain ⟨d₁, hd₁, heq⟩ := List.mem_map.mp hmem
    exact ⟨d₁, hd₁, hd'.trans heq.symm⟩
  have hall : unplaced (items' ++ [d']) = unplaced (items ++ [d]) := by
    unfold unplaced at *
    rw [move_append, move_append, hitems, move_cons, move_cons, hd']
  obtain ⟨p, hp, hrestates⟩ := Program.ofItems_restated hw (entries_ok hw ha) hroot hc hd hswap
  obtain ⟨herrors', hprogram⟩ := Program.unplaced_ofItems hall hscope
  rw [hp] at herrors' hprogram
  exact ⟨Scope.ofItems_restated hw' (ScopeErrors.accepted_unplaced herrors ha) hd₁ hsame, p, hrestates, hprogram, herrors'⟩

theorem Tiles.isText {source : String} {offset : Nat} {stop : Token} {ts : List Token} (h : Tiles source offset stop ts) :
    Text ts stop := by
  induction ts generalizing offset with
  | nil => exact .nil h.2.2.1
  | cons t ts ih =>
    obtain ⟨-, -, hkind, -, hrest⟩ := h
    have hfirst : ∀ u ∈ [t], u.kind ≠ .eof := List.forall_mem_singleton.mpr hkind
    show Text ([t] ++ ts) stop
    exact .append hfirst (ih hrest)

theorem SourceUnit.unplaced_errors {u u' : SourceUnit} (hparsed : unplaced u'.parsed.errors = unplaced u.parsed.errors)
    (hanalysis : unplaced u'.analysis.errors = unplaced u.analysis.errors)
    (hlowered : unplaced u'.lowered.errors = unplaced u.lowered.errors) : unplaced u'.errors = unplaced u.errors := by
  unfold unplaced at *
  rw [← errors_move, ← errors_move]
  show (move _ u'.parsed.errors).map CompileError.parse ++ (move _ u'.analysis.errors).map CompileError.scope ++
    (move _ u'.lowered.errors).map CompileError.code = _
  rw [hparsed, hanalysis, hlowered]
  rfl

theorem compile_of_unplaced {name source source' : String} {c : Compilation} (h : compile name source = .ok c)
    (herrors : unplaced (SourceUnit.ofSource source').errors = unplaced (SourceUnit.ofSource source).errors) :
    ∃ c', compile name source' = .ok c' ∧ c'.program = (SourceUnit.ofSource source').lowered.program ∧
      unplaced c'.warnings = unplaced c.warnings := by
  have hfatal := CompileError.any_isFatal_move (fun _ => .nowhere) (SourceUnit.ofSource source').errors
  rw [show move _ _ = _ from herrors, unplaced, CompileError.any_isFatal_move] at hfatal
  unfold compile at h ⊢
  dsimp only at h ⊢
  rw [← hfatal]
  split at h
  · cases h
  next hnone =>
    cases h
    rw [if_neg hnone]
    exact ⟨_, rfl, rfl, herrors⟩

/-- **Stating a declaration again changes nothing, unless it gives values to several names.** The tokens of a text that is
compiled are those of its items, one after the other. With those of one of them once more at its end, it is compiled with
the same warnings to the same program, but for the values that are computed again. -/
theorem compile_restated {name source : String} {c : Compilation} (h : compile name source = .ok c) :
    ∃ parts : List (List Token × Stmt), (scan source).tokens = parts.flatMap (·.1) ∧ (parse source).roots = parts.map (·.2) ∧
      ∀ part d, (part, d) ∈ parts → TokenList.parse ⟨part, (scan source).stop⟩ = ⟨[d], []⟩ ∧ (d.isSwap = false →
        ∀ source', unplaced (scan source').tokens = unplaced ((scan source).tokens ++ part) →
          ∃ c' p, compile name source' = .ok c' ∧ unplaced c'.warnings = unplaced c.warnings ∧ unplaced c'.program = unplaced p ∧
            c.program.Restates (GlobalContext.ofItems (parse source).roots (Scope.ofItems (parse source).roots).scope).env d p) := by
  obtain ⟨hprogram, hparse, hscope, hcode⟩ := of_compile h
  have hw := whole_of_parse hparse
  obtain ⟨parts, hparts, hmap, hread⟩ := exists_parts (Tiles.ofSource source).isText hparse
  refine ⟨parts, hparts, hmap, fun part d hpart => ⟨hread (part, d) hpart, fun hswap source' hsource => ?_⟩⟩
  have hitem := hread (part, d) hpart
  have hd : d ∈ (parse source).roots := hmap ▸ List.mem_map_of_mem hpart
  have hroots : (scan source).parse = ⟨(parse source).roots, []⟩ := congrArg (Parsed.mk _) hparse
  have hsame : unplaced (scan source') = unplaced (⟨(scan source).tokens ++ part, (scan source).stop⟩ : TokenList) :=
    (TokenList.mk.injEq ..).mpr ⟨hsource, (Cursor.unplaced_stop _).trans (Cursor.unplaced_stop _).symm⟩
  obtain ⟨ts', part', d', htokens, hthere, hd', hparse'⟩ :=
    parse_restated (scan_stop source) hroots (hw.get d hd) hitem (Tiles.ofSource source').isText hsame
  have hrow : TokenList.InRow ⟨ts', (scan source').stop⟩ := by
    have hrow := scan_inRow source'
    rw [show scan source' = ⟨ts' ++ part', (scan source').stop⟩ from congrArg (TokenList.mk · _) htokens] at hrow
    exact hrow.left
  have hunit := SourceUnit.unplaced_ofTokens (scan_inRow source) hrow (scan_stop source) hthere
  generalize hitems : (TokenList.parse ⟨ts', (scan source').stop⟩).roots = items at hparse'
  have hw' : Stmt.WholeAll (items ++ [d']) := by
    have hw' := @whole_of_parse source' (congrArg Parsed.errors hparse')
    rwa [show (parse source').roots = items ++ [d'] from congrArg Parsed.roots hparse'] at hw'
  have hanalysis : unplaced (Scope.ofItems items) = unplaced (Scope.ofItems (parse source).roots) :=
    hitems ▸ (congrArg (·.analysis) hunit :)
  obtain ⟨hscope', p, hrestates, hprogram', herrors'⟩ := restated_elsewhere hw hscope hcode hd hswap hw'.left
    (hitems ▸ (congrArg (·.parsed.roots) hunit :)) hanalysis hd'
  have hunit' : SourceUnit.ofSource source' = ⟨⟨items ++ [d'], []⟩, Scope.ofItems items,
      Program.ofItems (items ++ [d']) (Scope.ofItems items).scope⟩ := by
    unfold SourceUnit.ofSource
    rw [show parse source' = _ from hparse']
    dsimp only
    rw [hscope']
  have herrors : unplaced (SourceUnit.ofSource source').errors = unplaced (SourceUnit.ofSource source).errors := by
    rw [hunit']
    exact SourceUnit.unplaced_errors (congrArg unplaced hparse.symm) (congrArg (·.errors) hanalysis :) herrors'
  obtain ⟨c', hc', hprogram'', hwarnings⟩ := compile_of_unplaced h herrors
  refine ⟨c', p, hc', hwarnings, ?_, hprogram ▸ hrestates⟩
  rw [hprogram'', hunit']
  exact hprogram'

/-- A declaration of two names with their values. -/
def pairSource : String := "a, b : u64 = 1, 2; "

theorem compile_restated_pair : ∃ c c' p d, compile "" pairSource = .ok c ∧ d ∈ (parse pairSource).roots ∧
    compile "" (pairSource ++ pairSource) = .ok c' ∧ unplaced c'.program = unplaced p ∧ c.program.Restates
      (GlobalContext.ofItems (parse pairSource).roots (Scope.ofItems (parse pairSource).roots).scope).env d p := by
  have hrun : (SourceUnit.ofSource pairSource).errors.any CompileError.isFatal = false ∧
      (parse pairSource).roots.map Stmt.isSwap = [false] ∧
      unplaced (scan (pairSource ++ pairSource)).tokens = unplaced ((scan pairSource).tokens ++ (scan pairSource).tokens) := by
    decide +kernel
  obtain ⟨hfatal, hswap, htokens⟩ := hrun
  obtain ⟨c, h, -⟩ := compile_of_errors "" hfatal
  obtain ⟨parts, hparts, hroots, hall⟩ := compile_restated h
  obtain ⟨d, hd, hswap⟩ := List.map_eq_singleton_iff.mp hswap
  obtain ⟨⟨part, d⟩, rfl, rfl⟩ := List.map_eq_singleton_iff.mp (hroots.symm.trans hd)
  obtain rfl : (scan pairSource).tokens = part := by simpa using hparts
  obtain ⟨c', p, h', -, hprogram, hrestates⟩ := (hall _ d List.mem_cons_self).2 hswap _ htokens
  exact ⟨c, c', p, d, h, hd ▸ List.mem_cons_self, h', hprogram, hrestates⟩

/-- The values are computed once more, so that the program is not the same. -/
theorem pair_computed_again : ∃ c c', compile "" pairSource = .ok c ∧ compile "" (pairSource ++ pairSource) = .ok c' ∧
    unplaced c'.program ≠ unplaced c.program := by
  have hrun : (SourceUnit.ofSource pairSource).errors.any CompileError.isFatal = false ∧
      (SourceUnit.ofSource (pairSource ++ pairSource)).errors.any CompileError.isFatal = false ∧
      (unplaced (SourceUnit.ofSource (pairSource ++ pairSource)).lowered.program).init.code.size ≠
        (unplaced (SourceUnit.ofSource pairSource).lowered.program).init.code.size := by
    decide +kernel
  obtain ⟨c, h, hprogram⟩ := compile_of_errors "" hrun.1
  obtain ⟨c', h', hprogram'⟩ := compile_of_errors "" hrun.2.1
  refine ⟨c, c', h, h', fun heq => hrun.2.2 ?_⟩
  rw [← hprogram, ← hprogram', heq]

end Wordstack
