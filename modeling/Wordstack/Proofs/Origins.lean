/-
Which item the entry of a name comes from. In an accepted program of functions and
variables of one word, a function is what its first definition says, and a variable what
the first item says that gives it a value; without one, its first declaration counts.
-/
import Wordstack.Proofs.Agreement
import Wordstack.Proofs.ScopeFacts

namespace Wordstack

variable {s : Stmt} {x : String}

/-! ## What an item says about a name -/

/-- The name that an item declares. -/
def Stmt.declaredName? : Stmt → Option String
  | .declare t _ | .declareAs t _ _ | .define t _ _ _ => some t.text
  | _ => none

/-- An item declares `x` as a variable. -/
def Stmt.IsVariable (x : String) (s : Stmt) : Prop := s.variableName? = some x ∨ (s.initial? x).isSome = true

theorem Stmt.of_declaredName?_ne (h : s.declaredName? ≠ some x) :
    s.routine? x = none ∧ s.initial? x = none ∧ ¬ s.IsVariable x := by
  cases s with
  | declare t ty | declareAs t ty e | define t ty brace body =>
    have hne : t.text ≠ x := by simpa [declaredName?] using h
    simp [routine?, initial?, IsVariable, variableName?, hne]
  | _ => simp [routine?, initial?, IsVariable, variableName?]

/-- The entry of a name, and the items that have been looked at so far. -/
structure Entry.ComesFrom (done : List Stmt) (x : String) (e : Entry) : Prop where
  kind : e.kind = .func ∨ e.kind = .prototype ∨ e.kind = .var
  item : done[e.root]? = some e.item
  name : e.item.declaredName? = some x
  func : e.kind = .func → ∃ r, FirstAt (Stmt.routine? x) done e.root r
  notFunc : e.kind ≠ .func → ∀ s ∈ done, s.routine? x = none
  notVar : e.kind ≠ .var → ∀ s ∈ done, ¬ s.IsVariable x
  type : e.kind = .var → ∃ t, e.type? = some t ∧ t.isArray = false
  value : e.kind = .var → e.item.hasValue = true → ∃ v, FirstAt (Stmt.initial? x) done e.root v
  noValue : e.kind = .var → e.item.hasValue = false → ∀ s ∈ done, s.initial? x = none

/-- What an item says about its name when it is entered. -/
structure Entry.Declares (x : String) (e : Entry) : Prop where
  kind : e.kind = .func ∨ e.kind = .prototype ∨ e.kind = .var
  name : e.item.declaredName? = some x
  func : e.kind = .func → e.isDefinition = true ∧ ∃ r, e.item.routine? x = some r
  notFunc : e.kind ≠ .func → e.item.routine? x = none
  notVar : e.kind ≠ .var → ¬ e.item.IsVariable x
  type : e.kind = .var → ∃ t, e.type? = some t ∧ t.isArray = false
  value : e.kind = .var → e.item.hasValue = true → ∃ v, e.item.initial? x = some v
  noValue : e.kind = .var → e.item.hasValue = false → e.item.initial? x = none

/-- All names come from items, and all items have been looked at. -/
structure Scope.Traced (items : List Stmt) (scope : Scope) : Prop where
  absent : ∀ x, scope.get? x = none → ∀ s ∈ items, s.declaredName? ≠ some x
  entry : ∀ x e, scope.get? x = some e → e.ComesFrom items x

/-! ## Items -/

theorem Entry.declares_var {e : Entry} {name : Token} {ty : TypeExpr} {t : Ty} {refs : TypeRefs} (hkind : e.kind = .var)
    (hdata : e.data = .var t) (hty : ty.isArray = false) (ht : ty.describe.result = (.ok t, refs))
    (hname : e.item.declaredName? = some name.text) (hr : e.item.routine? name.text = none)
    (hv : e.item.hasValue = true → ∃ v, e.item.initial? name.text = some v)
    (hn : e.item.hasValue = false → e.item.initial? name.text = none) : e.Declares name.text where
  kind := .inr (.inr hkind)
  name := hname
  func h := by cases hkind.symm.trans h
  notFunc _ := hr
  notVar h := absurd hkind h
  type _ := ⟨t, by simp only [Entry.type?, hdata], TypeExpr.isArray_describe hty ht⟩
  value _ := hv
  noValue _ := hn

theorem Entry.declares_of_enter {e : Entry} (hw : e.item.Whole) (hscalar : e.item.isScalarItem = true)
    (hsilent : ∀ r, .report r ∉ e.item.actions) {name : Token} {refs : TypeRefs}
    (h : .enter name e.kind e.data refs ∈ e.item.actions) : e.Declares name.text := by
  obtain ⟨kind, root, item, span, data, unresolved⟩ := e
  cases hw with
  | @declare name' ty hty =>
    have harray : ty.isArray = false := by simpa [Stmt.isScalarItem] using hscalar
    change .enter name kind data refs ∈ Action.single (.declare name' ty) name' ty at h
    rcases Action.single_eq hty.isError hsilent with ⟨hf, -, s, refs', -, hactions⟩ | ⟨-, -, t, refs', ht, hactions⟩
    all_goals
      dsimp only [Survey.functionKind] at hactions
      rw [hactions] at h
      cases List.mem_singleton.mp h
    · refine ⟨.inr (.inl rfl), rfl, nofun, fun _ => rfl, fun _ => ?_, nofun, nofun, nofun⟩
      simp [Stmt.IsVariable, Stmt.variableName?, Stmt.initial?, hf]
    · exact declares_var rfl rfl harray ht rfl rfl nofun fun _ => rfl
  | @declareAs name' ty value hty hv =>
    have harray : ty.isArray = false := by simpa [Stmt.isScalarItem] using hscalar
    change .enter name kind data refs ∈ Action.single (.declareAs name' ty value) name' ty at h
    rcases Action.single_eq hty.isError hsilent with ⟨-, herrors, -⟩ | ⟨-, -, t, refs', ht, hactions⟩
    · cases herrors
    · rw [hactions] at h
      cases List.mem_singleton.mp h
      exact declares_var rfl rfl harray ht rfl rfl (fun _ => ⟨value, by simp [Stmt.initial?]⟩) nofun
  | @define name' brace ty body hty hb =>
    change .enter name kind data refs ∈ Action.single (.define name' ty brace body) name' ty at h
    rcases Action.single_eq hty.isError hsilent with ⟨-, -, s, refs', hs, hactions⟩ | ⟨-, herrors, -⟩
    · dsimp only [Survey.functionKind] at hactions
      rw [hactions] at h
      cases List.mem_singleton.mp h
      refine ⟨.inl rfl, rfl, fun _ => ⟨?_, _, by simp [Stmt.routine?]; rfl⟩, nofun, fun _ => ?_, nofun, nofun, nofun⟩
      · simp [Entry.isDefinition, Entry.signature?, hs.external]
      · simp [Stmt.IsVariable, Stmt.variableName?, Stmt.initial?]
    · cases herrors
  | _ => cases hscalar

namespace Entry.Declares

variable {e next : Entry} (h : next.Declares x)
include h

theorem of_routine? (hr : next.item.routine? x ≠ none) : next.kind = .func ∧ next.isDefinition = true := by
  have hkind : next.kind = .func := Decidable.byContradiction fun hk => hr (h.notFunc hk)
  exact ⟨hkind, (h.func hkind).1⟩

theorem of_isVariable (hv : next.item.IsVariable x) : next.kind = .var :=
  Decidable.byContradiction fun hk => h.notVar hk hv

theorem of_initial? (hi : next.item.initial? x ≠ none) : next.kind = .var ∧ next.isDefinition = true := by
  have hkind := h.of_isVariable (.inr (Option.isSome_iff_ne_none.mpr hi))
  refine ⟨hkind, ?_⟩
  rw [Entry.isDefinition_var hkind]
  exact Bool.of_not_eq_false fun hval => hi (h.noValue hkind hval)

end Entry.Declares

theorem Stmt.enter_of_declaredName? (hscalar : s.isScalarItem = true) (h : s.declaredName? = some x) :
    ∃ name kind data refs, name.text = x ∧ .enter name kind data refs ∈ s.actions := by
  have hx : x ∈ s.declaredNames := by
    cases s with
    | declare t ty | declareAs t ty e | define t ty brace body =>
      cases h
      exact List.mem_singleton_self _
    | _ => cases hscalar
  obtain ⟨a, ha, hname⟩ := Stmt.mem_declaredNames.mp hx
  cases a with
  | report e => cases hname
  | enter name kind data refs => exact ⟨name, kind, data, refs, Option.some.inj hname, ha⟩

/-- A member with some property, and none before it. -/
theorem FirstAt.intro {α β : Type} {k : α → Option β} {l : List α} {i : Nat} {a : α} {b : β} (ha : l[i]? = some a)
    (hb : k a = some b) (h : ∀ j a', l[j]? = some a' → k a' ≠ none → i ≤ j) : FirstAt k l i b := by
  refine ⟨by rw [ha]; exact hb, fun j hj => ?_⟩
  rw [Option.bind_eq_none_iff]
  intro a' ha'
  exact Decidable.byContradiction fun hne => absurd (h j a' ha' hne) (Nat.not_le.mpr hj)

theorem traced_of_accepted {items : List Stmt} (hw : Stmt.WholeAll items)
    (hscalar : ∀ item ∈ items, item.isScalarItem = true) (ha : ScopeErrors.Accepted (Scope.ofItems items).errors) :
    (Scope.ofItems items).scope.Traced items := by
  have hcomplete := Scope.complete_ofItems hw ha
  have hdeclares : ∀ {e : Entry}, e.item ∈ items → ∀ {name refs}, .enter name e.kind e.data refs ∈ e.item.actions →
      e.Declares name.text := fun {_} hmem _ _ henter =>
    Entry.declares_of_enter (hw.get _ hmem) (hscalar _ hmem) (hcomplete.silent hmem) henter
  -- What another item says about a name is what the entry of the name says.
  have hsaid : ∀ {i s x}, items[i]? = some s → s.declaredName? = some x → ∃ e next, (Scope.ofItems items).scope.get? x = some e ∧
      next.item = s ∧ next.Declares x ∧ e.redeclare next = .kept ∧ (next.isDefinition = true → e.root ≤ i) := by
    intro i s x hi hx
    have hmem := List.mem_of_getElem? hi
    obtain ⟨name, kind, data, refs, rfl, henter⟩ := Stmt.enter_of_declaredName? (hscalar s hmem) hx
    obtain ⟨e, he, hkept, hroot⟩ := hcomplete.covers hi henter
    exact ⟨e, _, he, rfl, hdeclares hmem henter, hkept, hroot⟩
  refine ⟨fun x hx s hs hname => ?_, fun x e he => ?_⟩
  · obtain ⟨i, hi⟩ := List.getElem?_of_mem hs
    obtain ⟨e, -, he, -⟩ := hsaid hi hname
    cases hx.symm.trans he
  obtain ⟨hroot, name, refs, rfl, henter⟩ := hcomplete.owner he
  have hfrom := hdeclares (List.mem_of_getElem? hroot) henter
  have hsays : ∀ {i s}, items[i]? = some s → (s.routine? name.text ≠ none ∨ s.IsVariable name.text) → ∃ next : Entry,
      next.item = s ∧ next.Declares name.text ∧ e.redeclare next = .kept ∧ (next.isDefinition = true → e.root ≤ i) := by
    intro i s hi hs
    have hname : s.declaredName? = some name.text := by
      refine Decidable.byContradiction fun hne => ?_
      obtain ⟨hr, -, hv⟩ := Stmt.of_declaredName?_ne hne
      exact hs.elim (· hr) hv
    obtain ⟨e', next, he', hnext⟩ := hsaid hi hname
    cases he.symm.trans he'
    exact ⟨next, hnext⟩
  have hvar : ∀ {s : Stmt}, s.initial? name.text ≠ none → s.IsVariable name.text := fun h => .inr (Option.isSome_iff_ne_none.mpr h)
  refine ⟨hfrom.kind, hroot, hfrom.name, fun hk => ?_, fun hk s hs => ?_, fun hk s hs hv => ?_, hfrom.type, fun hk hval => ?_,
    fun hk hval s hs => ?_⟩
  · obtain ⟨-, r, hr⟩ := hfrom.func hk
    refine ⟨r, .intro hroot hr fun j s hj hne => ?_⟩
    obtain ⟨next, rfl, hnext, -, hle⟩ := hsays hj (.inl hne)
    exact hle (hnext.of_routine? hne).2
  · refine Decidable.byContradiction fun hne => ?_
    obtain ⟨i, hi⟩ := List.getElem?_of_mem hs
    obtain ⟨next, rfl, hnext, hkept, -⟩ := hsays hi (.inl hne)
    have hfunc := (hnext.of_routine? hne).1
    exact hk ((Entry.kind_of_kept hkept (by rw [hfunc]; decide)).1.trans hfunc)
  · obtain ⟨i, hi⟩ := List.getElem?_of_mem hs
    obtain ⟨next, rfl, hnext, hkept, -⟩ := hsays hi (.inr hv)
    have hvar := hnext.of_isVariable hv
    exact hk ((Entry.kind_of_kept hkept (by rw [hvar]; decide)).1.trans hvar)
  · obtain ⟨v, hv⟩ := hfrom.value hk hval
    refine ⟨v, .intro hroot hv fun j s hj hne => ?_⟩
    obtain ⟨next, rfl, hnext, -, hle⟩ := hsays hj (.inr (hvar hne))
    exact hle (hnext.of_initial? hne).2
  · refine Decidable.byContradiction fun hne => ?_
    obtain ⟨i, hi⟩ := List.getElem?_of_mem hs
    obtain ⟨next, rfl, hnext, hkept, -⟩ := hsays hi (.inr (hvar hne))
    obtain ⟨hvar, hdef⟩ := hnext.of_initial? hne
    have := (Entry.kind_of_kept hkept (by rw [hvar]; decide)).2 hdef
    rw [Entry.isDefinition_var hk, hval] at this
    cases this

/-! ## Functions and variables -/

theorem Stmt.of_routine? {r : Routine} (h : s.routine? x = some r) :
    ∃ t ty brace body, s = .define t ty brace body ∧ t.text = x ∧
      r = ⟨ty.paramTokens.map Token.text, ty.returnCount, body⟩ := by
  cases s with
  | define t ty brace body =>
    simp only [Stmt.routine?] at h
    split at h
    next hx =>
      cases h
      exact ⟨t, ty, brace, body, rfl, hx, rfl⟩
    · cases h
  | _ => cases h

theorem Stmt.of_initial? {e : Expr} (h : s.initial? x = some e) : ∃ t ty, s = .declareAs t ty e ∧ t.text = x := by
  cases s with
  | declareAs t ty e' =>
    simp only [Stmt.initial?] at h
    split at h
    next hx =>
      cases h
      exact ⟨t, ty, rfl, hx⟩
    · cases h
  | _ => cases h

namespace Scope.Traced

variable {items : List Stmt} {scope : Scope} {x : String}

/-- A name with a definition stands for its first one. -/
theorem func (h : scope.Traced items) {r : Routine} (hr : items.findSome? (Stmt.routine? x) = some r) :
    ∃ e, scope.get? x = some e ∧ e.kind = .func ∧ ∃ t ty brace body, items[e.root]? = some (.define t ty brace body) ∧
      t.text = x ∧ r = ⟨ty.paramTokens.map Token.text, ty.returnCount, body⟩ := by
  obtain ⟨s, hs, hsr⟩ := List.exists_of_findSome?_eq_some hr
  cases he : scope.get? x with
  | none =>
    have := (Stmt.of_declaredName?_ne (h.absent x he s hs)).1
    rw [hsr] at this
    cases this
  | some e =>
    have hfrom := h.entry x e he
    have hk : e.kind = .func := by
      refine Decidable.of_not_not fun hk => ?_
      have := hfrom.notFunc hk s hs
      rw [hsr] at this
      cases this
    obtain ⟨r', hfirst⟩ := hfrom.func hk
    obtain rfl := Option.some.inj (hr.symm.trans (findSome?_eq_some_iff.mpr ⟨_, hfirst⟩))
    obtain ⟨s', hs', hsr'⟩ := Option.bind_eq_some_iff.mp hfirst.1
    obtain ⟨t, ty, brace, body, rfl, ht, hr'⟩ := Stmt.of_routine? hsr'
    exact ⟨e, rfl, hk, t, ty, brace, body, hs', ht, hr'⟩

theorem var (h : scope.Traced items) (hs : s ∈ items) (hv : s.IsVariable x) :
    ∃ e, scope.get? x = some e ∧ e.kind = .var := by
  cases he : scope.get? x with
  | none => exact absurd hv (Stmt.of_declaredName?_ne (h.absent x he s hs)).2.2
  | some e => exact ⟨e, rfl, Decidable.of_not_not fun hk => (h.entry x e he).notVar hk s hs hv⟩

end Scope.Traced

/-- The item that the entry of a variable comes from is the one that gives it its first value, if there is one. -/
theorem Entry.ComesFrom.initial {items : List Stmt} {e : Entry} (h : e.ComesFrom items x) (hk : e.kind = .var) :
    items.findSome? (Stmt.initial? x) = e.item.initial? x ∧ ∀ j < e.root, (items[j]?).bind (Stmt.initial? x) = none := by
  cases hval : e.item.hasValue with
  | true =>
    obtain ⟨v, hfirst⟩ := h.value hk hval
    refine ⟨?_, hfirst.2⟩
    have hitem := hfirst.1
    rw [h.item, Option.bind_some] at hitem
    rw [hitem, findSome?_eq_some_iff]
    exact ⟨_, hfirst⟩
  | false =>
    have hnone := h.noValue hk hval
    refine ⟨?_, fun j _ => ?_⟩
    · rw [hnone e.item (List.mem_of_getElem? h.item)]
      exact List.findSome?_eq_none_iff.mpr hnone
    · cases hj : items[j]? with
      | none => rfl
      | some s => exact hnone s (List.mem_of_getElem? hj)

end Wordstack
