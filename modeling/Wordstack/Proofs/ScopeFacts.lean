/-
The names of a program in which nothing is wrong. Nothing was reported about any of its items, no entry is an error, and each declaration
counts: the entry of its name says all that it says. The entry of
a function belongs to an item that defines it or declares it as defined elsewhere.
-/
import Wordstack.Proofs.ScopeTable
import Wordstack.Proofs.Whole

namespace Wordstack

/-- What is known of an entry of a program without errors. -/
structure Entry.OK (items : List Stmt) (name : String) (e : Entry) : Prop where
  kind : e.kind ≠ .error
  func : e.kind = .func → ∃ s, e.signature? = some s ∧
    ((∃ t ty brace body, items[e.root]? = some (.define t ty brace body) ∧ t.text = name ∧
        s.WrittenAs ty) ∨
      ∃ t ty, items[e.root]? = some (.external t ty) ∧ t.text = name)

/-- Nothing was reported but warnings. -/
def ScopeErrors.Accepted (errors : List ScopeError) : Prop := ∀ e ∈ errors, e.isWarning = true

theorem ScopeErrors.Accepted.not_fatal {errors : List ScopeError} (h : Accepted errors) : ¬ Survey.Fatal errors := by
  rintro ⟨e, he, hw⟩
  rw [h e he] at hw
  cases hw

theorem Stmt.Whole.isBroken {s : Stmt} (h : s.Whole) : s.isBroken = false := by
  cases h with
  | declare h | declareAs h | define h | external h => exact h.isError
  | declareMany h | declareManyAs h => exact TypeList.isError_of_whole h
  | _ => rfl

/-- The table of the names of some items with which nothing is wrong. -/
structure Scope.Complete (items : List Stmt) (scope : Scope) : Prop where
  silent : ∀ {item}, item ∈ items → ∀ e, .report e ∉ item.actions
  kind : ∀ {n e}, scope.get? n = some e → e.kind ≠ .error
  owner : ∀ {n e}, scope.get? n = some e → items[e.root]? = some e.item ∧
    ∃ name refs, name.text = n ∧ .enter name e.kind e.data refs ∈ e.item.actions
  covers : ∀ {i item name kind data refs}, items[i]? = some item → .enter name kind data refs ∈ item.actions →
    ∃ first, scope.get? name.text = some first ∧ first.redeclare { kind, root := i, item, span := name.span, data } = .kept ∧
      (Entry.isDefinition { kind, root := i, item, span := name.span, data } = true → first.root ≤ i)

section

variable {items : List Stmt} (hw : Stmt.WholeAll items) (ha : ScopeErrors.Accepted (Scope.ofItems items).errors)
include hw ha

theorem Scope.complete_ofItems : (Scope.ofItems items).scope.Complete items := by
  have htabled := Survey.tabled_ofItems items
  have hfatal := ha.not_fatal
  have hbad := Survey.not_bad (fun item h => (hw.get item h).isBroken) hfatal
  have hkind : ∀ {n e}, (Scope.ofItems items).scope.get? n = some e → e.kind ≠ .error := fun he hk => hbad (htabled.error he hk)
  refine ⟨fun {item} hitem e he => ?_, hkind, fun {n e} he => ?_, fun {i item name kind data refs} hi ha => ?_⟩
  · obtain ⟨i, hi⟩ := List.getElem?_of_mem hitem
    rw [Scope.ofItems, Survey.fatal_unusedPrototypes] at hfatal
    exact hfatal (htabled.reported (Stmt.mem_tasks.mpr ⟨item, hi, he⟩))
  · obtain ⟨hroot, name, kind, refs, hname, hmem, hk⟩ := htabled.owner he
    obtain rfl := hk.resolve_right (hkind he)
    obtain ⟨item, hitem, ha⟩ := htabled.tasks _ hmem
    cases hroot.symm.trans hitem
    exact ⟨hroot, name, refs, hname, ha⟩
  · exact htabled.covers hbad (Stmt.mem_tasks.mpr ⟨item, hi, ha⟩) hi

/-- In a program of whole items about whose names nothing but warnings is reported, all entries are in
order. -/
theorem entries_ok : ∀ p ∈ (Scope.ofItems items).scope, p.2.OK items p.1 := by
  rintro ⟨n, e⟩ hp
  have hcomplete := Scope.complete_ofItems hw ha
  have he : (Scope.ofItems items).scope.get? n = some e := NameTable.get?_of_mem (Survey.tabled_ofItems items).nodup hp
  refine ⟨hcomplete.kind he, fun hk => ?_⟩
  obtain ⟨hroot, name, refs, rfl, hmem⟩ := hcomplete.owner he
  rw [show e.kind = .func from hk] at hmem
  rcases e.item.sound_actions with ⟨name', -, hactions⟩ | ⟨-, hsound⟩
  · rw [hactions] at hmem
    cases List.mem_singleton.mp hmem
  · obtain ⟨s, hs, ⟨ty, brace, body, hitem, hwritten⟩ | ⟨ty, hitem⟩⟩ := hsound.func hmem
    all_goals rw [hitem] at hroot
    · exact ⟨s, by simp only [Entry.signature?, hs], .inl ⟨name, ty, brace, body, hroot, rfl, hwritten⟩⟩
    · exact ⟨s, by simp only [Entry.signature?, hs], .inr ⟨name, ty, hroot, rfl⟩⟩

end

/-- The actions of a declaration of one name with which nothing is wrong. -/
theorem Action.single_eq {item : Stmt} {name : Token} {ty : TypeExpr} (hty : ty.isError = false)
    (h : ∀ e, .report e ∉ single item name ty) :
    (ty.isFunction = true ∧ (Survey.functionKind name item).2 = [] ∧ ∃ s refs, s.WrittenAs ty ∧
      single item name ty = [.enter name (Survey.functionKind name item).1 (.func s) refs]) ∨
    ty.isFunction = false ∧ Survey.variableErrors name item = [] ∧ ∃ t refs, ty.describe.result = (.ok t, refs) ∧
      single item name ty = [.enter name .var (.var t) refs] := by
  have hnil : ∀ {errors as}, (∀ e, .report e ∉ errors.map Action.report ++ as) → errors = [] := fun {errors as} h =>
    List.eq_nil_iff_forall_not_mem.mpr fun e he => h e (List.mem_append_left _ (List.mem_map_of_mem he))
  unfold single at h ⊢
  rw [hty, if_neg Bool.false_ne_true] at h ⊢
  cases hf : ty.isFunction with
  | true =>
    rw [hf, if_pos rfl] at h
    rw [if_pos rfl]
    refine .inl ⟨rfl, ?_⟩
    split at h
    · exact absurd List.mem_cons_self (h _)
    next s refs hs =>
      have herrors := hnil h
      exact ⟨herrors, s, refs, TypeExpr.writtenAs hs, by rw [herrors]; rfl⟩
  | false =>
    rw [hf, if_neg Bool.false_ne_true] at h
    rw [if_neg Bool.false_ne_true]
    have herrors := hnil h
    refine .inr ⟨rfl, herrors, ?_⟩
    rw [herrors] at h ⊢
    unfold varOf at h ⊢
    split at h
    · exact absurd List.mem_cons_self (h _)
    next t refs ht => exact ⟨t, refs, ht, rfl⟩

/-- Every definition counts: in an accepted program a name that some item defines as a function stands for a function, and
the item that this comes from is spelled as the other one. -/
theorem entry_of_define {items : List Stmt} (hw : Stmt.WholeAll items)
    (ha : ScopeErrors.Accepted (Scope.ofItems items).errors) {name brace : Token} {ty : TypeExpr} {body : List Stmt}
    (hitem : Stmt.define name ty brace body ∈ items) :
    ∃ e name' ty' brace' body', (Scope.ofItems items).scope.get? name.text = some e ∧ e.kind = .func ∧
      items[e.root]? = some (.define name' ty' brace' body') ∧
        (Stmt.define name' ty' brace' body').same (.define name ty brace body) = true := by
  have hcomplete := Scope.complete_ofItems hw ha
  obtain ⟨i, hi⟩ := List.getElem?_of_mem hitem
  have hty : ty.isError = false := by
    cases hw.get _ hitem with
    | define hty => exact hty.isError
  rcases Action.single_eq hty (hcomplete.silent hitem) with ⟨-, -, s, refs, hs, hactions⟩ | ⟨-, herrors, -⟩
  · have henter : .enter name .func (.func s) refs ∈ (Stmt.define name ty brace body).actions := by
      rw [Stmt.actions, hactions]
      exact List.mem_cons_self
    obtain ⟨e, he, hkept, -⟩ := hcomplete.covers hi henter
    rcases Entry.redeclare_eq_kept.mp hkept with ⟨hk, -, hdef⟩ | ⟨-, hproto, -⟩
    · have hsame := (hdef (by simp [Entry.isDefinition, Entry.signature?, hs.external])).2
      obtain ⟨-, -, ⟨name', ty', brace', body', hdefine, -⟩ | ⟨name', ty', hexternal, -⟩⟩ :=
        (entries_ok hw ha _ (NameTable.mem_of_get? he)).func hk
      · rw [Option.some.inj ((hcomplete.owner he).1.symm.trans hdefine)] at hsame
        exact ⟨e, name', ty', brace', body', he, hk, hdefine, hsame⟩
      · -- a definition is never spelled as what is defined elsewhere
        rw [Option.some.inj ((hcomplete.owner he).1.symm.trans hexternal)] at hsame
        simp [Stmt.same, Stmt.outline, Outline.make, Outline.same] at hsame
    · cases hproto
  · cases herrors

end Wordstack
