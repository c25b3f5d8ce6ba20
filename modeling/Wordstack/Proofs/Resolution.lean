/-
The order of declarations and what comes of them. Where all names are declared once, the
kind of an entry says whether all types that it mentions are declared somewhere, before it
or after it: `settledKind`. Hence the entries are the same in every order.

Whether something is reported may depend on the order, but only where a declaration is
broken already in its form. Such a declaration is entered without a word, and what
mentions it is not reported either.
-/
import Wordstack.Proofs.ScopeTable
import Wordstack.Tree.Parse

namespace Wordstack

variable {items : List Stmt} {kind : SymbolKind} {data : SymbolData}

/-- The kind that a name has in the end: it is an error to mention what is not a type. -/
def settledKind (types : List String) (kind : SymbolKind) (data : SymbolData) : SymbolKind :=
  if ∀ m ∈ data.mentions, m ∈ types then kind else .error

/-- Where all names are declared once, each has the entry that its declaration makes. -/
theorem Scope.get?_of_enter (h : (items.flatMap Stmt.declaredNames).Nodup) {name : Token} {refs : TypeRefs}
    (henter : .enter name kind data refs ∈ items.flatMap Stmt.actions) :
    ∃ e, (Scope.ofItems items).scope.get? name.text = some e ∧ e.data = data ∧
      e.kind = settledKind (Stmt.typeNames items) kind data := by
  have htabled := Survey.tabled_ofItems items
  obtain ⟨item, hitem, ha⟩ := List.mem_flatMap.mp henter
  have hname := (htabled.mem_names_iff name.text).mpr ⟨item, hitem, Stmt.mem_declaredNames.mpr ⟨_, ha, rfl⟩⟩
  obtain ⟨e, he⟩ := Option.ne_none_iff_exists'.mp (NameTable.mem_names.mp hname)
  obtain ⟨-, name', kind', refs', hname', hmem, hk⟩ := htabled.owner he
  cases Stmt.eq_of_name h henter (htabled.mem_actions hmem) rfl (congrArg some hname')
  refine ⟨e, he, rfl, ?_⟩
  unfold settledKind
  by_cases herror : e.kind = .error
  · rcases htabled.flawed h he herror with ⟨name', refs', hname', henter'⟩ | ⟨m, hm, hno⟩
    · cases Stmt.eq_of_name h henter henter' rfl (congrArg some hname')
      rw [ite_self, herror]
    · rw [herror, if_neg fun hall => hno (hall m hm)]
  · rw [hk.resolve_right herror, if_pos]
    intro m hm
    obtain ⟨e', he', hk'⟩ := ((htabled.typed he herror).resolve_right nofun) m hm
    obtain ⟨-, name', kind', refs', rfl, hmem', hkind⟩ := htabled.owner he'
    cases hkind with
    | inl hkind => exact Stmt.mem_typeNames (hkind.symm.trans hk' ▸ htabled.mem_actions hmem')
    | inr hkind => cases hk'.symm.trans hkind

/-- Where no declaration is broken in its form, errors are reported for what items say by themselves, and for
what they mention that is not a type. -/
theorem Scope.fatal_iff (h : (items.flatMap Stmt.declaredNames).Nodup) (hbroken : ∀ item ∈ items, item.isBroken = false) :
    Survey.Fatal (Scope.ofItems items).errors ↔ Stmt.Faulty items := by
  have htabled := Survey.tabled_ofItems items
  refine ⟨fun hf => htabled.caused h ((Survey.fatal_unusedPrototypes _ _).mp hf), fun hcause => Classical.byContradiction fun hnot => ?_⟩
  have hbad := Survey.not_bad hbroken hnot
  rcases hcause with ⟨e, he⟩ | ⟨name, kind, data, refs, henter, m, hm, hno⟩
  · obtain ⟨item, hitem, he⟩ := List.mem_flatMap.mp he
    obtain ⟨i, hi⟩ := List.getElem?_of_mem hitem
    exact hbad (.inl (htabled.reported (Stmt.mem_tasks.mpr ⟨item, hi, he⟩)))
  · obtain ⟨e, he, -, hkind⟩ := Scope.get?_of_enter h henter
    exact hbad (htabled.error he (hkind.trans (if_neg fun hall => hno (hall m hm))))

theorem settledKind_eq_error {types : List String} (h : kind ≠ .error) :
    settledKind types kind data = .error ↔ ∃ n ∈ data.mentions, n ∉ types := by
  unfold settledKind
  split
  next hall => exact ⟨fun hk => absurd hk h, fun ⟨n, hn, hnot⟩ => absurd (hall n hn) hnot⟩
  next hall => exact ⟨fun _ => by simpa using hall, fun _ => rfl⟩

theorem Scope.get?_ofItems_ne_none (n : String) :
    (Scope.ofItems items).scope.get? n ≠ none ↔ n ∈ items.flatMap Stmt.declaredNames := by
  rw [← NameTable.mem_names, List.mem_flatMap]
  exact (Survey.tabled_ofItems items).mem_names_iff n

theorem Scope.kind_eq_error_iff (h : (items.flatMap Stmt.declaredNames).Nodup) {item : Stmt} (hitem : item ∈ items)
    (hbroken : item.isBroken = false) (hadmissible : item.isAdmissible = true) {name : Token} {ty : TypeExpr}
    (hmem : (name, ty) ∈ item.typed) {t : Ty} (ht : ty.describe.result.1 = .ok t) :
    ∃ e, (Scope.ofItems items).scope.get? name.text = some e ∧
      (e.kind = .error ↔ ∃ n ∈ ty.mentions, n ∉ Stmt.typeNames items) := by
  obtain ⟨kind, data, refs, henter, hne, hrefs⟩ := Stmt.enters_of_typed hbroken hadmissible hmem ht
  obtain ⟨e, he, -, hkind⟩ := Scope.get?_of_enter h (List.mem_flatMap.mpr ⟨item, hitem, henter⟩)
  refine ⟨e, he, ?_⟩
  rw [hkind, ← hrefs, item.refs_of_enter henter]
  exact settledKind_eq_error hne

section Perm

variable {items' : List Stmt} (hperm : items.Perm items') (h : (items.flatMap Stmt.declaredNames).Nodup)

include hperm

theorem Stmt.mem_actions_perm (a : Action) : a ∈ items.flatMap Stmt.actions ↔ a ∈ items'.flatMap Stmt.actions :=
  (hperm.flatMap_right _).mem_iff

theorem Stmt.mem_typeNames_perm (n : String) : n ∈ Stmt.typeNames items ↔ n ∈ Stmt.typeNames items' :=
  (hperm.filterMap _).mem_iff

include h

theorem Stmt.nodup_declaredNames_perm : (items'.flatMap Stmt.declaredNames).Nodup :=
  (hperm.flatMap_right _).nodup_iff.mp h

theorem Scope.get?_perm (n : String) : ((Scope.ofItems items).scope.get? n).map (fun e => (e.kind, e.data)) =
      ((Scope.ofItems items').scope.get? n).map (fun e => (e.kind, e.data)) := by
  cases he : (Scope.ofItems items).scope.get? n with
  | some e =>
    have htabled := Survey.tabled_ofItems items
    obtain ⟨-, name, kind, refs, rfl, hmem, -⟩ := htabled.owner he
    have henter := htabled.mem_actions hmem
    obtain ⟨e₁, he₁, -, hkind⟩ := Scope.get?_of_enter h henter
    obtain ⟨e₂, he₂, hdata, hkind'⟩ := Scope.get?_of_enter (Stmt.nodup_declaredNames_perm hperm h) ((Stmt.mem_actions_perm hperm _).mp henter)
    cases he.symm.trans he₁
    simp only [settledKind, Stmt.mem_typeNames_perm hperm] at hkind
    rw [he₂, Option.map_some, Option.map_some, hdata, hkind, hkind']
    rfl
  | none =>
    have hnone : (Scope.ofItems items').scope.get? n = none := by
      refine Classical.not_not.mp fun hn => (Scope.get?_ofItems_ne_none n).mpr ?_ he
      exact (hperm.flatMap_right _).mem_iff.mpr ((Scope.get?_ofItems_ne_none n).mp hn)
    rw [hnone]

theorem Scope.fatal_perm (hbroken : ∀ item ∈ items, item.isBroken = false) :
    Survey.Fatal (Scope.ofItems items).errors ↔ Survey.Fatal (Scope.ofItems items').errors := by
  have hbroken' : ∀ item ∈ items', item.isBroken = false := fun item hmem => hbroken item (hperm.mem_iff.mpr hmem)
  rw [Scope.fatal_iff h hbroken, Scope.fatal_iff (Stmt.nodup_declaredNames_perm hperm h) hbroken']
  simp only [Stmt.Faulty, Stmt.mem_actions_perm hperm, Stmt.mem_typeNames_perm hperm]

end Perm

/-- Items whose names are declared once make the same scope in every order, in which just the declared
names have entries. A declaration that is in order by itself becomes an error just if it mentions what is
not declared as a type. And where no declaration is broken in its form, errors are reported in every order
or in none. -/
theorem Scope.order_free {items items' : List Stmt} (hperm : items.Perm items')
    (hnodup : (items.flatMap Stmt.declaredNames).Nodup) :
    (∀ name, ((Scope.ofItems items).scope.get? name).map (fun e => (e.kind, e.data)) =
      ((Scope.ofItems items').scope.get? name).map (fun e => (e.kind, e.data))) ∧
    (∀ name, (Scope.ofItems items).scope.get? name ≠ none ↔ name ∈ items.flatMap Stmt.declaredNames) ∧
    (∀ item ∈ items, item.isBroken = false → item.isAdmissible = true → ∀ name ty, (name, ty) ∈ item.typed →
      ∀ t, ty.describe.result.1 = .ok t → ∃ e, (Scope.ofItems items).scope.get? name.text = some e ∧
        (e.kind = .error ↔ ∃ n ∈ ty.mentions, n ∉ Stmt.typeNames items)) ∧
    ((∀ item ∈ items, item.isBroken = false) →
      ((∃ e ∈ (Scope.ofItems items).errors, e.isWarning = false) ↔
        ∃ e ∈ (Scope.ofItems items').errors, e.isWarning = false)) := by
  refine ⟨Scope.get?_perm hperm hnodup, Scope.get?_ofItems_ne_none, ?_, Scope.fatal_perm hperm hnodup⟩
  intro item hitem hbroken hadmissible name ty hmem t ht
  exact Scope.kind_eq_error_iff hnodup hitem hbroken hadmissible hmem ht

/-- A pointer to a structure that comes later, and one to a structure that never comes. -/
theorem Scope.order_free_reversed :
    let items := (parse "p : ^Node;\nNode : struct = \x7b next : ^Node; \x7d\nq : ^Edge;").roots
    (items.flatMap Stmt.declaredNames).Nodup ∧ items.flatMap Stmt.declaredNames = ["p", "Node", "q"] ∧
      (∀ name, ((Scope.ofItems items).scope.get? name).map (fun e => (e.kind, e.data)) =
        ((Scope.ofItems items.reverse).scope.get? name).map (fun e => (e.kind, e.data))) ∧
      ((∃ e ∈ (Scope.ofItems items).errors, e.isWarning = false) ↔
        ∃ e ∈ (Scope.ofItems items.reverse).errors, e.isWarning = false) := by
  intro items
  have hnames : items.flatMap Stmt.declaredNames = ["p", "Node", "q"] := by decide +kernel
  have hbroken : items.all (fun item => !item.isBroken) = true := by decide +kernel
  have hnodup : (items.flatMap Stmt.declaredNames).Nodup := by
    rw [hnames]
    decide
  have h := Scope.order_free (List.reverse_perm items).symm hnodup
  refine ⟨hnodup, hnames, h.1, h.2.2.2 fun item hitem => ?_⟩
  have := List.all_eq_true.mp hbroken item hitem
  simpa using this

/-- A declaration without a type hides what is wrong with those that mention it, if it comes first. -/
theorem Scope.fatal_depends_on_order :
    let items := (parse "E : ;\nd : (x : E, y : U);").roots
    (items.flatMap Stmt.declaredNames).Nodup ∧ (¬ ∃ e ∈ (Scope.ofItems items).errors, e.isWarning = false) ∧
      ∃ e ∈ (Scope.ofItems items.reverse).errors, e.isWarning = false := by
  intro items
  have hnames : items.flatMap Stmt.declaredNames = ["E", "d"] := by decide +kernel
  have hfirst : ((Scope.ofItems items).errors.any fun e => !e.isWarning) = false := by decide +kernel
  have hlast : ((Scope.ofItems items.reverse).errors.any fun e => !e.isWarning) = true := by decide +kernel
  refine ⟨?_, ?_, ?_⟩
  · rw [hnames]
    decide
  · intro hex
    obtain ⟨e, he, hw⟩ := hex
    have := List.any_eq_false.mp hfirst e he
    simp [hw] at this
  · obtain ⟨e, he, hw⟩ := List.any_eq_true.mp hlast
    exact ⟨e, he, by simpa using hw⟩

end Wordstack
