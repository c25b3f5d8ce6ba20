/-
The table of names of any program, also of one that declares a name twice, or with two
meanings, or in a form that is broken. Entries come and go while items are looked at: a declaration may
be stored, complete an earlier one, or be turned away, and it may wait for its types.
The invariant says who put an entry there, that what waits is queued, and that an entry is an error only
for a reason that is on record. As long as nothing is wrong it also says that every declaration counts: the entry of its name
says all that it says.
-/
import Wordstack.Proofs.Declarations

namespace Wordstack

namespace NameTable

variable {α : Type}

theorem get?_eq_none {t : NameTable α} {x : String} : get? x t = none ↔ x ∉ t.names := by
  induction t with
  | nil => exact ⟨fun _ => List.not_mem_nil, fun _ => rfl⟩
  | cons e rest ih =>
    obtain ⟨n, a⟩ := e
    simp only [get?, names, List.map_cons, List.mem_cons, not_or]
    split
    next hn => exact ⟨fun h => (by cases h), fun h => absurd hn.symm h.1⟩
    next hn => exact ⟨fun h => ⟨fun hx => hn hx.symm, ih.mp h⟩, fun h => ih.mpr h.2⟩

theorem mem_names {t : NameTable α} {x : String} : x ∈ t.names ↔ get? x t ≠ none := by
  rw [Ne, get?_eq_none, Decidable.not_not]

theorem mem_names_set (t : NameTable α) (name : String) (a : α) (x : String) :
    x ∈ (t.set name a).names ↔ x = name ∨ x ∈ t.names := by
  simp only [mem_names, get?_set]
  by_cases hname : name = x
  · simp [hname]
  · simp [hname, Ne.symm hname]

theorem nodup_names_set {t : NameTable α} (h : t.names.Nodup) (name : String) (a : α) : (set name a t).names.Nodup := by
  induction t with
  | nil => exact List.nodup_cons.mpr ⟨List.not_mem_nil, List.nodup_nil⟩
  | cons e rest ih =>
    obtain ⟨n, b⟩ := e
    obtain ⟨hn, hrest⟩ := List.nodup_cons.mp h
    simp only [set]
    split
    · exact h
    next hne =>
      refine List.nodup_cons.mpr ⟨fun hmem => ?_, ih hrest⟩
      rcases (mem_names_set rest name a n).mp hmem with rfl | hmem
      · exact hne rfl
      · exact hn hmem

theorem get?_of_mem {t : NameTable α} (h : t.names.Nodup) {x : String} {a : α} (hp : (x, a) ∈ t) : get? x t = some a := by
  induction t with
  | nil => cases hp
  | cons e rest ih =>
    obtain ⟨n, b⟩ := e
    obtain ⟨hn, hrest⟩ := List.nodup_cons.mp h
    rcases List.mem_cons.mp hp with heq | hp
    · cases heq
      simp [get?]
    · have hne : n ≠ x := fun heq => hn (List.mem_map.mpr ⟨_, hp, heq.symm⟩)
      simp [get?, hne, ih hrest hp]

theorem get?_erase {t : NameTable α} (h : t.names.Nodup) (name x : String) :
    get? x (erase name t) = if name = x then none else get? x t := by
  induction t with
  | nil => simp [erase, get?]
  | cons e rest ih =>
    obtain ⟨n, b⟩ := e
    obtain ⟨hn, hrest⟩ := List.nodup_cons.mp h
    simp only [erase, get?]
    split
    next hname =>
      subst hname
      split
      next hx =>
        subst hx
        exact get?_eq_none.mpr hn
      · rfl
    next hname =>
      simp only [get?, ih hrest]
      split
      next hx =>
        subst hx
        rw [if_neg (Ne.symm hname)]
      · rfl

end NameTable

/-! ## Looking up types -/

theorem Resolution.join_eq_resolved {a b : Resolution} : a.join b = .resolved ↔ a = .resolved ∧ b = .resolved := by
  cases a <;> cases b <;> decide

theorem Resolution.join_eq_failed {a b : Resolution} : a.join b = .failed ↔ a = .failed ∨ b = .failed := by
  cases a <;> cases b <;> decide

theorem Resolution.of_join_deferred {a b : Resolution} (h : a.join b = .deferred) : a = .deferred ∨ b = .deferred := by
  cases a <;> cases b <;> simp_all [Resolution.join]

namespace Scope

variable {s : Scope} {final : Bool}

def IsType (s : Scope) (name : String) : Prop := ∃ e, s.get? name = some e ∧ e.kind = .type

/-- What comes of looking up the names of a type. What is reported is an error; it is reported of names that are no
types, and of all but those that are errors already. -/
structure Verdict (s : Scope) (final : Bool) (refs : TypeRefs) (r : Resolution) (errors : List ScopeError) : Prop where
  resolved : r = .resolved → ∀ p ∈ refs, s.IsType p.1
  failed : r = .failed → ∃ p ∈ refs, ¬ s.IsType p.1 ∧ (s.get? p.1 = none → final = true)
  deferred : r = .deferred → final = false
  fatal : ∀ e ∈ errors, e.isWarning = false ∧ r = .failed
  silent : r = .failed → (∃ e, e ∈ errors) ∨ ∃ name e, s.get? name = some e ∧ e.kind = .error

theorem Verdict.join {refs refs' : TypeRefs} {r r' : Resolution} {errors errors' : List ScopeError}
    (h : Verdict s final refs r errors) (h' : Verdict s final refs' r' errors') :
    Verdict s final (refs ++ refs') (r.join r') (errors ++ errors') where
  resolved hr :=
    have hr := Resolution.join_eq_resolved.mp hr
    List.forall_mem_append.mpr ⟨h.resolved hr.1, h'.resolved hr.2⟩
  failed hr := by
    rcases Resolution.join_eq_failed.mp hr with hr | hr
    · obtain ⟨p, hp, hnot⟩ := h.failed hr
      exact ⟨p, List.mem_append_left _ hp, hnot⟩
    · obtain ⟨p, hp, hnot⟩ := h'.failed hr
      exact ⟨p, List.mem_append_right _ hp, hnot⟩
  deferred hr := (Resolution.of_join_deferred hr).elim h.deferred h'.deferred
  fatal e he := by
    rw [Resolution.join_eq_failed]
    exact (List.mem_append.mp he).elim (fun he => (h.fatal e he).imp id .inl) fun he => (h'.fatal e he).imp id .inr
  silent hr := by
    rcases Resolution.join_eq_failed.mp hr with hr | hr
    · exact (h.silent hr).imp (fun ⟨e, he⟩ => ⟨e, List.mem_append_left _ he⟩) id
    · exact (h'.silent hr).imp (fun ⟨e, he⟩ => ⟨e, List.mem_append_right _ he⟩) id

theorem verdict_name (final : Bool) (name : String) (span : Span) :
    Verdict s final [(name, span)] (s.resolveName final name span).1 (s.resolveName final name span).2 := by
  have hfail : ∀ {errors : List ScopeError}, ¬ s.IsType name → (s.get? name = none → final = true) →
      (∀ e ∈ errors, e.isWarning = false) → ((∃ e, e ∈ errors) ∨ ∃ name e, s.get? name = some e ∧ e.kind = .error) →
      Verdict s final [(name, span)] .failed errors := fun hnot hnone hwarning hsilent =>
    ⟨nofun, fun _ => ⟨_, List.mem_singleton.mpr rfl, hnot, hnone⟩, nofun, fun e he => ⟨hwarning e he, rfl⟩, fun _ => hsilent⟩
  unfold resolveName
  cases he : s.get? name with
  | none =>
    cases final with
    | true => exact hfail (by simp [IsType, he]) (fun _ => rfl) (by simp [ScopeError.isWarning]) (by simp)
    | false => exact ⟨nofun, nofun, fun _ => rfl, nofun, nofun⟩
  | some e =>
    dsimp only
    cases hk : e.kind with
    | type => exact ⟨fun _ => List.forall_mem_singleton.mpr ⟨e, he, hk⟩, nofun, nofun, nofun, nofun⟩
    | error => exact hfail (by simp [IsType, he, hk]) (by simp [he]) nofun (.inr ⟨name, e, he, hk⟩)
    | _ => exact hfail (by simp [IsType, he, hk]) (by simp [he]) (by simp [ScopeError.isWarning]) (by simp)

theorem verdict (final : Bool) : ∀ refs : TypeRefs, Verdict s final refs (s.resolve final refs).1 (s.resolve final refs).2
  | [] => ⟨fun _ => nofun, nofun, nofun, nofun, nofun⟩
  | (name, span) :: refs => (verdict_name final name span).join (verdict final refs)

end Scope

/-! ## Declaring names again -/

mutual

theorem Outline.same_refl (o : Outline) : o.same o = true := by
  cases o with
  | node slot kind t flawed cs => simp [Outline.same, Outline.sameList_refl cs]

theorem Outline.sameList_refl (os : List Outline) : Outline.sameList os os = true := by
  cases os with
  | nil => rfl
  | cons o os => simp [Outline.sameList, Outline.same_refl o, Outline.sameList_refl os]

end

theorem Stmt.same_refl (s : Stmt) : s.same s = true := Outline.same_refl _

theorem Signature.agrees_comm (s t : Signature) : s.agrees t = t.agrees s := by
  rw [Bool.eq_iff_iff]
  simp only [Signature.agrees, Bool.and_eq_true, beq_iff_eq]
  exact and_congr eq_comm eq_comm

namespace Entry

variable {e first next : Entry}

/-- Both are functions, with the same types. -/
def Agrees (first next : Entry) : Prop := ∃ s t, first.data = .func s ∧ next.data = .func t ∧ s.agrees t = true

theorem Agrees.symm (h : first.Agrees next) : next.Agrees first := by
  obtain ⟨s, t, hs, ht, h⟩ := h
  exact ⟨t, s, ht, hs, s.agrees_comm t ▸ h⟩

theorem agrees_iff : (match first.signature?, next.signature? with
    | some s, some t => s.agrees t
    | _, _ => false) = true ↔ first.Agrees next := by
  unfold signature? Agrees
  cases first.data <;> cases next.data <;> simp

theorem isDefinition_var (h : e.kind = .var) : e.isDefinition = e.item.hasValue := by
  simp only [isDefinition, h]

theorem isDefinition_prototype (h : e.kind = .prototype) : e.isDefinition = false := by
  simp only [isDefinition, h]

/-- An entry that stays says all that the new one says. -/
theorem redeclare_eq_kept : first.redeclare next = .kept ↔ (first.kind = next.kind ∧ first.data = next.data ∧
      (next.isDefinition = true → first.isDefinition = true ∧ first.item.same next.item = true)) ∨
    first.kind = .func ∧ next.kind = .prototype ∧ first.Agrees next := by
  unfold redeclare
  by_cases hsame : first.sameAs next = true
  · rw [if_pos hsame]
    obtain ⟨hkind, hdata⟩ : first.kind = next.kind ∧ first.data = next.data := by simpa [sameAs] using hsame
    have hnot : ¬ (first.kind = .func ∧ next.kind = .prototype ∧ first.Agrees next) := by
      rintro ⟨h, h', -⟩
      cases h.symm.trans (hkind.trans h')
    rw [or_iff_left hnot]
    cases first.isDefinition <;> cases next.isDefinition <;> simp only [hkind, hdata]
    · simp
    · split <;> simp
    · simp
    · split <;> simp_all
  · rw [if_neg hsame]
    have hnot : ¬ (first.kind = next.kind ∧ first.data = next.data) := by simpa [sameAs] using hsame
    rw [or_iff_right fun h => hnot ⟨h.1, h.2.1⟩]
    dsimp only
    split
    next hproto _ _ => exact ⟨nofun, fun h => by cases h.1.symm.trans hproto⟩
    next hfunc hproto hagree => exact ⟨fun _ => ⟨hfunc, hproto, agrees_iff.mp hagree⟩, fun _ => rfl⟩
    next hno => exact ⟨nofun, fun h => absurd (agrees_iff.mpr h.2.2) (hno h.1 h.2.1)⟩

/-- An entry is replaced if the new one says more: a function with a body where there was none, or a variable with a value. -/
theorem redeclare_stored (h : first.redeclare next = .stored) :
    (first.kind = .prototype ∧ next.kind = .func ∧ first.Agrees next) ∨
      (first.kind = .var ∧ next.kind = .var ∧ first.data = next.data ∧ first.item.hasValue = false) := by
  unfold redeclare at h
  by_cases hsame : first.sameAs next = true
  · rw [if_pos hsame] at h
    obtain ⟨hkind, hdata⟩ : first.kind = next.kind ∧ first.data = next.data := by simpa [sameAs] using hsame
    split at h
    · cases h
    next hfirst _ =>
      split at h
      next hvar =>
        have hfirst' := hkind.trans hvar
        exact .inr ⟨hfirst', hvar, hdata, by rw [← isDefinition_var hfirst', hfirst]⟩
      · cases h
    · split at h <;> cases h
  · rw [if_neg hsame] at h
    dsimp only at h
    split at h
    next hproto hfunc hagree => exact .inl ⟨hproto, hfunc, agrees_iff.mp hagree⟩
    · cases h
    · cases h

theorem redeclare_self (e : Entry) : e.redeclare e = .kept :=
  redeclare_eq_kept.mpr (.inl ⟨rfl, rfl, fun h => ⟨h, e.item.same_refl⟩⟩)

/-- What an entry says is said by the one that replaces it, and it was no definition. -/
theorem redeclare_replaced (he : first.redeclare e = .stored) (hn : first.redeclare next = .kept) :
    e.redeclare next = .kept ∧ next.isDefinition = false := by
  rcases redeclare_eq_kept.mp hn with ⟨hkind, hdata, hdef⟩ | ⟨hkind, hproto, -⟩
  · rcases redeclare_stored he with ⟨hproto, hfunc, hagree⟩ | ⟨hvar, hvar', hdata', hvalue⟩
    · have hnext := hkind.symm.trans hproto
      obtain ⟨s, t, hs, ht, hagree⟩ := hagree.symm
      exact ⟨redeclare_eq_kept.mpr (.inr ⟨hfunc, hnext, s, t, hs, hdata ▸ ht, hagree⟩), isDefinition_prototype hnext⟩
    · have hnot : ¬ next.isDefinition = true := by
        intro h
        have := (hdef h).1
        rw [isDefinition_var hvar, hvalue] at this
        cases this
      exact ⟨redeclare_eq_kept.mpr (.inl ⟨hvar'.trans (hvar.symm.trans hkind), hdata'.symm.trans hdata, fun h => absurd h hnot⟩),
        Bool.eq_false_iff.mpr hnot⟩
  · rcases redeclare_stored he with ⟨hproto', -⟩ | ⟨hvar, -⟩
    · cases hkind.symm.trans hproto'
    · cases hkind.symm.trans hvar

theorem kind_of_kept (h : first.redeclare next = .kept) (hk : next.kind ≠ .prototype) :
    first.kind = next.kind ∧ (next.isDefinition = true → first.isDefinition = true) := by
  rcases redeclare_eq_kept.mp h with ⟨hkind, -, hdef⟩ | ⟨-, hproto, -⟩
  · exact ⟨hkind, fun h => (hdef h).1⟩
  · exact absurd hproto hk

theorem Agrees.mentions (h : first.Agrees next) : first.data.mentions = next.data.mentions := by
  obtain ⟨s, t, hs, ht, h⟩ := h
  rw [hs, ht]
  exact Signature.mentions_of_agrees h

theorem mentions_of_kept (h : first.redeclare next = .kept) : first.data.mentions = next.data.mentions := by
  rcases redeclare_eq_kept.mp h with ⟨-, hdata, -⟩ | ⟨-, -, hagree⟩
  · rw [hdata]
  · exact hagree.mentions

theorem mentions_of_stored (h : first.redeclare next = .stored) : first.data.mentions = next.data.mentions := by
  rcases redeclare_stored h with ⟨-, -, hagree⟩ | ⟨-, -, hdata, -⟩
  · exact hagree.mentions
  · rw [hdata]

/-- The entry as it is stored when its type names have been looked up. -/
def under (e : Entry) : Resolution → Entry
  | .resolved => e
  | .failed => { e with kind := .error }
  | .deferred => { e with unresolved := true }

theorem data_under (e : Entry) (r : Resolution) : (e.under r).data = e.data := by
  cases r <;> rfl

theorem kind_under (e : Entry) (r : Resolution) : (e.under r).kind = if r = .failed then .error else e.kind := by
  cases r <;> rfl

/-- Whether an entry waits for its types makes no difference to what it says. -/
theorem redeclare_under {r : Resolution} (hr : r ≠ .failed) : first.redeclare (e.under r) = first.redeclare e := by
  cases r with
  | failed => exact absurd rfl hr
  | _ => rfl

theorem under_redeclare {r : Resolution} (hr : r ≠ .failed) : (e.under r).redeclare next = e.redeclare next := by
  cases r with
  | failed => exact absurd rfl hr
  | _ => rfl

end Entry

/-! ## One declaration -/

namespace Survey

/-- Something is reported that is more than a warning. -/
def Fatal (errors : List ScopeError) : Prop := ∃ e ∈ errors, e.isWarning = false

theorem Fatal.append_left {errors : List ScopeError} (h : Fatal errors) (more : List ScopeError) :
    Fatal (errors ++ more) := by
  obtain ⟨e, he, hw⟩ := h
  exact ⟨e, List.mem_append_left _ he, hw⟩

theorem Fatal.append_right {more : List ScopeError} (h : Fatal more) (errors : List ScopeError) :
    Fatal (errors ++ more) := by
  obtain ⟨e, he, hw⟩ := h
  exact ⟨e, List.mem_append_right _ he, hw⟩

theorem Fatal.of_append {errors more : List ScopeError} (h : Fatal (errors ++ more)) : Fatal errors ∨ Fatal more := by
  obtain ⟨e, he, hw⟩ := h
  exact (List.mem_append.mp he).imp (⟨e, ·, hw⟩) (⟨e, ·, hw⟩)

theorem report_report (s : Survey) (errors more : List ScopeError) :
    (s.report errors).report more = s.report (errors ++ more) := by
  simp only [report, List.append_assoc]

/-- An entry is stored, unless there is one already that it does not replace. -/
theorem declare_cases (s : Survey) (name : String) (e : Entry) :
    s.scope.declare name e = .stored ∧ s.declare name e = { s with scope := s.scope.set name e } ∨
      s.scope.declare name e ≠ .stored ∧ ∃ first more, s.scope.get? name = some first ∧ s.declare name e = s.report more ∧
        (Fatal more ∨ more = [] ∧ first.redeclare e = .kept) := by
  unfold declare Scope.declare
  cases s.scope.get? name with
  | none => exact .inl ⟨rfl, rfl⟩
  | some first =>
    dsimp only
    cases hd : first.redeclare e with
    | stored => exact .inl ⟨rfl, rfl⟩
    | kept => exact .inr ⟨nofun, first, [], rfl, (report_nil s).symm, .inr ⟨rfl, hd⟩⟩
    | conflict span => exact .inr ⟨nofun, first, _, rfl, rfl, .inl ⟨_, List.mem_singleton.mpr rfl, rfl⟩⟩

/-- The same for an entry whose types are looked up. One that is to wait for them is in the queue, behind those
that wait already. -/
theorem declareWith_cases (s : Survey) (name : String) (e : Entry) (refs : TypeRefs) :
    s.scope.declare name (e.under (s.scope.resolve false refs).1) = .stored ∧ s.declareWith name e refs =
        { scope := s.scope.set name (e.under (s.scope.resolve false refs).1)
          errors := s.errors ++ (s.scope.resolve false refs).2
          deferred := s.deferred ++
            if (s.scope.resolve false refs).1 = .deferred ∧ name ∉ s.deferred.map (·.1) then [(name, refs)] else [] } ∨
      ∃ first more, s.scope.get? name = some first ∧ s.declareWith name e refs = s.report ((s.scope.resolve false refs).2 ++ more) ∧
        (Fatal more ∨ more = [] ∧ first.redeclare (e.under (s.scope.resolve false refs).1) = .kept) := by
  unfold declareWith
  dsimp only
  generalize (s.scope.resolve false refs).2 = errors
  cases (s.scope.resolve false refs).1 with
  | resolved =>
    rcases (s.report errors).declare_cases name e with ⟨hd, h⟩ | ⟨-, first, more, hfirst, h, hmore⟩
    · exact .inl ⟨hd, h.trans (by simp [report, Entry.under])⟩
    · exact .inr ⟨first, more, hfirst, h.trans (report_report ..), hmore⟩
  | failed =>
    rcases (s.report errors).declare_cases name { e with kind := .error } with ⟨hd, h⟩ | ⟨-, first, more, hfirst, h, hmore⟩
    · exact .inl ⟨hd, h.trans (by simp [report, Entry.under])⟩
    · exact .inr ⟨first, more, hfirst, h.trans (report_report ..), hmore⟩
  | deferred =>
    rcases (s.report errors).declare_cases name { e with unresolved := true } with ⟨hd, h⟩ | ⟨hd, first, more, hfirst, h, hmore⟩
    · refine .inl ⟨hd, ?_⟩
      have hqueued : ((s.report errors).deferred.any fun p => p.1 == name) = true ↔ name ∈ s.deferred.map (·.1) := by
        simp [report]
      simp only [hd, h]
      by_cases hname : name ∈ s.deferred.map (·.1)
      · rw [if_pos (hqueued.mpr hname), if_neg (fun h => h.2 hname), List.append_nil]
        rfl
      · rw [if_neg (fun h => hname (hqueued.mp h)), if_pos ⟨trivial, hname⟩]
        rfl
    · refine .inr ⟨first, more, hfirst, ?_, hmore⟩
      rw [← report_report, ← h]
      cases hdeclared : (s.report errors).scope.declare name { e with unresolved := true } with
      | stored => exact absurd hdeclared hd
      | _ => rfl

end Survey

namespace Stmt

variable {items : List Stmt}

theorem fatal_actions (e : ScopeError) (he : .report e ∈ items.flatMap actions) : e.isWarning = false := by
  obtain ⟨item, -, he⟩ := List.mem_flatMap.mp he
  rcases item.sound_actions with ⟨name, -, hactions⟩ | ⟨-, hsound⟩
  · rw [hactions] at he
    cases List.mem_singleton.mp he
  · exact hsound.fatal e he

theorem reported_actions (hbroken : ∀ item ∈ items, item.isBroken = false) {name : Token} {data : SymbolData} {refs : TypeRefs}
    (h : .enter name .error data refs ∈ items.flatMap actions) : ∃ e, .report e ∈ items.flatMap actions := by
  obtain ⟨item, hitem, h⟩ := List.mem_flatMap.mp h
  rcases item.sound_actions with ⟨name', -, hactions⟩ | ⟨-, hsound⟩
  · rw [hactions] at h
    cases List.mem_singleton.mp h
  · obtain ⟨e, he⟩ := hsound.reported h (hbroken item hitem)
    exact ⟨e, List.mem_flatMap.mpr ⟨item, hitem, he⟩⟩

theorem refs_of_enter (item : Stmt) {name : Token} {kind : SymbolKind} {data : SymbolData} {refs : TypeRefs}
    (h : .enter name kind data refs ∈ item.actions) : refs.map (·.1) = data.mentions := by
  rcases item.sound_actions with ⟨name', -, hactions⟩ | ⟨-, hsound⟩
  · rw [hactions] at h
    cases List.mem_singleton.mp h
    rfl
  · exact hsound.refs h

theorem mem_declaredNames {item : Stmt} {n : String} : n ∈ item.declaredNames ↔ ∃ a ∈ item.actions, a.name? = some n := by
  rw [← filterMap_name?_actions, List.mem_filterMap]

end Stmt

/-! ## The invariant -/

/-- An item is wrong by itself, or it mentions what no item declares as a type. -/
def Stmt.Faulty (items : List Stmt) : Prop :=
  (∃ e, .report e ∈ items.flatMap actions) ∨
    ∃ name kind data refs, .enter name kind data refs ∈ items.flatMap actions ∧ ∃ m ∈ data.mentions, m ∉ typeNames items

namespace Survey

/-- An error is reported, or a name is entered as one from the beginning. -/
def Bad (items : List Stmt) (errors : List ScopeError) : Prop :=
  Fatal errors ∨ ∃ name data refs, .enter name .error data refs ∈ items.flatMap Stmt.actions

theorem Bad.append_left {items : List Stmt} {errors : List ScopeError} (h : Bad items errors) (more : List ScopeError) :
    Bad items (errors ++ more) := h.imp (·.append_left _) id

/-- What is true of a survey after the first tasks of the items, if the entries of some names are still to be
looked at once more. -/
structure Tabled (items : List Stmt) (done : List (Nat × Action)) (todo : List (String × TypeRefs)) (s : Survey) : Prop where
  taken : done.IsPrefix (Stmt.tasks 0 items)
  nodup : s.scope.names.Nodup
  names : ∀ n, n ∈ s.scope.names ↔ ∃ p ∈ done, p.2.name? = some n
  owner : ∀ {n e}, s.scope.get? n = some e → items[e.root]? = some e.item ∧
    ∃ name kind refs, name.text = n ∧ (e.root, .enter name kind e.data refs) ∈ done ∧ (e.kind = kind ∨ e.kind = .error)
  waits : ∀ {n e}, s.scope.get? n = some e → e.unresolved = true → n ∈ todo.map (·.1)
  error : ∀ {n e}, s.scope.get? n = some e → e.kind = .error → Bad items s.errors
  reported : ∀ {i e}, (i, .report e) ∈ done → Fatal s.errors
  /-- A name has an entry that says all that is declared about it, from no later than its first definition. -/
  covers : ¬ Bad items s.errors → ∀ {i item name kind data refs}, (i, .enter name kind data refs) ∈ done → items[i]? = some item →
    ∃ first, s.scope.get? name.text = some first ∧
      first.redeclare { kind, root := i, item, span := name.span, data } = .kept ∧
      (Entry.isDefinition { kind, root := i, item, span := name.span, data } = true → first.root ≤ i)
  typed : ∀ {n e}, s.scope.get? n = some e → e.kind ≠ .error → (∀ m ∈ e.data.mentions, s.scope.IsType m) ∨ n ∈ todo.map (·.1)
  queued : ∀ p ∈ todo, ∃ e, s.scope.get? p.1 = some e ∧ p.2.map (·.1) = e.data.mentions ∧ e.kind ≠ .type
  /-- Where all names are declared once, there is a reason for what is wrong. -/
  flawed : (items.flatMap Stmt.declaredNames).Nodup → ∀ {n e}, s.scope.get? n = some e → e.kind = .error →
    (∃ name refs, name.text = n ∧ .enter name .error e.data refs ∈ items.flatMap Stmt.actions) ∨
      ∃ m ∈ e.data.mentions, m ∉ Stmt.typeNames items
  caused : (items.flatMap Stmt.declaredNames).Nodup → Fatal s.errors → Stmt.Faulty items

namespace Tabled

variable {items : List Stmt} {done : List (Nat × Action)} {todo : List (String × TypeRefs)} {s : Survey}

theorem tasks (h : s.Tabled items done todo) (p : Nat × Action) (hp : p ∈ done) :
    ∃ item, items[p.1]? = some item ∧ p.2 ∈ item.actions := Stmt.mem_tasks.mp (h.taken.subset hp)

theorem mem_actions (h : s.Tabled items done todo) {p : Nat × Action} (hp : p ∈ done) : p.2 ∈ items.flatMap Stmt.actions := by
  obtain ⟨item, hitem, ha⟩ := h.tasks p hp
  exact List.mem_flatMap.mpr ⟨item, List.mem_of_getElem? hitem, ha⟩

/-- Where names turn out not to be types, that is on record. -/
theorem of_failed (h : s.Tabled items done todo) {scope : Scope}
    (hscope : ∀ n e, scope.get? n = some e → s.scope.get? n = some e) {final : Bool} {refs : TypeRefs}
    (hr : (scope.resolve final refs).1 = .failed) : Bad items (s.errors ++ (scope.resolve final refs).2) := by
  have hverdict := Scope.verdict (s := scope) final refs
  rcases hverdict.silent hr with ⟨e, he⟩ | ⟨n, e, he, hk⟩
  · exact .inl ⟨e, List.mem_append_right _ he, (hverdict.fatal e he).1⟩
  · exact (h.error (hscope n e he) hk).append_left _

/-- What has been entered and is not a type is declared as one nowhere. -/
theorem not_mem_typeNames (h : s.Tabled items done todo) (hnodup : (items.flatMap Stmt.declaredNames).Nodup) {n : String}
    {e : Entry} (he : s.scope.get? n = some e) (hk : e.kind ≠ .type) : n ∉ Stmt.typeNames items := by
  intro hn
  obtain ⟨-, name, kind, refs, rfl, hmem, hkind⟩ := h.owner he
  obtain ⟨rfl, hdata⟩ := Stmt.enter_type hnodup (h.mem_actions hmem) hn
  rcases h.flawed hnodup he (hkind.resolve_left hk) with ⟨name', refs', hname, henter⟩ | ⟨m, hm, -⟩
  · cases Stmt.eq_of_name hnodup (h.mem_actions hmem) henter rfl (congrArg some hname)
  · rw [hdata] at hm
    cases hm

/-- An entry that is put into the table in place of the one that was there or as a new one. -/
theorem set (h : s.Tabled items done todo) {name : String} {e : Entry} {errors : List ScopeError}
    {done' : List (Nat × Action)} {todo' deferred : List (String × TypeRefs)} (htaken : done'.IsPrefix (Stmt.tasks 0 items))
    (hsub : ∀ p ∈ done, p ∈ done') (hnew : ∀ p ∈ done', p ∈ done ∨ p.2.name? = some name)
    (howner : items[e.root]? = some e.item ∧ ∃ name' kind refs, name'.text = name ∧
      (e.root, .enter name' kind e.data refs) ∈ done' ∧ (e.kind = kind ∨ e.kind = .error))
    (htodo : ∀ p ∈ todo, p.1 ≠ name → p ∈ todo')
    (hqueued : ∀ p ∈ todo', p ∈ todo ∨ p.1 = name ∧ p.2.map (·.1) = e.data.mentions ∧ e.kind ≠ .type)
    (hwaits : e.unresolved = true → name ∈ todo'.map (·.1)) (herror : e.kind = .error → Bad items (s.errors ++ errors))
    (hcovers : ¬ Bad items (s.errors ++ errors) → ∀ {i item name' kind data refs}, (i, .enter name' kind data refs) ∈ done' →
      items[i]? = some item → name'.text = name → e.redeclare { kind, root := i, item, span := name'.span, data } = .kept ∧
        (Entry.isDefinition { kind, root := i, item, span := name'.span, data } = true → e.root ≤ i))
    (htyped : e.kind ≠ .error → (∀ m ∈ e.data.mentions, s.scope.IsType m) ∨ name ∈ todo'.map (·.1))
    (hold : ∀ first, s.scope.get? name = some first → first.kind ≠ .type ∧ e.kind ≠ .type ∧ first.data.mentions = e.data.mentions)
    (hflawed : (items.flatMap Stmt.declaredNames).Nodup → e.kind = .error →
      (∃ name' refs, name'.text = name ∧ .enter name' .error e.data refs ∈ items.flatMap Stmt.actions) ∨
        ∃ m ∈ e.data.mentions, m ∉ Stmt.typeNames items)
    (hcaused : (items.flatMap Stmt.declaredNames).Nodup → Fatal errors → Stmt.Faulty items) :
    Tabled items done' todo' { scope := s.scope.set name e, errors := s.errors ++ errors, deferred } := by
  -- Every entry is the new one or one of the old ones, under another name.
  have hget : ∀ {n e'}, (s.scope.set name e).get? n = some e' → n = name ∧ e' = e ∨ n ≠ name ∧ s.scope.get? n = some e' := by
    intro n e' he'
    rw [NameTable.get?_set] at he'
    by_cases hn : name = n
    · rw [if_pos hn] at he'
      exact .inl ⟨hn.symm, (Option.some.inj he').symm⟩
    · rw [if_neg hn] at he'
      exact .inr ⟨Ne.symm hn, he'⟩
  have hother : ∀ {n e'}, n ≠ name → s.scope.get? n = some e' → (s.scope.set name e).get? n = some e' := fun hn he' =>
    (NameTable.get?_set ..).trans ((if_neg (Ne.symm hn)).trans he')
  have hself : (s.scope.set name e).get? name = some e := (NameTable.get?_set ..).trans (if_pos rfl)
  have htypes : ∀ {m}, s.scope.IsType m → Scope.IsType (s.scope.set name e) m := by
    rintro m ⟨e', he', hk⟩
    refine ⟨e', hother ?_ he', hk⟩
    rintro rfl
    exact (hold e' he').1 hk
  refine ⟨htaken, NameTable.nodup_names_set h.nodup _ _, fun n => ?_, fun {n e'} he' => ?_, fun {n e'} he' hu => ?_,
    fun {n e'} he' hk => ?_, fun {i e'} he' => ?_, fun hb {i item name' kind data refs} hmem hitem => ?_,
    fun {n e'} he' hk => ?_, fun p hp => ?_, fun hnodup {n e'} he' hk => ?_, fun hnodup hf => ?_⟩
  · rw [NameTable.mem_names_set, h.names]
    constructor
    · rintro (rfl | ⟨p, hp, hname⟩)
      · obtain ⟨-, name', kind, refs, hname, hmem, -⟩ := howner
        exact ⟨_, hmem, congrArg some hname⟩
      · exact ⟨p, hsub p hp, hname⟩
    · rintro ⟨p, hp, hname⟩
      rcases hnew p hp with hp | hname'
      · exact .inr ⟨p, hp, hname⟩
      · exact .inl (Option.some.inj (hname.symm.trans hname'))
  · rcases hget he' with ⟨rfl, rfl⟩ | ⟨-, he'⟩
    · exact howner
    · obtain ⟨hroot, name', kind, refs, hname, hmem, hk⟩ := h.owner he'
      exact ⟨hroot, name', kind, refs, hname, hsub _ hmem, hk⟩
  · rcases hget he' with ⟨rfl, rfl⟩ | ⟨hn, he'⟩
    · exact hwaits hu
    · obtain ⟨p, hp, rfl⟩ := List.mem_map.mp (h.waits he' hu)
      exact List.mem_map.mpr ⟨p, htodo p hp hn, rfl⟩
  · rcases hget he' with ⟨rfl, rfl⟩ | ⟨-, he'⟩
    · exact herror hk
    · exact (h.error he' hk).append_left _
  · rcases hnew _ he' with he' | hname
    · exact (h.reported he').append_left _
    · cases hname
  · by_cases hname : name'.text = name
    · exact ⟨e, hname ▸ hself, hcovers hb hmem hitem hname⟩
    · rcases hnew _ hmem with hmem | hname'
      · obtain ⟨first, hfirst, hrest⟩ := h.covers (fun hb' => hb (hb'.append_left _)) hmem hitem
        exact ⟨first, hother hname hfirst, hrest⟩
      · exact absurd (Option.some.inj hname') hname
  · rcases hget he' with ⟨rfl, rfl⟩ | ⟨hn, he'⟩
    · exact (htyped hk).imp (fun hall m hm => htypes (hall m hm)) id
    · refine (h.typed he' hk).imp (fun hall m hm => htypes (hall m hm)) fun hmem => ?_
      obtain ⟨p, hp, rfl⟩ := List.mem_map.mp hmem
      exact List.mem_map.mpr ⟨p, htodo p hp hn, rfl⟩
  · rcases hqueued p hp with hp | ⟨rfl, hrefs⟩
    · obtain ⟨e', he', hrefs, hk⟩ := h.queued p hp
      by_cases hn : p.1 = name
      · obtain ⟨-, hk, hmentions⟩ := hold e' (hn ▸ he')
        exact ⟨e, hn ▸ hself, hrefs.trans hmentions, hk⟩
      · exact ⟨e', hother hn he', hrefs, hk⟩
    · exact ⟨e, hself, hrefs⟩
  · rcases hget he' with ⟨rfl, rfl⟩ | ⟨-, he'⟩
    · exact hflawed hnodup hk
    · exact h.flawed hnodup he' hk
  · exact hf.of_append.elim (h.caused hnodup) (hcaused hnodup)

/-! ## Actions -/

section

variable (h : s.Tabled items done s.deferred) {root : Nat} {a : Action}
  (htaken : (done ++ [(root, a)]).IsPrefix (Stmt.tasks 0 items))

include htaken

/-- Where all names are declared once, the next one is new. -/
theorem fresh (hnodup : (items.flatMap Stmt.declaredNames).Nodup) {n : String} (hn : a.name? = some n) (p : Nat × Action)
    (hp : p ∈ done) : p.2.name? ≠ some n := by
  intro hname
  rw [← Stmt.filterMap_name?_tasks] at hnodup
  have hdone := hnodup.sublist (htaken.sublist.filterMap _)
  rw [List.filterMap_append, List.nodup_append] at hdone
  exact hdone.2.2 n (List.mem_filterMap.mpr ⟨p, hp, hname⟩) n (List.mem_filterMap.mpr ⟨_, List.mem_singleton.mpr rfl, hn⟩) rfl

theorem le_root (p : Nat × Action) (hp : p ∈ done) : p.1 ≤ root :=
  (List.pairwise_append.mp ((Stmt.pairwise_tasks items).sublist htaken.sublist)).2.2 p hp _ (List.mem_singleton.mpr rfl)

include h

/-- An action that leaves the entries as they are. -/
theorem keep {item : Stmt} (hroot : items[root]? = some item) {errors : List ScopeError}
    (hname : ∀ n, a.name? = some n → n ∈ s.scope.names) (hreport : ∀ e, a = .report e → Fatal errors)
    (hcovers : ¬ Bad items (s.errors ++ errors) → ∀ {name kind data refs}, a = .enter name kind data refs →
      ∃ first, s.scope.get? name.text = some first ∧ first.redeclare { kind, root, item, span := name.span, data } = .kept)
    (hcaused : (items.flatMap Stmt.declaredNames).Nodup → Fatal errors → Stmt.Faulty items) :
    (s.report errors).Tabled items (done ++ [(root, a)]) s.deferred := by
  have hnew : ∀ p ∈ done ++ [(root, a)], p ∈ done ∨ p = (root, a) := fun p hp =>
    (List.mem_append.mp hp).imp id List.mem_singleton.mp
  refine ⟨htaken, h.nodup, fun n => (h.names n).trans ⟨?_, ?_⟩, fun he => ?_, h.waits, fun he hk => (h.error he hk).append_left _,
    fun {i e} he => ?_, fun hb {i item' name kind data refs} hmem hitem => ?_, h.typed, h.queued, h.flawed,
    fun hnodup hf => hf.of_append.elim (h.caused hnodup) (hcaused hnodup)⟩
  · rintro ⟨p, hp, hn⟩
    exact ⟨p, List.mem_append_left _ hp, hn⟩
  · rintro ⟨p, hp, hn⟩
    rcases hnew p hp with hp | rfl
    · exact ⟨p, hp, hn⟩
    · exact (h.names n).mp (hname n hn)
  · obtain ⟨hroot, name, kind, refs, hname, hmem, hk⟩ := h.owner he
    exact ⟨hroot, name, kind, refs, hname, List.mem_append_left _ hmem, hk⟩
  · rcases hnew _ he with he | heq
    · exact (h.reported he).append_left _
    · exact (hreport e (congrArg Prod.snd heq).symm).append_right _
  · rcases hnew _ hmem with hmem | heq
    · exact h.covers (fun hb' => hb (hb'.append_left _)) hmem hitem
    · obtain ⟨rfl, rfl⟩ := Prod.mk.inj heq
      cases hroot.symm.trans hitem
      obtain ⟨first, hfirst, hkept⟩ := hcovers hb rfl
      obtain ⟨-, _, _, _, -, hdone, -⟩ := h.owner hfirst
      exact ⟨first, hfirst, hkept, fun _ => le_root htaken _ hdone⟩

theorem run {item : Stmt} (hroot : items[root]? = some item) :
    (a.run root item s).Tabled items (done ++ [(root, a)]) (a.run root item s).deferred := by
  have hlast : (root, a) ∈ done ++ [(root, a)] := List.mem_append_right _ (List.mem_singleton.mpr rfl)
  obtain ⟨item', hitem', ha⟩ := Stmt.mem_tasks.mp (htaken.subset hlast)
  cases hroot.symm.trans hitem'
  have hall : a ∈ items.flatMap Stmt.actions := List.mem_flatMap.mpr ⟨item, List.mem_of_getElem? hroot, ha⟩
  cases a with
  | report e =>
    have hfatal : Fatal [e] := ⟨e, List.mem_singleton.mpr rfl, Stmt.fatal_actions e hall⟩
    exact h.keep htaken hroot (fun _ hn => by cases hn) (fun _ _ => hfatal) (fun hb => absurd (.inl (hfatal.append_right _)) hb) fun _ _ => .inl ⟨e, hall⟩
  | enter name kind data refs =>
    have hrefs : refs.map (·.1) = data.mentions := item.refs_of_enter ha
    have htype : (s.scope.resolve false refs).1 = .deferred → kind ≠ .type := by
      rintro hr rfl
      rcases item.sound_actions with ⟨name', -, hactions⟩ | ⟨-, hsound⟩
      · rw [hactions] at ha
        cases List.mem_singleton.mp ha
        cases hr
      · exact hsound.kind ha rfl
    have hverdict := Scope.verdict (s := s.scope) false refs
    have hof : (s.scope.resolve false refs).1 = .failed → Bad items (s.errors ++ (s.scope.resolve false refs).2) :=
      h.of_failed (fun _ _ => id)
    have hflaw : (items.flatMap Stmt.declaredNames).Nodup → (s.scope.resolve false refs).1 = .failed →
        ∃ m ∈ data.mentions, m ∉ Stmt.typeNames items := by
      intro hnodup hr
      obtain ⟨p, hp, hnot, hsome⟩ := hverdict.failed hr
      refine ⟨p.1, hrefs ▸ List.mem_map_of_mem hp, ?_⟩
      cases he : s.scope.get? p.1 with
      | none => cases hsome he
      | some e => exact h.not_mem_typeNames hnodup he fun hk => hnot ⟨e, he, hk⟩
    have hcaused : (items.flatMap Stmt.declaredNames).Nodup → Fatal (s.scope.resolve false refs).2 → Stmt.Faulty items := by
      intro hnodup hfatal
      obtain ⟨e, he, -⟩ := hfatal
      exact .inr ⟨name, kind, data, refs, hall, hflaw hnodup (hverdict.fatal e he).2⟩
    rw [Action.run]
    rcases s.declareWith_cases name.text { kind, root, item, span := name.span, data } refs with
      ⟨hstored, heq⟩ | ⟨first, more, hfirst, heq, hmore⟩
    · rw [heq]
      generalize (s.scope.resolve false refs).2 = errors at *
      generalize (s.scope.resolve false refs).1 = r at *
      have hwaits : r = .deferred → name.text ∈ (s.deferred ++
          if r = .deferred ∧ name.text ∉ s.deferred.map (·.1) then [(name.text, refs)] else []).map (·.1) := by
        intro hr
        by_cases hmem : name.text ∈ s.deferred.map (·.1) <;> simp [hr, hmem]
      have hreplaces : ∀ {first}, s.scope.get? name.text = some first →
          first.redeclare (Entry.under { kind, root, item, span := name.span, data } r) = .stored := by
        intro first hfirst
        simpa only [Scope.declare, hfirst] using hstored
      have hnew : ∀ p ∈ done ++ [(root, .enter name kind data refs)], p ∈ done ∨ p = (root, .enter name kind data refs) :=
        fun p hp => (List.mem_append.mp hp).imp id List.mem_singleton.mp
      refine h.set htaken (fun p hp => List.mem_append_left _ hp) (fun p hp => (hnew p hp).imp id fun heq => congrArg (·.2.name?) heq)
        ?_ (fun p hp _ => List.mem_append_left _ hp) (fun p hp => ?_) (fun hu => hwaits ?_) (fun hk => ?_)
        (fun hb {i item' name' kind' data' refs'} hmem hitem hname => ?_) (fun hk => ?_) (fun first hfirst => ?_)
        (fun hnodup hk => ?_) hcaused
      · cases r
        all_goals exact ⟨hroot, name, kind, refs, rfl, hlast, by simp [Entry.under]⟩
      · rw [Entry.data_under]
        refine (List.mem_append.mp hp).imp id fun hp => ?_
        split at hp
        next hr =>
          rw [List.mem_singleton.mp hp]
          rw [Entry.kind_under, hr.1]
          exact ⟨rfl, hrefs, htype hr.1⟩
        · cases hp
      · cases r with
        | deferred => rfl
        | _ => cases hu
      · rw [Entry.kind_under] at hk
        by_cases hr : r = .failed
        · exact hof hr
        · rw [if_neg hr] at hk
          exact .inr ⟨name, data, refs, (show kind = .error from hk) ▸ hall⟩
      · rcases hnew _ hmem with hmem | heq
        · obtain ⟨first, hfirst, hkept, -⟩ := h.covers (fun hb' => hb (hb'.append_left _)) hmem hitem
          obtain ⟨hkept, hdef⟩ := Entry.redeclare_replaced (hreplaces (hname ▸ hfirst)) hkept
          exact ⟨hkept, fun h => by rw [hdef] at h; cases h⟩
        · cases heq
          cases hroot.symm.trans hitem
          refine ⟨(Entry.under_redeclare fun hr => hb (hof hr)).trans (Entry.redeclare_self _), fun _ => ?_⟩
          cases r <;> exact Nat.le_refl _
      · rw [Entry.data_under]
        cases hr : r with
        | failed => exact absurd (by rw [Entry.kind_under, if_pos hr]) hk
        | deferred => exact .inr (hr ▸ hwaits hr)
        | resolved =>
          refine .inl fun m hm => ?_
          rw [← hrefs] at hm
          obtain ⟨p, hp, rfl⟩ := List.mem_map.mp hm
          exact hverdict.resolved hr p hp
      · have hstored := hreplaces hfirst
        have hmentions := Entry.mentions_of_stored hstored
        rcases Entry.redeclare_stored hstored with ⟨hfirst, hnext, -⟩ | ⟨hfirst, hnext, -⟩
        all_goals
          rw [hfirst, hnext]
          exact ⟨(fun h => by cases h), (fun h => by cases h), hmentions⟩
      · rw [Entry.data_under]
        rw [Entry.kind_under] at hk
        by_cases hr : r = .failed
        · exact .inr (hflaw hnodup hr)
        · rw [if_neg hr] at hk
          exact .inl ⟨name, refs, rfl, (show kind = .error from hk) ▸ hall⟩
    · rw [heq]
      refine h.keep htaken hroot (fun n hn => ?_) (fun _ he => by cases he) (fun hb {_ _ _ _} heq => ?_) (fun hnodup _ => ?_)
      · rw [NameTable.mem_names, ← Option.some.inj hn, hfirst]
        exact Option.some_ne_none _
      · cases heq
        rw [← List.append_assoc] at hb
        rcases hmore with hfatal | ⟨-, hkept⟩
        · exact absurd (.inl (hfatal.append_right _)) hb
        · refine ⟨first, hfirst, (Entry.redeclare_under fun hr => hb ?_).symm.trans hkept⟩
          exact (hof hr).append_left more
      · obtain ⟨p, hp, hname⟩ := (h.names name.text).mp (NameTable.mem_names.mpr (hfirst ▸ Option.some_ne_none _))
        exact absurd hname (fresh htaken hnodup rfl p hp)

end

theorem run_all (h : s.Tabled items done s.deferred) {root : Nat} {item : Stmt} (hroot : items[root]? = some item)
    (as : List Action) (htaken : (done ++ as.map (root, ·)).IsPrefix (Stmt.tasks 0 items)) :
    (as.foldl (Action.run root item) s).Tabled items (done ++ as.map (root, ·)) (as.foldl (Action.run root item) s).deferred := by
  induction as generalizing s done with
  | nil => rwa [List.map_nil, List.append_nil]
  | cons a as ih =>
    rw [List.map_cons, ← List.singleton_append, ← List.append_assoc] at htaken ⊢
    exact ih (h.run ((List.prefix_append _ _).trans htaken) hroot) htaken

theorem declareItems (h : s.Tabled items done s.deferred) (root : Nat) (rest : List Stmt) (hrest : items.drop root = rest)
    (hdone : done ++ Stmt.tasks root rest = Stmt.tasks 0 items) :
    (s.declareItems root rest).Tabled items (Stmt.tasks 0 items) (s.declareItems root rest).deferred := by
  induction rest generalizing s done root with
  | nil =>
    rw [show Stmt.tasks root [] = [] from rfl, List.append_nil] at hdone
    rwa [hdone] at h
  | cons item rest ih =>
    have hroot : items[root]? = some item := by rw [← Nat.add_zero root, ← List.getElem?_drop, hrest]; rfl
    have htasks : Stmt.tasks root (item :: rest) = item.actions.map (root, ·) ++ Stmt.tasks (root + 1) rest := rfl
    rw [htasks, ← List.append_assoc] at hdone
    have hitem := h.run_all hroot item.actions ⟨_, hdone⟩
    rw [← declareItem_eq] at hitem
    refine ih hitem (root + 1) ?_ hdone
    rw [← List.drop_drop, hrest]
    rfl

/-! ## The second look -/

theorem mem_names_iff (h : s.Tabled items (Stmt.tasks 0 items) todo) (name : String) :
    name ∈ s.scope.names ↔ ∃ item ∈ items, name ∈ item.declaredNames := by
  rw [h.names, ← List.mem_flatMap, ← Stmt.filterMap_name?_tasks, List.mem_filterMap]

theorem resolveDeferred {name : String} {refs : TypeRefs} (h : s.Tabled items (Stmt.tasks 0 items) ((name, refs) :: todo)) :
    (s.resolveDeferred name refs).Tabled items (Stmt.tasks 0 items) todo := by
  obtain ⟨e, he, hrefs, htype⟩ := h.queued _ List.mem_cons_self
  have hscope : ∀ n e', NameTable.get? n (s.scope.erase name) = some e' → s.scope.get? n = some e' := by
    intro n e' he'
    rw [NameTable.get?_erase h.nodup] at he'
    by_cases hn : name = n
    · rw [if_pos hn] at he'
      cases he'
    · rwa [if_neg hn] at he'
  have hverdict := Scope.verdict (s := s.scope.erase name) true refs
  have hfailed : (Scope.resolve (s.scope.erase name) true refs).1 ≠ .resolved →
      (Scope.resolve (s.scope.erase name) true refs).1 = .failed := by
    intro hr
    cases hr' : (Scope.resolve (s.scope.erase name) true refs).1 with
    | resolved => exact absurd hr' hr
    | failed => rfl
    | deferred => cases hverdict.deferred hr'
  have hflaw : (items.flatMap Stmt.declaredNames).Nodup → (Scope.resolve (s.scope.erase name) true refs).1 = .failed →
      ∃ m ∈ e.data.mentions, m ∉ Stmt.typeNames items := by
    intro hnodup hr
    obtain ⟨p, hp, hnot, -⟩ := hverdict.failed hr
    refine ⟨p.1, hrefs ▸ List.mem_map_of_mem hp, ?_⟩
    cases he' : s.scope.get? p.1 with
    | none => exact fun hn => NameTable.get?_eq_none.mp he' ((h.mem_names_iff p.1).mpr (Stmt.declared_of_typeName hn))
    | some e' =>
      -- The name itself is none of the types.
      refine h.not_mem_typeNames hnodup he' fun hk => ?_
      by_cases hn : name = p.1
      · cases he.symm.trans (hn ▸ he')
        exact htype hk
      · exact hnot ⟨e', (NameTable.get?_erase h.nodup ..).trans ((if_neg hn).trans he'), hk⟩
  obtain ⟨hroot, name', kind, refs', hname, hmem, hk⟩ := h.owner he
  unfold Survey.resolveDeferred
  rw [he]
  dsimp only
  refine h.set (List.prefix_refl _) (fun p => id) (fun p => .inl) ⟨hroot, name', kind, refs', hname, hmem, ?_⟩
    (fun p hp hne => (List.mem_cons.mp hp).resolve_left fun heq => hne (congrArg (·.1) heq))
    (fun p hp => .inl (List.mem_cons_of_mem _ hp)) nofun (fun hk => ?_)
    (fun hb {i item name' kind' data' refs'} hmem hitem hname => ?_) (fun hk => .inl fun m hm => ?_) (fun first hfirst => ?_)
    (fun hnodup hk => ?_) (fun hnodup ⟨e', he', _⟩ => ?_)
  · dsimp only
    split
    · exact hk
    · exact .inr rfl
  · by_cases hr : (Scope.resolve (s.scope.erase name) true refs).1 = .resolved
    · exact (h.error he ((if_pos hr).symm.trans hk)).append_left _
    · exact h.of_failed hscope (hfailed hr)
  · obtain ⟨first, hfirst, hrest⟩ := h.covers (fun hb' => hb (hb'.append_left _)) hmem hitem
    cases he.symm.trans (hname ▸ hfirst)
    rw [if_pos (Decidable.byContradiction fun hr => hb (h.of_failed hscope (hfailed hr)))]
    exact hrest
  · have hr := Decidable.byContradiction fun hr => hk (if_neg hr)
    rw [show m ∈ e.data.mentions ↔ m ∈ refs.map (·.1) by rw [hrefs]] at hm
    obtain ⟨p, hp, rfl⟩ := List.mem_map.mp hm
    obtain ⟨e', he', hk⟩ := hverdict.resolved hr p hp
    exact ⟨e', hscope _ _ he', hk⟩
  · cases he.symm.trans hfirst
    refine ⟨htype, fun hk => ?_, rfl⟩
    dsimp only at hk
    split at hk
    · exact htype hk
    · cases hk
  · by_cases hr : (Scope.resolve (s.scope.erase name) true refs).1 = .resolved
    · have hk : e.kind = .error := (if_pos hr).symm.trans hk
      exact (h.flawed hnodup he hk :)
    · exact .inr (hflaw hnodup (hfailed hr))
  · exact .inr ⟨name', kind, e.data, refs', h.mem_actions hmem, hflaw hnodup (hverdict.fatal e' he').2⟩

theorem resolve_all (queue : List (String × TypeRefs)) (h : s.Tabled items (Stmt.tasks 0 items) queue) :
    (queue.foldl (fun s p => s.resolveDeferred p.1 p.2) s).Tabled items (Stmt.tasks 0 items) [] := by
  induction queue generalizing s with
  | nil => exact h
  | cons p queue ih => exact ih h.resolveDeferred

end Tabled
end Survey

/-! ## Whole programs -/

/-- What is true when all items have been looked at once. -/
theorem Survey.tabled_declareItems (items : List Stmt) :
    (Survey.declareItems {} 0 items).Tabled items (Stmt.tasks 0 items) (Survey.declareItems {} 0 items).deferred := by
  have hstart : Survey.Tabled items [] ({} : Survey).deferred {} := by
    constructor <;> simp [NameTable.names, NameTable.get?, Fatal]
  exact hstart.declareItems 0 items rfl rfl

theorem Survey.tabled_ofItems (items : List Stmt) :
    (Survey.declareItems {} 0 items).resolveAll.Tabled items (Stmt.tasks 0 items) [] :=
  (Survey.tabled_declareItems items).resolve_all _

theorem Survey.fatal_unusedPrototypes (errors : List ScopeError) (scope : Scope) :
    Fatal (errors ++ unusedPrototypes scope) ↔ Fatal errors := by
  refine ⟨fun h => ?_, fun h => h.append_left _⟩
  rcases Fatal.of_append h with h | ⟨e, he, hw⟩
  · exact h
  · obtain ⟨p, -, rfl⟩ := List.mem_map.mp he
    cases hw

theorem Survey.not_bad {items : List Stmt} (hbroken : ∀ item ∈ items, item.isBroken = false)
    (h : ¬ Fatal (Scope.ofItems items).errors) : ¬ Bad items (Survey.declareItems {} 0 items).resolveAll.errors := by
  rw [Scope.ofItems, fatal_unusedPrototypes] at h
  rintro (hfatal | ⟨name, data, refs, henter⟩)
  · exact h hfatal
  · obtain ⟨e, he⟩ := Stmt.reported_actions hbroken henter
    obtain ⟨item, hitem, he⟩ := List.mem_flatMap.mp he
    obtain ⟨i, hi⟩ := List.getElem?_of_mem hitem
    exact h ((tabled_ofItems items).reported (Stmt.mem_tasks.mpr ⟨item, hi, he⟩))

/-- **The table of names is in order, whatever the items are.** It has an entry for each name that is declared and for no
other, and one only. None of them waits for its types any more. Each comes from an item that declares its name; and
if one is an error, then an error was reported, or the form of some item was broken to begin with. -/
theorem Scope.table_in_order (items : List Stmt) :
    (Scope.ofItems items).scope.names.Nodup ∧
      (∀ name, name ∈ (Scope.ofItems items).scope.names ↔ ∃ item ∈ items, name ∈ item.declaredNames) ∧
      ∀ name e, (Scope.ofItems items).scope.get? name = some e →
        e.unresolved = false ∧ items[e.root]? = some e.item ∧ name ∈ e.item.declaredNames ∧
          (e.kind = .error → (∃ error ∈ (Scope.ofItems items).errors, error.isWarning = false) ∨
            ∃ item ∈ items, item.isBroken = true) := by
  have hall := Survey.tabled_ofItems items
  refine ⟨hall.nodup, hall.mem_names_iff, fun name e he => ?_⟩
  have hresolved : e.unresolved = false := by
    cases hu : e.unresolved with
    | false => rfl
    | true => cases hall.waits he hu
  obtain ⟨hroot, name', kind, refs, hname, hmem, -⟩ := hall.owner he
  obtain ⟨item, hitem, ha⟩ := hall.tasks _ hmem
  cases hroot.symm.trans hitem
  refine ⟨hresolved, hroot, Stmt.mem_declaredNames.mpr ⟨_, ha, congrArg some hname⟩, fun hk => ?_⟩
  by_cases hbroken : ∃ item ∈ items, item.isBroken = true
  · exact .inr hbroken
  · refine .inl (Classical.byContradiction fun h => Survey.not_bad (fun item hitem => ?_) h (hall.error he hk))
    exact Bool.eq_false_iff.mpr fun h => hbroken ⟨item, hitem, h⟩

end Wordstack
