/-
The globals of any text, also of one that is refused: where each of them is kept, and what they hold before anything
is executed.
-/
import Wordstack.Proofs.Correctness
import Wordstack.Proofs.Points
import Wordstack.Proofs.ScopeTable

namespace Wordstack

open Lower

variable {items : List Stmt} {scope : Scope}

/-- Only what is written as a variable is entered as one. -/
theorem Stmt.mem_variables {item : Stmt} {name : Token} {data : SymbolData} {refs : TypeRefs} {x : String}
    (ha : .enter name .var data refs ∈ item.actions) (hx : x ∈ item.declaredNames) : x ∈ item.variables.map (·.text) := by
  unfold Stmt.actions at ha
  cases item with
  | declare | declareAs | define | declareMany | declareManyAs => exact hx
  | external t ty =>
    dsimp only [Action.external] at ha
    repeat' split at ha
    all_goals simp [Action.fail] at ha
  | use =>
    dsimp only at ha
    repeat' split at ha
    all_goals simp at ha
  | _ => simp at ha

theorem Scope.owned_ofItems (items : List Stmt) : (Scope.ofItems items).scope.Owned items := by
  intro x e he hk
  have htabled := Survey.tabled_ofItems items
  obtain ⟨hroot, name, kind, refs, hname, hmem, hkind⟩ := htabled.owner he
  obtain rfl : kind = .var := (hkind.resolve_right (by rw [hk]; decide)).symm.trans hk
  obtain ⟨item, hitem, ha⟩ := htabled.tasks _ hmem
  cases hroot.symm.trans hitem
  exact ⟨hroot, Stmt.mem_variables ha (Stmt.mem_declaredNames.mpr ⟨_, ha, congrArg some hname⟩)⟩

/-- What the code that sets up the globals begins with, and the slots that it finds. -/
theorem globals_ofItems (h : scope.Owned items) :
    SlotsFilled items scope items.length (Program.ofItems items scope).program.globals ∧
      (Program.ofItems items scope).program.init.code[0]? = some
        { op := .setupGlobal, operand := .unsigned (Layout.ofItems scope items).slots.toUInt64, span := .nowhere, index := 0 } := by
  obtain ⟨⟨code, hfilled, hinit⟩, -⟩ := of_parts (W := .ignore) trivial trivial
    (ensures_filled_initItems h (fun i item hi => by rwa [Nat.zero_add]) _) .trivial
  refine ⟨?_, ?_⟩
  · simpa only [Nat.zero_add] using hfilled (.start items scope)
  · simp [hinit, Program.setup, Function.emitAll_eq]

theorem Layout.size_eq (scope : Scope) (items : List Stmt) :
    8 * (Layout.ofItems scope items).slots = (Layout.ofItems scope items).size :=
  Nat.mul_div_cancel' (Nat.dvd_of_mod_eq_zero (Layout.ok_ofItems scope items).whole)

def SymbolInfo.bytes (s : SymbolInfo) : Nat := (s.type?.map Ty.size).getD Ty.slotSize

/-- What the symbol of a variable says. -/
theorem Scope.Owned.symbol (h : scope.Owned items) {x : String} {s : SymbolInfo}
    (hs : ((Layout.ofItems scope items).symbols scope).get? x = some s) (hk : s.kind = .var) :
    ∃ e o, scope.get? x = some e ∧ e.kind = .var ∧ (Layout.ofItems scope items).offsets.get? x = some o ∧
      s = e.info (some (.static o)) := by
  obtain ⟨e, he, rfl⟩ := Option.map_eq_some_iff.mp ((Layout.get?_symbols ..).symm.trans hs)
  have hk : e.kind = .var := hk
  obtain ⟨o, ho⟩ := h.placed he hk
  exact ⟨e, o, he, hk, ho, by rw [if_pos hk, ho]; rfl⟩

/-- The text has a variable of one word at the offset whose declaration gives it a literal. -/
def HoldsLiteral (source : String) (o : Nat) (v : UInt64) : Prop :=
  ∃ x s e t ty value, (GlobalContext.ofSource source).env.globals.get? x = some s ∧ s.kind = .var ∧ s.isArray = false ∧
    s.storage = some (.static o) ∧ (GlobalContext.ofSource source).scope.get? x = some e ∧
    e.item = .declareAs t ty value ∧ value.atom?.bind Token.value? = some v

theorem Scope.Word.literal_of_declareAs {x : String} {e : Entry} {o : Nat} (h : scope.Owned items)
    (hx : scope.Word items x e o) {t : Token} {ty : TypeExpr} {value : Expr} (hitem : e.item = .declareAs t ty value) :
    e.literal x = (value.atom?.bind Token.value?).getD 0 := by
  have hmem := (h x e hx.entry hx.kind).2
  rw [hitem] at hmem
  obtain rfl : x = t.text := List.mem_singleton.mp hmem
  rw [Entry.literal, hitem, ← Expr.constant?_eq]
  simp [Stmt.initial?]

/-- Each global variable of a text is kept among the globals, in aligned slots of its own. The machine is told to set up
as many slots as there are; those of literals hold them, and all others hold zero. -/
theorem globals_laid_out (source : String) :
    (∀ x s, (GlobalContext.ofSource source).env.globals.get? x = some s → s.kind = .var → ∃ o,
      s.storage = some (.static o) ∧ 8 ∣ o ∧ o + s.bytes ≤ 8 * (SourceUnit.ofSource source).lowered.program.globals.length) ∧
    (∀ x y s t o p, x ≠ y → (GlobalContext.ofSource source).env.globals.get? x = some s →
      (GlobalContext.ofSource source).env.globals.get? y = some t → s.kind = .var → t.kind = .var →
      s.storage = some (.static o) → t.storage = some (.static p) → o + s.bytes ≤ p ∨ p + t.bytes ≤ o) ∧
    (SourceUnit.ofSource source).lowered.program.init.code[0]? = some
      { op := .setupGlobal, operand := .unsigned (SourceUnit.ofSource source).lowered.program.globals.length.toUInt64
        span := .nowhere, index := 0 } ∧
    (∀ o v, HoldsLiteral source o v → (SourceUnit.ofSource source).lowered.program.globals[o / 8]? = some v) ∧
    ∀ i < (SourceUnit.ofSource source).lowered.program.globals.length, (∀ v, ¬ HoldsLiteral source (8 * i) v) →
      (SourceUnit.ofSource source).lowered.program.globals[i]? = some 0 := by
  have howned := Scope.owned_ofItems (parse source).roots
  obtain ⟨hfilled, hinit⟩ := globals_ofItems howned
  have hok := Layout.ok_ofItems (Scope.ofItems (parse source).roots).scope (parse source).roots
  refine ⟨fun x s hs hk => ?_, fun x y s t o p hne hs ht hks hkt ho hp => ?_, ?_, fun o v hv => ?_, fun i hi hno => ?_⟩
  · obtain ⟨e, o, he, -, ho, rfl⟩ := howned.symbol hs hk
    obtain ⟨hmod, hle⟩ := hok.within x e o he ho
    refine ⟨o, rfl, Nat.dvd_of_mod_eq_zero hmod, Nat.le_trans hle (Nat.le_of_eq ?_)⟩
    exact (Layout.size_eq ..).symm.trans (congrArg (8 * ·) hfilled.length.symm)
  · obtain ⟨e, o', he, -, ho', rfl⟩ := howned.symbol hs hks
    obtain ⟨f, p', hf, -, hp', rfl⟩ := howned.symbol ht hkt
    cases ho
    cases hp
    exact hok.apart x y e f o p hne he hf ho' hp'
  · rw [hfilled.length.symm] at hinit
    exact hinit
  · obtain ⟨x, s, e, t, ty, value, hs, hk, hscalar, ho, he, hitem, hv⟩ := hv
    obtain ⟨e', o', he', hk', ho', rfl⟩ := howned.symbol hs hk
    cases ho
    cases he.symm.trans he'
    have hx : (Scope.ofItems (parse source).roots).scope.Word (parse source).roots x e o := ⟨he, hk', hscalar, ho'⟩
    have hslot := hfilled.value x e o hx
    rwa [if_pos (List.getElem?_eq_some_iff.mp (howned x e he hk').1).1, hx.literal_of_declareAs howned hitem, hv] at hslot
  · by_cases hword : ∃ x e o, (Scope.ofItems (parse source).roots).scope.Word (parse source).roots x e o ∧ o / 8 = i
    · obtain ⟨x, e, o, hx, rfl⟩ := hword
      have hzero : e.literal x = 0 := by
        cases hv : (e.item.initial? x).bind Expr.constant? with
        | none => rw [Entry.literal, hv]; rfl
        | some v =>
          obtain ⟨value, hinitial, hvalue⟩ := Option.bind_eq_some_iff.mp hv
          obtain ⟨t, ty, hitem, -⟩ := Stmt.of_initial? hinitial
          rw [Expr.constant?_eq] at hvalue
          refine absurd ⟨x, _, e, t, ty, value, Layout.get?_symbols_var _ hx.entry hx.kind, hx.kind, hx.scalar, ?_, hx.entry,
            hitem, hvalue⟩ (hno v)
          rw [hx.offset, Nat.mul_comm]
          exact congrArg (some ∘ Storage.static) hx.slot.2.1.symm
      have hslot := hfilled.value x e o hx
      rwa [hzero, ite_self] at hslot
    · exact hfilled.zero i hi fun x e o hx heq => hword ⟨x, e, o, hx, heq⟩

end Wordstack
