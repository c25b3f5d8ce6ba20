/-
What a computation with a state ensures of its result. Reports are only ever added to a
state, so a state that is clean at the end has been clean all the way; the facts about
each part of a computation are then put together at its end, where it is known to be so.
-/
import Wordstack.Code.Expr

namespace Wordstack

variable {σ α β : Type}

/-- What is watched of the states that a computation goes through. -/
structure Watch (σ : Type) where
  /-- Holds of all of them if it holds of the first. -/
  inv : σ → Prop
  /-- Holds of all of them if it holds of the last. -/
  clean : σ → Prop

def Watch.ignore : Watch σ where
  inv _ := True
  clean _ := True

/-- If `x` leaves a clean state, it has found one, and its result is as `Q` says. -/
structure Ensures (W : Watch σ) (x : StateM σ α) (Q : α → Prop) : Prop where
  inv : ∀ s, W.inv s → W.inv (x s).2
  clean : ∀ s, W.inv s → W.clean (x s).2 → W.clean s ∧ Q (x s).1

namespace Ensures

variable {W : Watch σ} {x : StateM σ α} {f : α → StateM σ β} {Q R : α → Prop} {Q' : β → Prop}

theorem pure {a : α} (h : Q a) : Ensures W (Pure.pure a) Q := ⟨fun _ hs => hs, fun _ _ hc => ⟨hc, h⟩⟩

theorem mono (hx : Ensures W x R) (h : ∀ a, R a → Q a) : Ensures W x Q := by
  refine ⟨hx.inv, fun s hs hc => ?_⟩
  obtain ⟨h₀, hr⟩ := hx.clean s hs hc
  exact ⟨h₀, h _ hr⟩

/-- What the first part ensures may be used in what is said about the whole. -/
theorem bind (hx : Ensures W x R) (hf : ∀ a, Ensures W (f a) fun b => R a → Q' b) : Ensures W (x >>= f) Q' := by
  refine ⟨fun s hs => (hf _).inv _ (hx.inv s hs), fun s hs hc => ?_⟩
  obtain ⟨hm, hq⟩ := (hf _).clean _ (hx.inv s hs) hc
  obtain ⟨h₀, hr⟩ := hx.clean s hs hm
  exact ⟨h₀, hq hr⟩

/-- Nothing is asked of the states. -/
theorem ignore_iff : Ensures Watch.ignore x Q ↔ ∀ s, Q (x s).1 :=
  ⟨fun h s => (h.clean s True.intro True.intro).2, fun h => ⟨fun _ _ => True.intro, fun s _ _ => ⟨True.intro, h s⟩⟩⟩

theorem trivial : Ensures Watch.ignore x fun _ => True := ignore_iff.mpr fun _ => True.intro

/-- What holds of every result may be added to what is ensured. -/
theorem withResult (hx : Ensures W x R) (h : Ensures Watch.ignore x Q) : Ensures W x fun a => R a ∧ Q a := by
  refine ⟨hx.inv, fun s hs hc => ?_⟩
  obtain ⟨h₀, hr⟩ := hx.clean s hs hc
  exact ⟨h₀, hr, ignore_iff.mp h s⟩

theorem and (hx : Ensures W x R) (h : Ensures W x Q) : Ensures W x fun a => R a ∧ Q a := by
  refine ⟨hx.inv, fun s hs hc => ?_⟩
  obtain ⟨h₀, hr⟩ := hx.clean s hs hc
  exact ⟨h₀, hr, (h.clean s hs hc).2⟩

end Ensures

/-! ## Notes -/

/-- Nothing was reported but warnings. -/
def Notes.Accepted (notes : Notes) : Prop := ∀ e ∈ notes.errors, e.diagnostic.isWarning = true

namespace Lower

def accepted : Watch Notes where
  inv _ := True
  clean := Notes.Accepted

theorem ensures_report (e : CodeError) : Ensures accepted (report e) fun _ => e.diagnostic.isWarning = true := by
  refine ⟨fun _ _ => True.intro, fun s _ h => ⟨fun d hd => h d ?_, h e ?_⟩⟩
  · exact List.mem_append_left _ hd
  · exact List.mem_append_right _ (List.mem_singleton.mpr rfl)

/-- Of what is made behind a report, the warnings apart, nothing has to be shown. -/
theorem ensures_rejected {α : Type} {e : CodeError} (he : e.diagnostic.isWarning = false) (a : α) {Q : α → Prop} :
    Ensures accepted (report e >>= fun _ => pure a) Q :=
  (ensures_report e).bind fun _ => .pure fun h => absurd (he.symm.trans h) Bool.false_ne_true

theorem ensures_intern (text : String) : Ensures accepted (intern text) fun _ => True :=
  ⟨fun _ _ => True.intro, fun _ _ h => ⟨h, True.intro⟩⟩

/-- The code that finds an element of an array. -/
def elementAddress (span : Span) (index array : List Command) : List Command :=
  index ++ [{ op := .pushUnsign, operand := .unsigned Ty.slotSize.toUInt64, span }, { op := .mul, span }] ++ array ++
    [{ op := .add, span }]

/-- An element is read at its address, and there is one index, if nothing else was reported. -/
theorem ensures_index {W : Watch Notes} {R : Prop} {Q : Produced → Prop} {env : Env} {t : Token} {base i : Expr}
    {more : List Expr} (hr : Ensures W (report (.indexCount (Expr.index t base (i :: more)).span)) fun _ => R)
    (h : Ensures W (do
      let index ← single i (← i.lower env)
      let array ← single base (← base.lower env)
      return ⟨elementAddress t.span index array ++ [{ op := .load, span := t.span }], 1⟩) fun p => (more ≠ [] → R) → Q p) :
    Ensures W ((Expr.index t base (i :: more)).lower env) Q := by
  unfold Expr.lower
  simp only [elementAddress, List.append_assoc, List.cons_append, List.nil_append] at h ⊢
  split
  · exact hr.bind fun _ => h.mono fun _ h hr => h fun _ => hr
  next hmore => exact h.mono fun _ h => h fun hne => absurd (by simpa using hmore) hne

end Lower
end Wordstack
