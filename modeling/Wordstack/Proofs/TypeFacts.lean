/-
What the types that are read from type expressions look like.
-/
import Wordstack.Code.Program

namespace Wordstack

variable {refs refs' : TypeRefs} {ty : TypeExpr} {α : Type}

/-- A description in two parts that succeeds has succeeded in both. -/
theorem Describe.of_bind {β : Type} {d : Describe α} {f : α → Describe β} {b : β} (h : (d >>= f) refs = (.ok b, refs')) :
    ∃ a refs₁, d refs = (.ok a, refs₁) ∧ f a refs₁ = (.ok b, refs') := by
  have hd : (d >>= f) refs = ExceptT.bindCont f (d refs).1 (d refs).2 := rfl
  rw [hd] at h
  cases he : d refs with
  | mk r refs₁ =>
    rw [he] at h
    cases r with
    | error e => cases h
    | ok a => exact ⟨a, refs₁, rfl, h⟩

/-! ## Sizes -/

theorem Expr.arrayLength?_ne_zero {e : Expr} {n : Nat} (h : e.arrayLength? = some n) : n ≠ 0 := by
  unfold Expr.arrayLength? at h
  split at h
  next k _ =>
    split at h
    · cases h
    next hk =>
      obtain rfl := Option.some.inj h
      exact fun h0 => hk (UInt64.toNat_inj.mp h0)
  · cases h

def TypeExpr.isArray : TypeExpr → Bool
  | .array .. => true
  | _ => false

theorem TypeExpr.isArray_describe (hty : ty.isArray = false) {t : Ty}
    (h : ty.describe refs = (.ok t, refs')) : t.isArray = false := by
  cases ty with
  | missing _ => cases h
  | name n =>
    unfold TypeExpr.describe at h
    cases hk : n.kind
    all_goals rw [hk] at h
    case primitive p =>
      cases h
      rfl
    all_goals
      obtain ⟨_, _, _, h⟩ := Describe.of_bind h
      cases h
      rfl
  | pointer _ target | openArray _ element | function _ params =>
    obtain ⟨_, _, _, h⟩ := Describe.of_bind h
    cases h
    rfl
  | array _ _ _ => cases hty
  | functionTo _ params _ returns =>
    obtain ⟨_, _, _, h⟩ := Describe.of_bind h
    obtain ⟨_, _, _, h⟩ := Describe.of_bind h
    cases h
    rfl

/-- There are no empty arrays, and the slots of an array can be counted in a word. -/
theorem TypeExpr.arrayLen_describe : ∀ (ty : TypeExpr) {refs refs' : TypeRefs} {t : Ty},
    ty.describe refs = (.ok t, refs') → 0 < t.arrayLen.getD 1 ∧ t.arrayLen.getD 1 < UInt64.size
  | .array _ length element, _, _, _, h => by
    obtain ⟨el, _, he, h⟩ := Describe.of_bind h
    obtain ⟨hpos, -⟩ := TypeExpr.arrayLen_describe element he
    cases hn : length.arrayLength? with
    | none =>
      rw [hn] at h
      cases h
    | some n =>
      simp only [hn] at h
      split at h
      next hlt =>
        cases h
        exact ⟨Nat.mul_pos (Nat.pos_of_ne_zero (Expr.arrayLength?_ne_zero hn)) hpos, hlt⟩
      · cases h
  | .missing _, _, _, _, h | .name _, _, _, _, h | .pointer .., _, _, _, h | .openArray .., _, _, _, h
  | .function .., _, _, _, h | .functionTo .., _, _, _, h => by
    have hnone := TypeExpr.isArray_describe rfl h
    rw [Ty.isArray, Option.isSome_eq_false_iff, Option.isNone_iff_eq_none] at hnone
    rw [hnone]
    decide

theorem TypeExpr.slotSize_le_size {t : Ty} (h : ty.describe.result.1 = .ok t) : 8 ≤ t.size :=
  Nat.le_mul_of_pos_right 8 (ty.arrayLen_describe (Prod.ext h rfl)).1

/-! ## Signatures -/

theorem Param.names_describeAll : ∀ (ps : List Param) {refs refs' : TypeRefs} {qs : List Parameter},
    Param.describeAll ps refs = (.ok qs, refs') → qs.map Parameter.name = (ps.map Param.token).map Token.text
  | [], _, _, _, h => by cases h; rfl
  | p :: ps, _, _, _, h => by
    obtain ⟨q, _, hq, h⟩ := Describe.of_bind h
    obtain ⟨qs, _, hqs, h⟩ := Describe.of_bind h
    cases h
    have hname : q.name = p.token.text := by
      cases p with
      | missing t => cases hq
      | named t ty =>
        obtain ⟨_, _, _, hq⟩ := Describe.of_bind hq
        cases hq
        rfl
    simp only [List.map_cons, hname, Param.names_describeAll ps hqs]

theorem TypeExpr.length_describeAll : ∀ (tys : List TypeExpr) {refs refs' : TypeRefs} {ts : List Ty},
    TypeExpr.describeAll tys refs = (.ok ts, refs') → ts.length = tys.length
  | [], _, _, _, h => by cases h; rfl
  | ty :: tys, _, _, _, h => by
    obtain ⟨_, _, _, h⟩ := Describe.of_bind h
    obtain ⟨ts, _, hts, h⟩ := Describe.of_bind h
    cases h
    simp only [List.length_cons, TypeExpr.length_describeAll tys hts]

/-- How many values a function of that type returns. -/
def TypeExpr.returnCount : TypeExpr → Nat
  | .functionTo _ _ _ returns => returns.length
  | _ => 0

/-- A signature is as its type has been written. -/
structure Signature.WrittenAs (s : Signature) (ty : TypeExpr) : Prop where
  params : s.params.map Parameter.name = ty.paramTokens.map Token.text
  returns : s.returns.length = ty.returnCount
  external : s.external = false

theorem Signature.WrittenAs.length {s : Signature} (h : s.WrittenAs ty) : ty.paramTokens.length = s.params.length := by
  have := congrArg List.length h.params
  simpa using this.symm

theorem TypeExpr.writtenAs {s : Signature} (h : ty.describeSignature refs = (.ok s, refs')) : s.WrittenAs ty := by
  unfold describeSignature at h
  cases ty with
  | function t ps =>
    obtain ⟨d, _, hd, h⟩ := Describe.of_bind h
    obtain ⟨qs, _, hqs, hd⟩ := Describe.of_bind hd
    cases hd
    cases h
    exact ⟨Param.names_describeAll ps hqs, rfl, rfl⟩
  | functionTo t ps start rs =>
    obtain ⟨d, _, hd, h⟩ := Describe.of_bind h
    obtain ⟨qs, _, hqs, hd⟩ := Describe.of_bind hd
    obtain ⟨ts, _, hts, hd⟩ := Describe.of_bind hd
    cases hd
    cases h
    exact ⟨Param.names_describeAll ps hqs, TypeExpr.length_describeAll rs hts, rfl⟩
  | _ => cases h

/-! ## Failures -/

/-- Only errors that are fatal make a description fail. -/
def Describe.FailsHard {α : Type} (d : Describe α) : Prop :=
  ∀ refs e refs', d refs = (.error e, refs') → e.isWarning = false

theorem Describe.FailsHard.pure (a : α) : Describe.FailsHard (Pure.pure a) := by
  intro refs e refs' h
  cases h

theorem Describe.FailsHard.bind {β : Type} {d : Describe α} {f : α → Describe β} (hd : d.FailsHard)
    (hf : ∀ a, (f a).FailsHard) : Describe.FailsHard (d >>= f) := by
  intro refs e refs' h
  have hb : (d >>= f) refs = ExceptT.bindCont f (d refs).1 (d refs).2 := rfl
  rw [hb] at h
  cases he : d refs with
  | mk r refs₁ =>
    rw [he] at h
    cases r with
    | error e' =>
      cases h
      exact hd refs e refs₁ he
    | ok a => exact hf a _ _ _ h

theorem Describe.FailsHard.throw {e : ScopeError} (h : e.isWarning = false) : Describe.FailsHard (throw e : Describe α) := by
  intro refs e' refs' heq
  cases heq
  exact h

mutual

theorem TypeExpr.failsHard : ∀ ty : TypeExpr, ty.describe.FailsHard
  | .missing _ => .throw rfl
  | .name t => by
    unfold TypeExpr.describe
    cases t.kind
    case primitive p => exact .pure _
    all_goals exact .bind (fun _ _ _ h => by cases h) fun _ => .pure _
  | .pointer _ target => .bind target.failsHard fun _ => .pure _
  | .openArray _ element => .bind element.failsHard fun _ => .pure _
  | .array _ length element => .bind element.failsHard fun el => by
    cases length.arrayLength? with
    | none => exact .throw rfl
    | some n =>
      dsimp only
      split
      · exact .pure _
      · exact .throw rfl
  | .function _ params => .bind (Param.failsHard_all params) fun _ => .pure _
  | .functionTo _ params _ returns =>
    .bind (Param.failsHard_all params) fun _ => .bind (TypeExpr.failsHard_all returns) fun _ => .pure _

theorem TypeExpr.failsHard_all : ∀ tys : List TypeExpr, (TypeExpr.describeAll tys).FailsHard
  | [] => .pure _
  | ty :: tys => .bind ty.failsHard fun _ => .bind (TypeExpr.failsHard_all tys) fun _ => .pure _

theorem Param.failsHard : ∀ p : Param, p.describe.FailsHard
  | .missing _ => .throw rfl
  | .named _ ty => .bind ty.failsHard fun _ => .pure _

theorem Param.failsHard_all : ∀ ps : List Param, (Param.describeAll ps).FailsHard
  | [] => .pure _
  | p :: ps => .bind p.failsHard fun _ => .bind (Param.failsHard_all ps) fun _ => .pure _

end

theorem TypeExpr.failsHard_signature (ty : TypeExpr) : ty.describeSignature.FailsHard := by
  unfold describeSignature
  split
  · refine .bind ty.failsHard fun t => ?_
    split
    · exact .pure _
    · exact .throw rfl
  · exact .throw rfl

end Wordstack
