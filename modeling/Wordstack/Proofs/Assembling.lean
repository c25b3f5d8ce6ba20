/-
How the code of expressions is put together. A property of code that is kept by each step of it holds of the code of
an expression if it holds of that of its atoms.
-/
import Wordstack.Code.Stmt
import Wordstack.Proofs.Ensures

namespace Wordstack

open Lower

/-! ## Atoms -/

mutual

/-- The names and literals of an expression. -/
def Expr.atoms : Expr → List Token
  | .missing _ | .castOnly .. => []
  | .atom t => [t]
  | .unary _ _ e | .cast _ _ e | .unclosed e => e.atoms
  | .binary _ _ l r => l.atoms ++ r.atoms
  | .call _ f args => f.atoms ++ Expr.atomsAll args
  | .index _ b args => b.atoms ++ Expr.atomsAll args

def Expr.atomsAll : List Expr → List Token
  | [] => []
  | e :: es => e.atoms ++ Expr.atomsAll es

end

/-! ## Steps -/

/-- Neither a jump nor at work on the frame. -/
def Opcode.isFrameless : Opcode → Bool
  | .alloc | .free | .pushStack | .pushSea | .framePop | .jump | .jumpIf | .jumpIfNot => false
  | _ => true

/-- A property of code that is kept where code is put together. -/
structure Assembles (W : Watch Notes) (P : List Command → Prop) : Prop where
  report (e : CodeError) : Ensures W (report e) fun _ => True
  nil : P []
  append {cs ds : List Command} : P cs → P ds → P (cs ++ ds)
  plain (c : Command) : c.op.isFrameless = true → (∀ l, c.operand ≠ .label l) → P [c]
  place {cs : List Command} {c : Command} {mode : LvalueMode} {op : Opcode} {store : Bool} :
    P (cs ++ [c]) → c.op.toLvalue? mode = some (op, store) → P (cs ++ [{ c with op }])
  call {cs : List Command} {c : Command} {callee : Expr} {name : String} :
    P (cs ++ [c]) → calleeName? callee c = some name → P (cs ++ [{ c with op := .call, operand := .label name }])
  skip {skip : Opcode} (h : skip = .jumpIf ∨ skip = .jumpIfNot) (span : Span) {cs ds : List Command} :
    P cs → P ds → P (shortCircuit skip span cs ds)

namespace Assembles

variable {W : Watch Notes} {P : List Command → Prop} {env : Env} {β : Type} {Q : β → Prop}

theorem guard (h : Assembles W P) (G : Prop) : Assembles W fun cs => G → P cs where
  report := h.report
  nil _ := h.nil
  append := fun h₁ h₂ g => h.append (h₁ g) (h₂ g)
  plain c hop hl _ := h.plain c hop hl
  place := fun hcs hop g => h.place (hcs g) hop
  call := fun hcs hname g => h.call (hcs g) hname
  skip := fun hs span _ _ h₁ h₂ g => h.skip hs span (h₁ g) (h₂ g)

variable (h : Assembles W P)
include h

theorem invalidAt (span : Span) : P (invalidAt span) := h.plain _ rfl (by simp)

theorem single (e : Expr) (p : Produced) : Ensures W (single e p) fun cs => P p.code → P cs := by
  unfold Wordstack.single
  split
  · exact .pure id
  · refine (h.report _).bind fun _ => .pure fun _ hp => ?_
    split
    · exact h.append hp (h.invalidAt _)
    · exact hp

/-- What is done with the code of a value. -/
theorem value {e : Expr} {k : List Command → Lower β} (he : Ensures W (e.lower env) fun p => P p.code)
    (hk : ∀ cs, Ensures W (k cs) fun b => P cs → Q b) :
    Ensures W (do let cs ← Wordstack.single e (← e.lower env); k cs) Q :=
  he.bind fun _ => (h.single e _).bind fun cs => (hk cs).mono fun _ hq hs hp => hq (hs hp)

theorem asLvalue (e : Expr) (mode : LvalueMode) (code : List Command) :
    Ensures W (asLvalue e mode code) fun cs => P code → P cs := by
  have hnot : Ensures W (asLvalue.notAPlace e code) fun cs => P code → P cs :=
    (h.report _).bind fun _ => .pure fun _ hp => h.append hp (h.invalidAt _)
  unfold Wordstack.asLvalue
  split
  · exact .pure id
  split
  next last hlast =>
    obtain ⟨front, rfl⟩ := List.getLast?_eq_some_iff.mp hlast
    split
    · exact .pure id
    split
    next op needsStore hop =>
      refine .pure fun hp => ?_
      have hop : last.op.toLvalue? mode = some (op, needsStore) := by
        split at hop
        · exact hop
        · cases hop
      rw [List.dropLast_concat, ← List.singleton_append, ← List.append_assoc]
      refine h.append (h.place hp hop) ?_
      split
      · exact h.plain _ rfl (by simp)
      · exact h.nil
    · exact hnot
  · exact hnot

theorem arity (env : Env) (name : String) (callee : Token) (found : Nat) (span : Span) :
    Ensures W (arity env name callee found span) fun _ => True := by
  unfold Wordstack.arity
  split
  · dsimp only
    split
    · exact (h.report _).bind fun _ => .pure fun _ => trivial
    · exact .pure trivial
  · split <;> exact .pure trivial

theorem lowerCall (env : Env) (e callee : Expr) (found : Nat) (args target : List Command) :
    Ensures W (lowerCall env e callee found args target) fun p => P (args ++ target) → P p.code := by
  unfold Wordstack.lowerCall
  dsimp only
  split
  · exact .pure id
  split
  · exact .pure id
  next last hlast =>
    obtain ⟨front, rfl⟩ := List.getLast?_eq_some_iff.mp hlast
    rw [← List.append_assoc, List.dropLast_concat]
    split
    · exact .pure id
    split
    · exact (h.report _).bind fun _ => .pure fun _ hp => h.append hp (h.invalidAt _)
    next name hname =>
      refine (h.arity ..).bind fun r => ?_
      split
      · exact (h.report _).bind fun _ => .pure fun _ _ hp => h.call hp hname
      · exact .pure fun _ hp => h.call hp hname

/-! ## Expressions -/

mutual

theorem expr : ∀ (e : Expr), (∀ t ∈ e.atoms, Ensures W (lowerAtom env t) P) → Ensures W (e.lower env) fun p => P p.code
  | .missing _, _ | .castOnly .., _ | .index _ _ [], _ => .pure (h.invalidAt _)
  | .atom t, ha => (ha t List.mem_cons_self).bind fun _ => .pure id
  | .unclosed e, ha | .cast _ _ e, ha => expr e ha
  | .unary op _ e, ha => by
    have he := expr e ha
    cases op
    case addressOf => exact h.value he fun cs => (h.asLvalue e .address cs).bind fun _ => .pure id
    all_goals exact h.value he fun _ => .pure fun hs => h.append hs (h.plain _ rfl (by simp))
  | .binary op _ l r, ha => by
    have hl := expr l fun t ht => ha t (List.mem_append_left _ ht)
    have hr := expr r fun t ht => ha t (List.mem_append_right _ ht)
    cases op
    case assign =>
      exact h.value hr fun _ => h.value hl fun cs => (h.asLvalue l .store cs).bind fun _ =>
        .pure fun hp hsl hsr => h.append hsr (hp hsl)
    case member => exact (h.report _).bind fun _ => .pure fun _ => h.invalidAt _
    case and => exact h.value hl fun _ => h.value hr fun _ => .pure fun hsr hsl => h.skip (.inr rfl) _ hsl hsr
    case or => exact h.value hl fun _ => h.value hr fun _ => .pure fun hsr hsl => h.skip (.inl rfl) _ hsl hsr
    all_goals
      exact h.value hr fun _ => h.value hl fun _ =>
        .pure fun hsl hsr => h.append (h.append hsr hsl) (h.plain _ rfl (by simp))
  | .call t f args, ha =>
    (exprArgs args fun t ht => ha t (List.mem_append_right _ ht)).bind fun _ =>
      h.value (expr f fun t ht => ha t (List.mem_append_left _ ht)) fun _ =>
        (h.lowerCall env (.call t f args) f args.length _ _).mono fun _ hc hs hargs => hc (h.append hargs hs)
  | .index t base (i :: more), ha => by
    have hbase := expr base fun t ht => ha t (List.mem_append_left _ ht)
    have hi := expr i fun t ht => ha t (List.mem_append_right _ (List.mem_append_left _ ht))
    refine ensures_index (h.report _) (h.value hi fun _ => h.value hbase fun _ => .pure fun hsb hsi _ => ?_)
    refine h.append (h.append (h.append (h.append hsi ?_) hsb) ?_) ?_
    · exact h.append (h.plain _ rfl (by simp)) (h.plain _ rfl (by simp))
    all_goals exact h.plain _ rfl (by simp)

theorem exprArgs : ∀ (es : List Expr), (∀ t ∈ Expr.atomsAll es, Ensures W (lowerAtom env t) P) →
    Ensures W (Expr.lowerArgs env es) P
  | [], _ => .pure h.nil
  | e :: es, ha =>
    (exprArgs es fun t ht => ha t (List.mem_append_right _ ht)).bind fun _ =>
      h.value (expr e fun t ht => ha t (List.mem_append_left _ ht)) fun _ => .pure fun hs hes => h.append hes hs

end

variable {es : List Expr} (ha : ∀ t ∈ Expr.atomsAll es, Ensures W (lowerAtom env t) P)
include ha

theorem exprAll : Ensures W (Expr.lowerAll env es) fun p => P p.code := by
  induction es with
  | nil => exact .pure h.nil
  | cons e es ih =>
    exact (ih fun t ht => ha t (List.mem_append_right _ ht)).bind fun _ =>
      (h.expr e fun t ht => ha t (List.mem_append_left _ ht)).bind fun _ => .pure fun he hes => h.append hes he

theorem storeAll : Ensures W (storeAll env es) P := by
  induction es with
  | nil => exact .pure h.nil
  | cons e es ih =>
    exact h.value (h.expr e fun t ht => ha t (List.mem_append_left _ ht)) fun cs => (h.asLvalue e .store cs).bind fun _ =>
      (ih fun t ht => ha t (List.mem_append_right _ ht)).bind fun _ => .pure fun hrest hl hs => h.append (hl hs) hrest

omit ha

theorem checkCount (expected found : Nat) (values : ExprList) :
    Ensures W (checkCount expected found values) fun _ => True := by
  unfold Wordstack.checkCount
  split
  · exact h.report _
  · exact .pure trivial

theorem swap {targets values : ExprList} (ht : ∀ t ∈ Expr.atomsAll targets.items, Ensures W (lowerAtom env t) P)
    (hv : ∀ t ∈ Expr.atomsAll values.items, Ensures W (lowerAtom env t) P) : Ensures W (lowerSwap env targets values) P :=
  (h.exprAll hv).bind fun _ => (h.checkCount ..).bind fun _ => (h.storeAll ht).bind fun _ =>
    .pure fun hs _ hp => h.append hp hs

end Assembles
end Wordstack
