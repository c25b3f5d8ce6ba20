/-
How the operators of a chain group their operands. The powers of an operator and its
neighbours decide it: what is left of an operator was taken by operators that bind
tighter than it on the side where they meet, and so is what is right of it.
-/
import Wordstack.Proofs.ReadExpr

namespace Wordstack

/-- The infix operator that a token stands for. -/
def Token.binaryOp? (t : Token) : Option BinaryOp :=
  match t.kind with
  | .symbol s => BinaryOp.ofSymbol? s
  | _ => none

namespace Expr

/-- The names and operators of an expression from left to right. -/
def inOrder : Expr → List Token
  | .atom t => [t]
  | .binary _ t l r => l.inOrder ++ t :: r.inOrder
  | _ => []

/-- The operators that end where the expression ends. -/
def rightSpine : Expr → List BinaryOp
  | .binary op _ _ r => op :: r.rightSpine
  | _ => []

/-- The operators that begin where the expression begins. -/
def leftSpine : Expr → List BinaryOp
  | .binary op _ l _ => op :: l.leftSpine
  | _ => []

/-- Every operator binds less than those that meet it in its left operand, and not more than those that
meet it in its right operand. -/
def Grouped : Expr → Prop
  | .atom t => t.kind = .ident
  | .binary op t l r =>
    t.binaryOp? = some op ∧ (∀ q ∈ l.rightSpine, op.powers.1 < q.powers.2) ∧
      (∀ q ∈ r.leftSpine, op.powers.2 ≤ q.powers.1) ∧ l.Grouped ∧ r.Grouped
  | _ => False

end Expr

/-! ## Reading a chain -/

/-- An infix operator and the name behind it. -/
structure Link where
  op : BinaryOp
  operator : Token
  operand : Token
  operator_eq : operator.binaryOp? = some op
  operand_eq : operand.kind = .ident

/-- The tokens of a chain behind its first name. -/
def Link.tokens (links : List Link) : List Token := links.flatMap fun l => [l.operator, l.operand]

namespace Rules

variable {stop t : Token} {ts : List Token} {errors : List ParseError}

theorem whole_operand_ident (hstop : stop.kind = .eof) (ht : t.kind = .ident) :
    whole .operand ⟨t :: ts, stop, errors, false⟩ = (.atom t, ⟨ts, stop, errors, false⟩) := by
  obtain ⟨kind, text, span⟩ := t
  dsimp only at ht
  subst ht
  rw [whole_next .operand hstop]
  show (_, ParseState.mk ts stop (errors ++ []) false) = _
  rw [List.append_nil]
  rfl

/-- An operand is all that is read if nothing goes on with it. -/
theorem whole_operators_stop (hstop : stop.kind = .eof) {power : Nat} (left : Expr)
    (h : stops power (ts.headD stop).kind = true) :
    whole (.operators power left) ⟨ts, stop, errors, false⟩ = (left, ⟨ts, stop, errors, false⟩) := by
  obtain ⟨e, hrun, rfl⟩ := reads_operators_stop power left ⟨ts, stop, errors, false⟩ [] ts rfl (List.forall_mem_nil _)
    rfl rfl hstop h
  exact hrun

/-- An operator that binds tightly enough goes on with what has been read. -/
theorem whole_operators_binary (hstop : stop.kind = .eof) {power : Nat} {op : BinaryOp} (left : Expr)
    (hop : t.binaryOp? = some op) (hpower : power ≤ op.powers.1) :
    whole (.operators power left) ⟨t :: ts, stop, errors, false⟩ =
      whole (.operators power (.binary op t left (whole (.expr op.powers.2) ⟨ts, stop, errors, false⟩).1))
        (whole (.expr op.powers.2) ⟨ts, stop, errors, false⟩).2 := by
  have hrecovering (f : Bool → Rule Expr) :
      (Rule.isRecovering >>= f) ⟨t :: ts, stop, errors, false⟩ = f false ⟨t :: ts, stop, errors, false⟩ := rfl
  have hpeek (f : Token → Rule Expr) :
      (Rule.peek >>= f) ⟨t :: ts, stop, errors, false⟩ = f t ⟨t :: ts, stop, errors, false⟩ := rfl
  have hbump (f : Token → Rule Expr) :
      (Rule.bump >>= f) ⟨t :: ts, stop, errors, false⟩ = f t ⟨ts, stop, errors, false⟩ := by
    show f t ⟨ts, stop, errors ++ Rule.lexicalErrors [t], false⟩ = _
    cases hk : t.kind with
    | error e => simp [Token.binaryOp?, hk] at hop
    | _ => simp [Rule.lexicalErrors, hk]
  rw [whole_next (.operators power left) hstop]
  simp only [next, hrecovering, Bool.false_eq_true, if_false, hpeek]
  refine (congrFun (show (_ : Rule Expr) = (do
    let _ ← Rule.bump
    let right ← whole (.expr op.powers.2)
    whole (.operators power (.binary op t left right))) from ?_) _).trans (hbump _)
  unfold Token.binaryOp? at hop
  split
  next heq => simp [heq, BinaryOp.ofSymbol?] at hop
  next heq => simp [heq, BinaryOp.ofSymbol?] at hop
  next heq =>
    rw [heq] at hop
    dsimp only at hop
    rw [hop]
    exact if_neg (Nat.not_lt.mpr hpower)
  next h =>
    split at hop
    next heq => exact absurd heq (h _)
    next => cases hop

end Rules

/-- Whether an operator goes on with an expression is a matter of its left power. -/
theorem stops_of_binaryOp? {t : Token} {op : BinaryOp} (hop : t.binaryOp? = some op) (power : Nat) :
    stops power t.kind = decide (op.powers.1 < power) := by
  unfold Token.binaryOp? at hop
  split at hop
  next s heq =>
    rw [heq]
    cases s <;> cases hop <;> rfl
  · cases hop

/-! ## Climbing -/

/-- The expression `e` was read with `power`, and the links `later` are behind it. -/
structure Expr.Meets (power : Nat) (e : Expr) (later : List Link) : Prop where
  grouped : e.Grouped
  leftSpine : ∀ q ∈ e.leftSpine, power ≤ q.powers.1
  rightSpine : ∀ l, later.head? = some l → ∀ q ∈ e.rightSpine, l.op.powers.1 < q.powers.2

namespace Expr.Meets

theorem atom {x : Token} (hx : x.kind = .ident) (power : Nat) (links : List Link) : (Expr.atom x).Meets power links := by
  refine ⟨?_, ?_, ?_⟩
  · rw [Expr.Grouped]
    exact hx
  · simp [Expr.leftSpine]
  · simp [Expr.rightSpine]

theorem binary {power : Nat} {left right : Expr} {l : Link} {links later : List Link} (hpower : power ≤ l.op.powers.1)
    (hleft : left.Meets power (l :: links)) (hright : right.Meets l.op.powers.2 later)
    (hless : ∀ l', later.head? = some l' → l'.op.powers.1 < l.op.powers.2) :
    (Expr.binary l.op l.operator left right).Meets power later := by
  refine ⟨?_, ?_, ?_⟩
  · rw [Expr.Grouped]
    exact ⟨l.operator_eq, hleft.rightSpine l rfl, hright.leftSpine, hleft.grouped, hright.grouped⟩
  · rw [Expr.leftSpine]
    intro q hq
    rcases List.mem_cons.mp hq with rfl | hq
    · exact hpower
    · exact hleft.leftSpine q hq
  · rw [Expr.rightSpine]
    intro l' hl' q hq
    rcases List.mem_cons.mp hq with rfl | hq
    · exact hless l' hl'
    · exact hright.rightSpine l' hl' q hq

end Expr.Meets

/-- Reading with `power` leads from `left` and the links behind it to `e` and those of the links that are left, of
which the first does not bind tightly enough. -/
structure Expr.Climbs (power : Nat) (left : Expr) (links : List Link) (e : Expr) (later : List Link) : Prop where
  suffix : later <:+ links
  order : e.inOrder ++ Link.tokens later = left.inOrder ++ Link.tokens links
  meets : e.Meets power later
  less : ∀ l, later.head? = some l → l.op.powers.1 < power

namespace Rules

variable {stop : Token} {after : List Token}

theorem whole_expr_ident (hstop : stop.kind = .eof) {x : Token} (hx : x.kind = .ident) (power : Nat) (ts : List Token)
    (errors : List ParseError) :
    whole (.expr power) ⟨x :: ts, stop, errors, false⟩ = whole (.operators power (.atom x)) ⟨ts, stop, errors, false⟩ := by
  have hoperand : whole .operand ⟨x :: ts, stop, errors, false⟩ = (.atom x, ⟨ts, stop, errors, false⟩) :=
    whole_operand_ident hstop hx
  calc whole (.expr power) ⟨x :: ts, stop, errors, false⟩
      = whole.next (.expr power) ⟨x :: ts, stop, errors, false⟩ := whole_next _ hstop
    _ = whole (.operators power (whole .operand ⟨x :: ts, stop, errors, false⟩).1)
          (whole .operand ⟨x :: ts, stop, errors, false⟩).2 := rfl
    _ = _ := by rw [hoperand]

/-- By induction on the links. An operator that binds tightly enough takes links for its right operand, and the loop
goes on with those that are left. -/
theorem whole_operators_climbs (hstop : stop.kind = .eof) (hafter : Closes (after.headD stop).kind)
    (errors : List ParseError) (power : Nat) (left : Expr) (links : List Link) (hleft : left.Meets power links) :
    ∃ e later, whole (.operators power left) ⟨Link.tokens links ++ after, stop, errors, false⟩ =
        (e, ⟨Link.tokens later ++ after, stop, errors, false⟩) ∧ left.Climbs power links e later := by
  induction hn : links.length using Nat.strongRecOn generalizing power left links with
  | ind n ih =>
    cases links with
    | nil =>
      have hrun : whole (.operators power left) ⟨after, stop, errors, false⟩ = (left, ⟨after, stop, errors, false⟩) :=
        whole_operators_stop hstop left (stops_of_closes hafter power)
      exact ⟨left, [], hrun, List.suffix_rfl, rfl, hleft, by simp⟩
    | cons l links =>
      have htokens : Link.tokens (l :: links) ++ after = l.operator :: l.operand :: (Link.tokens links ++ after) := rfl
      rw [List.length_cons] at hn
      by_cases hpower : power ≤ l.op.powers.1
      · obtain ⟨right, later, hright, h₁⟩ :=
          ih links.length (by omega) l.op.powers.2 (.atom l.operand) links (.atom l.operand_eq _ _) rfl
        rw [← whole_expr_ident hstop l.operand_eq] at hright
        have hlen := h₁.suffix.length_le
        obtain ⟨e, last, he, h₂⟩ := ih later.length (by omega) power _ later (hleft.binary hpower h₁.meets h₁.less) rfl
        refine ⟨e, last, ?_, h₂.suffix.trans (h₁.suffix.trans (List.suffix_cons ..)), ?_, h₂.meets, h₂.less⟩
        · rw [htokens, whole_operators_binary hstop left l.operator_eq hpower, hright]
          exact he
        · have horder := h₁.order
          rw [Expr.inOrder] at horder
          rw [h₂.order, Expr.inOrder, List.append_assoc, List.cons_append, horder]
          rfl
      · have hlt : l.op.powers.1 < power := by omega
        have hrun : whole (.operators power left) ⟨Link.tokens (l :: links) ++ after, stop, errors, false⟩ =
            (left, ⟨Link.tokens (l :: links) ++ after, stop, errors, false⟩) :=
          whole_operators_stop hstop left ((stops_of_binaryOp? l.operator_eq power).trans (decide_eq_true hlt))
        refine ⟨left, l :: links, hrun, List.suffix_rfl, rfl, hleft, fun l' hl' => ?_⟩
        cases hl'
        exact hlt

end Rules

/-- **Operators group by their powers.** A chain of names and infix operators is read as one expression, without an
error. The expression has the tokens of the chain in their order; an operator has on its left operators that bind
tighter to the right than it does to the left, and on its right operators that bind to the left at least as it
does to the right. -/
theorem chain_grouped {first stop : Token} (hfirst : first.kind = .ident) (links : List Link) {after : List Token}
    (hstop : stop.kind = .eof) (hafter : Closes (after.headD stop).kind) (errors : List ParseError) {n : Nat}
    (hn : Rule.budget (first :: (Link.tokens links ++ after)).length ≤ n) :
    ∃ e : Expr, Rule.expr n 0 ⟨first :: (Link.tokens links ++ after), stop, errors, false⟩ =
        (e, ⟨after, stop, errors, false⟩) ∧
      e.inOrder = first :: Link.tokens links ∧ e.Grouped := by
  have hsteps : (Call.expr 0).steps ⟨first :: (Link.tokens links ++ after), stop, errors, false⟩ ≤ n := by
    refine Nat.le_trans ?_ hn
    simp only [Call.steps, Call.level, Rule.budget]
    omega
  have hexpr : Rule.expr n 0 ⟨first :: (Link.tokens links ++ after), stop, errors, false⟩ =
      Rules.whole (.expr 0) ⟨first :: (Link.tokens links ++ after), stop, errors, false⟩ := by
    rw [← Rules.whole_eq .exhausted _ _ hstop hsteps]
    rfl
  obtain ⟨e, later, hrun, h⟩ :=
    Rules.whole_operators_climbs hstop hafter errors 0 (.atom first) links (.atom hfirst _ _)
  -- nothing is left, since every operator has at least the power that was asked for
  have hlater : later = [] := by
    cases later with
    | nil => rfl
    | cons l later => exact absurd (h.less l rfl) (Nat.not_lt_zero _)
  subst hlater
  have horder := h.order
  rw [Expr.inOrder] at horder
  refine ⟨e, ?_, ?_, h.meets.grouped⟩
  · rw [hexpr, Rules.whole_expr_ident hstop hfirst, hrun]
    rfl
  · simpa [Link.tokens] using horder

/-- A link with the name `x`. -/
def Link.toName (op : BinaryOp) (x : String) : Link where
  op
  operator := op.symbol.token
  operand := { kind := .ident, text := x, span := .nowhere }
  operator_eq := ofSymbol?_symbol op
  operand_eq := rfl

/-- What is behind the first name in `a = b = c - d * e - f.g.h`. -/
def Link.assignments : List Link :=
  [.toName .assign "b", .toName .assign "c", .toName .sub "d", .toName .mul "e", .toName .sub "f", .toName .member "g",
    .toName .member "h"]

theorem chain_grouped_assignments :
    Closes (.symbol .semicolon) ∧
      ∃ e : Expr, Rule.expr 144 0 ⟨⟨.ident, "a", .nowhere, .none⟩ :: (Link.tokens Link.assignments ++ [Symbol.semicolon.token]),
          ⟨.eof, "", .nowhere, .none⟩, [], false⟩ =
          (e, ⟨[Symbol.semicolon.token], ⟨.eof, "", .nowhere, .none⟩, [], false⟩) ∧
        e.inOrder = ⟨.ident, "a", .nowhere, .none⟩ :: Link.tokens Link.assignments ∧ e.Grouped :=
  ⟨rfl, chain_grouped rfl Link.assignments rfl rfl [] (by decide)⟩

end Wordstack
