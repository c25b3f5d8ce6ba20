/-
Expressions and types are read back from their canonical texts, by recursion on the trees. How
deep the rules call each other for that does not matter.
-/
import Wordstack.Proofs.Reads

namespace Wordstack

open Rule
open Rules (whole)

variable {Q : Expr → Prop} {e l : Expr} {es : List Expr} {follow : TokenKind → Prop} {k : TokenKind} {ts : List Token}
  {ty : TypeExpr}

/-! ## Operators -/

/-- Whether a token does not go on with an expression whose operators have at least the given power. -/
def stops (power : Nat) : TokenKind → Bool
  | .symbol .parenOpen | .symbol .bracketOpen => callPower < power
  | .symbol s => (BinaryOp.ofSymbol? s).all (·.powers.1 < power)
  | _ => true

/-- The token goes on with no expression. -/
abbrev Closes (k : TokenKind) : Prop := stops 0 k = true

theorem stops_of_closes (h : Closes k) (power : Nat) : stops power k = true := by
  cases k with
  | symbol s => cases s <;> first | rfl | exact absurd h (by decide)
  | _ => rfl

theorem reads_operators_stop (power : Nat) (l : Expr) :
    Reads (whole (.operators power l)) [] (stops power · = true) (· = l) := by
  refine .call (.isRecovering (.peek_nil fun u hu => ?_))
  unfold stops at hu
  split
  next heq =>
    rw [heq] at hu
    rw [if_pos (of_decide_eq_true hu)]
    exact .pure rfl
  next heq =>
    rw [heq] at hu
    rw [if_pos (of_decide_eq_true hu)]
    exact .pure rfl
  next sym hparen hbracket heq =>
    split
    · exact .pure rfl
    next op hop =>
      have hlt : op.powers.1 < power := by
        simpa [heq, hop] using hu
      rw [if_pos hlt]
      exact .pure rfl
  · exact .pure rfl

theorem ofSymbol?_symbol (op : BinaryOp) : BinaryOp.ofSymbol? op.symbol = some op := by cases op <;> rfl

theorem reads_operators_binary {power : Nat} {op : BinaryOp} (hp : power ≤ op.powers.1)
    (h : ∀ u, u.bare = op.symbol.token →
      Reads (do whole (.operators power (.binary op u l (← whole (.expr op.powers.2))))) ts follow Q) :
    Reads (whole (.operators power l)) (op.symbol.token :: ts) follow Q := by
  refine .call (.isRecovering (.peek fun u hu => ?_))
  have hk : u.kind = .symbol op.symbol := Token.kind_of_bare hu
  rw [hk]
  split
  next heq => cases op <;> cases heq
  next heq => cases op <;> cases heq
  next heq =>
    cases heq
    rw [ofSymbol?_symbol]
    dsimp only
    rw [if_neg (Nat.not_lt.mpr hp)]
    exact .bump fun _ _ => h u hu
  next hne => exact absurd rfl (hne op.symbol)

/-! ## Expressions -/

/-! ### Types that are read back -/

/-- The token goes on with no type; with a type that ends in results it goes on if it is a comma. -/
def EndsType (results : Bool) (k : TokenKind) : Prop := k ≠ .symbol .arrow ∧ (results = true → k ≠ .symbol .comma)

instance (results : Bool) (k : TokenKind) : Decidable (EndsType results k) :=
  inferInstanceAs (Decidable (k ≠ .symbol .arrow ∧ (results = true → k ≠ .symbol .comma)))

theorem EndsType.weaken (h : EndsType true k) (results : Bool) : EndsType results k :=
  ⟨h.1, fun _ => h.2 rfl⟩

/-- Nothing is missing, and no list runs into another one. -/
def TypeExpr.Readable (ty : TypeExpr) : Prop := ty.complete = true ∧ ty.delimited = true

def TypeExpr.AllReadable (tys : List TypeExpr) : Prop :=
  TypeExpr.allComplete tys = true ∧ TypeExpr.allDelimited tys = true

def Param.Readable (p : Param) : Prop := p.complete = true ∧ p.delimited = true

def Param.AllReadable (ps : List Param) : Prop := Param.allComplete ps = true ∧ Param.allDelimited ps = true

theorem TypeExpr.AllReadable.cons {ty : TypeExpr} {tys : List TypeExpr} (h : TypeExpr.AllReadable (ty :: tys)) :
    ty.Readable ∧ (tys ≠ [] → ty.endsInResults = false) ∧ TypeExpr.AllReadable tys := by
  obtain ⟨hc, hd⟩ := h
  simp only [TypeExpr.allComplete, TypeExpr.allDelimited, Bool.and_eq_true, Bool.or_eq_true] at hc hd
  refine ⟨⟨hc.1, hd.1.1⟩, fun hne => ?_, hc.2, hd.2⟩
  simpa [hne] using hd.1.2

theorem Param.AllReadable.cons {p : Param} {ps : List Param} (h : Param.AllReadable (p :: ps)) :
    p.Readable ∧ (ps ≠ [] → p.endsInResults = false) ∧ Param.AllReadable ps := by
  obtain ⟨hc, hd⟩ := h
  simp only [Param.allComplete, Param.allDelimited, Bool.and_eq_true, Bool.or_eq_true] at hc hd
  refine ⟨⟨hc.1, hd.1.1⟩, fun hne => ?_, hc.2, hd.2⟩
  simpa [hne] using hd.1.2

mutual

/-- A type that shows no results is read back wherever it stands. -/
theorem TypeExpr.readable_of_printable (ty : TypeExpr) (h : ty.printable = true) : ty.Readable ∧ ty.endsInResults = false := by
  cases ty with
  | name t => exact ⟨⟨h, rfl⟩, rfl⟩
  | pointer t ty | openArray t ty => exact ty.readable_of_printable h
  | array t n ty =>
    obtain ⟨hn, hty⟩ := Bool.and_eq_true_iff.mp h
    obtain ⟨⟨hc, hd⟩, hr⟩ := ty.readable_of_printable hty
    exact ⟨⟨Bool.and_eq_true_iff.mpr ⟨hn, hc⟩, hd⟩, hr⟩
  | function t ps => exact ⟨Param.allReadable_of_printable ps h, rfl⟩
  | _ => cases h

theorem Param.allReadable_of_printable (ps : List Param) (h : Param.allPrintable ps = true) : Param.AllReadable ps := by
  match ps with
  | [] => exact ⟨rfl, rfl⟩
  | .missing t :: ps => cases h
  | .named t ty :: ps =>
    obtain ⟨hp, hps⟩ := Bool.and_eq_true_iff.mp h
    obtain ⟨ht, hty⟩ := Bool.and_eq_true_iff.mp hp
    obtain ⟨⟨hc, hd⟩, hr⟩ := ty.readable_of_printable hty
    obtain ⟨hcs, hds⟩ := Param.allReadable_of_printable ps hps
    simp [Param.AllReadable, Param.allComplete, Param.allDelimited, Param.complete, Param.delimited, Param.endsInResults, *]

end

theorem TypeExpr.allReadable_of_printable (tys : List TypeExpr) (h : TypeExpr.allPrintable tys = true) :
    TypeExpr.AllReadable tys := by
  induction tys with
  | nil => exact ⟨rfl, rfl⟩
  | cons ty tys ih =>
    obtain ⟨hty, htys⟩ := Bool.and_eq_true_iff.mp h
    obtain ⟨⟨hc, hd⟩, hr⟩ := ty.readable_of_printable hty
    obtain ⟨hcs, hds⟩ := ih htys
    simp [TypeExpr.AllReadable, TypeExpr.allComplete, TypeExpr.allDelimited, *]

theorem TypeExpr.readable_of_printableAlone (h : ty.printableAlone = true) : ty.Readable := by
  cases ty with
  | functionTo t ps start rs =>
    obtain ⟨hfirst, hrs⟩ := Bool.and_eq_true_iff.mp h
    obtain ⟨hps, hne⟩ := Bool.and_eq_true_iff.mp hfirst
    obtain ⟨hcps, hdps⟩ := Param.allReadable_of_printable ps hps
    obtain ⟨hcrs, hdrs⟩ := TypeExpr.allReadable_of_printable rs hrs
    simp only [TypeExpr.Readable, TypeExpr.complete, TypeExpr.delimited, *, Bool.and_self, and_self]
  | _ => exact (TypeExpr.readable_of_printable _ h).1

/-! ### First tokens -/

/-- Whether an expression may start with a token of this kind. -/
def startsExpr : TokenKind → Bool
  | .integer | .float | .string | .ident | .keyword .trueWord | .keyword .falseWord | .keyword .castWord => true
  | .symbol .parenOpen => true
  | .symbol s => (UnaryOp.ofSymbol? s).isSome
  | _ => false

/-- A text that starts as an expression does. -/
def Opens (ts : List Token) : Prop := ∃ t rest, ts = t :: rest ∧ startsExpr t.kind = true

theorem Opens.append (h : Opens ts) (ts' : List Token) : Opens (ts ++ ts') := by
  obtain ⟨t, rest, rfl, ht⟩ := h
  exact ⟨t, rest ++ ts', rfl, ht⟩

theorem Opens.ne_nil (h : Opens ts) : ts ≠ [] := by
  obtain ⟨t, rest, rfl, -⟩ := h
  simp

theorem Opens.front (h : Opens ts) (hk : front ts follow k) : startsExpr k = true := by
  obtain ⟨t, rest, rfl, ht⟩ := h
  exact (show k = t.kind from hk) ▸ ht

theorem startsExpr_of_isAtom {t : Token} (h : t.isAtom = true) : startsExpr t.kind = true := by
  have h := (Bool.and_eq_true_iff.mp h).2
  split at h <;> first | (rename_i heq; rw [heq]; rfl) | cases h

theorem opens_wrap (h : e.printable = true) : Opens (e.wrap e.print) := by
  cases e with
  | atom t => exact ⟨t.bare, [], rfl, startsExpr_of_isAtom h⟩
  | _ => exact ⟨_, _, rfl, rfl⟩

theorem opens_print (h : e.printable = true) : Opens e.print := by
  cases e with
  | atom t => exact ⟨t.bare, [], rfl, startsExpr_of_isAtom h⟩
  | unary op t e => exact ⟨op.symbol.token, _, rfl, by cases op <;> rfl⟩
  | cast t ty e => exact ⟨_, _, rfl, rfl⟩
  | binary op t l r | call t f args => exact (opens_wrap (Bool.and_eq_true_iff.mp h).1).append _
  | index t b args => exact (opens_wrap (Bool.and_eq_true_iff.mp (Bool.and_eq_true_iff.mp h).1).1).append _
  | _ => cases h

theorem separated_cons (s : Symbol) (ts : List Token) (tss : List (List Token)) : ∃ rest, separated s (ts :: tss) = ts ++ rest := by
  cases tss with
  | nil => exact ⟨[], (List.append_nil ts).symm⟩
  | cons ts' tss => exact ⟨_, rfl⟩

theorem opens_members (h : Expr.allPrintable (e :: es) = true) : Opens (separated .comma (Expr.printEach (e :: es))) := by
  obtain ⟨rest, hrest⟩ := separated_cons .comma (e.wrap e.print) (Expr.printEach es)
  show Opens (separated .comma (e.wrap e.print :: Expr.printEach es))
  rw [hrest]
  exact (opens_wrap (Bool.and_eq_true_iff.mp h).1).append rest

/-- The expression is read back from its text. -/
def Expr.ReadBack (e : Expr) : Prop := Reads (whole (.expr 0)) e.print Closes (·.bare = e.asPrinted)

/-- An expression in parentheses. -/
theorem reads_operand_paren (he : e.ReadBack) :
    Reads (whole .operand) (Symbol.parenOpen.token :: (e.print ++ [Symbol.parenClose.token])) (fun _ => True)
      (·.bare = e.asPrinted) := by
  refine .call (.peek fun u hu => ?_)
  rw [Token.kind_of_bare hu]
  exact .bump fun _ _ => he.bind (fun k hk => hk ▸ rfl) fun e' he' => .isRecovering (.expect rfl (.pure he'))

theorem reads_operand_atom {t : Token} (h : t.isAtom = true) :
    Reads (whole .operand) [t.bare] (fun _ => True) (·.bare = .atom t.bare) := by
  refine .call (.peek fun u hu => ?_)
  have hread : Reads (do let _ ← bump; return Expr.atom u) [t.bare] (fun _ => True) (·.bare = .atom t.bare) :=
    .bump fun _ _ => .pure (congrArg Expr.atom hu)
  have hk : u.kind = t.bare.kind := Token.kind_of_bare hu
  have hatom := (Bool.and_eq_true_iff.mp h).2
  rw [show u.kind = t.kind from hk]
  split at hatom <;> first | (rename_i heq; rw [heq]; exact hread) | cases hatom

theorem reads_operand_wrapped (h : e.printable = true) (he : e.ReadBack) :
    Reads (whole .operand) (e.wrap e.print) (fun _ => True) (·.bare = e.asPrinted) := by
  cases e with
  | atom t => exact reads_operand_atom h
  | _ => exact reads_operand_paren he

theorem reads_wrapped (power : Nat) (h : e.printable = true) (he : e.ReadBack) :
    Reads (whole (.expr power)) (e.wrap e.print) (stops power · = true) (·.bare = e.asPrinted) := by
  refine .call ((reads_operand_wrapped h he).bind_nil (fun _ _ => trivial) fun e' he' => ?_)
  exact (reads_operators_stop power e').mono (fun _ hk => hk) (fun _ heq => heq ▸ he')

theorem reads_operand_unary (op : UnaryOp) (h : e.printable = true) (he : e.ReadBack) :
    Reads (whole .operand) (op.symbol.token :: e.wrap e.print) (stops unaryPower · = true)
      (·.bare = .unary op op.symbol.token e.asPrinted) := by
  refine .call (.peek fun u hu => ?_)
  have hread : Reads (do let _ ← bump; let e ← whole (.expr unaryPower); return Expr.unary op u e)
      (op.symbol.token :: e.wrap e.print) (stops unaryPower · = true) (·.bare = .unary op op.symbol.token e.asPrinted) :=
    .bump fun _ _ => (reads_wrapped unaryPower h he).bind_nil (fun _ hk => hk) fun e' he' =>
      .pure (by simp only [Expr.bare, hu, he'])
  rw [Token.kind_of_bare hu]
  cases op <;> exact hread

/-- Members of a list, of which there is at least one, and the token that closes it. -/
abbrev Expr.MembersRead (es : List Expr) : Prop :=
  es ≠ [] → ∀ (start : Token) (close : Symbol), Closes (.symbol close) → close ≠ .comma →
    Reads (whole (.members start (.symbol close))) (separated .comma (Expr.printEach es) ++ [close.token])
      (fun _ => True) (Expr.bareAll · = Expr.eachAsPrinted es)

theorem reads_arguments (start : Token) (h : Expr.allPrintable es = true) (hes : Expr.MembersRead es) :
    Reads (whole (.arguments start (.symbol .parenClose)))
      (separated .comma (Expr.printEach es) ++ [Symbol.parenClose.token])
      (fun _ => True) (Expr.bareAll · = Expr.eachAsPrinted es) := by
  refine .call ?_
  cases es with
  | nil => exact .eat rfl (.pure rfl)
  | cons e es =>
    refine .eat_other (fun k hk heq => ?_) (hes (List.cons_ne_nil _ _) start .parenClose rfl (by decide))
    exact absurd (((opens_members h).append _).front hk) (by rw [heq]; decide)

theorem reads_indices (start : Token) (hne : es ≠ []) (h : Expr.allPrintable es = true) (hes : Expr.MembersRead es) :
    Reads (whole (.indices start)) (separated .comma (Expr.printEach es) ++ [Symbol.bracketClose.token])
      (fun _ => True) (Expr.bareAll · = Expr.eachAsPrinted es) := by
  refine .call ?_
  cases es with
  | nil => exact absurd rfl hne
  | cons e es =>
    refine .eat_other (fun k hk heq => ?_) (hes hne start .bracketClose rfl (by decide))
    exact absurd (((opens_members h).append _).front hk) (by rw [heq]; decide)

theorem reads_operators_call
    (h : ∀ u, u.bare = Symbol.parenOpen.token →
      Reads (do whole (.operators 0 (.call u l (← whole (.arguments u (.symbol .parenClose)))))) ts follow Q) :
    Reads (whole (.operators 0 l)) (Symbol.parenOpen.token :: ts) follow Q := by
  refine .call (.isRecovering (.peek fun u hu => ?_))
  rw [Token.kind_of_bare hu]
  exact .bump fun _ _ => h u hu

theorem reads_operators_index
    (h : ∀ u, u.bare = Symbol.bracketOpen.token →
      Reads (do whole (.operators 0 (.index u l (← whole (.indices u))))) ts follow Q) :
    Reads (whole (.operators 0 l)) (Symbol.bracketOpen.token :: ts) follow Q := by
  refine .call (.isRecovering (.peek fun u hu => ?_))
  rw [Token.kind_of_bare hu]
  exact .bump fun _ _ => h u hu

/-! ### Types -/

theorem type_print_ne_nil (h : ty.Readable) : ty.print ≠ [] := by
  cases ty with
  | missing t => cases h.1
  | _ => simp [TypeExpr.print]

theorem types_ne_nil {tys : List TypeExpr} (h : TypeExpr.AllReadable (ty :: tys)) :
    separated .comma (TypeExpr.printEach (ty :: tys)) ≠ [] := by
  obtain ⟨rest, hrest⟩ := separated_cons .comma ty.print (TypeExpr.printEach tys)
  rw [TypeExpr.printEach, hrest]
  exact List.append_ne_nil_of_left_ne_nil (type_print_ne_nil h.cons.1) rest

theorem kind_of_isName {t : Token} (h : t.isName = true) : t.kind = .ident := eq_of_beq (Bool.and_eq_true_iff.mp h).2

theorem front_params {p : Param} {ps : List Param} (h : Param.AllReadable (p :: ps))
    (hk : front (separated .comma (Param.printEach (p :: ps)) ++ ts) follow k) : k = .ident := by
  have hp := h.cons.1.1
  cases p with
  | missing t => cases hp
  | named t ty =>
    obtain ⟨rest, hrest⟩ := separated_cons .comma (Param.named t ty).print (Param.printEach ps)
    rw [Param.printEach, hrest] at hk
    exact (show k = t.kind from hk).trans (kind_of_isName (Bool.and_eq_true_iff.mp hp).1)

/-- Parameters, of which there is at least one. -/
abbrev Param.ListRead (ps : List Param) : Prop :=
  ps ≠ [] → Reads (whole .parameterList) (separated .comma (Param.printEach ps)) (EndsType true)
    (Param.bareAll · = Param.eachAsPrinted ps)

theorem reads_parameters (start : Token) {ps : List Param} (h : Param.AllReadable ps) (hps : Param.ListRead ps) :
    Reads (whole (.parameters start)) (separated .comma (Param.printEach ps) ++ [Symbol.parenClose.token]) (fun _ => True)
      (Param.bareAll · = Param.eachAsPrinted ps) := by
  refine .call ?_
  cases ps with
  | nil => exact .check (b := true) (fun k hk => hk ▸ rfl) (.expect rfl (.pure rfl))
  | cons p ps =>
    refine .check (b := false) (fun k hk => beq_eq_false_iff_ne.mpr fun heq => ?_) ?_
    · have hident := front_params h hk
      rw [heq] at hident
      cases hident
    · exact (hps (List.cons_ne_nil _ _)).bind (fun k hk => hk ▸ by decide) fun ps' hps' =>
        .isRecovering (.expect rfl (.pure hps'))

/-! ### What is read -/

mutual

/-- Every printable expression is read back from its text. -/
theorem Expr.readBack (e : Expr) (h : e.printable = true) : e.ReadBack := by
  refine .call ?_
  cases e with
  | atom t =>
    refine (reads_operand_atom h).bind_nil (fun _ _ => trivial) fun e' he' => ?_
    exact (reads_operators_stop 0 e').mono (fun _ hk => hk) (fun _ heq => heq ▸ he')
  | unary op t e =>
    have he : e.printable = true := h
    refine (reads_operand_unary op he (e.readBack he)).bind_nil (fun _ hk => stops_of_closes hk _) fun e' he' => ?_
    exact (reads_operators_stop 0 e').mono (fun _ hk => hk) (fun _ heq => heq ▸ he')
  | cast t ty e =>
    obtain ⟨hty, he⟩ := Bool.and_eq_true_iff.mp h
    have hcast : Reads (whole .operand) (Expr.cast t ty e).print (stops castPower · = true)
        (·.bare = (Expr.cast t ty e).asPrinted) := by
      refine .call (.peek fun u hu => ?_)
      rw [Token.kind_of_bare hu]
      refine .bump fun _ _ => .expect rfl ?_
      refine (ty.reads (ty.readable_of_printable hty).1).bind (fun k hk => hk ▸ .weaken (by decide) _) fun ty' hty' => ?_
      refine .expect rfl ((reads_wrapped castPower he (e.readBack he)).bind_nil (fun _ hk => hk) fun e' he' => .pure ?_)
      simp only [Expr.bare, hu, hty', he', Expr.asPrinted]
    refine hcast.bind_nil (fun _ hk => stops_of_closes hk _) fun e' he' => ?_
    exact (reads_operators_stop 0 e').mono (fun _ hk => hk) (fun _ heq => heq ▸ he')
  | binary op t l r =>
    obtain ⟨hl, hr⟩ := Bool.and_eq_true_iff.mp h
    refine (reads_operand_wrapped hl (l.readBack hl)).bind (fun _ _ => trivial) fun l' hl' => ?_
    refine reads_operators_binary (Nat.zero_le _) fun u hu => ?_
    refine (reads_wrapped op.powers.2 hr (r.readBack hr)).bind_nil (fun _ hk => stops_of_closes hk _) fun r' hr' => ?_
    refine (reads_operators_stop 0 _).mono (fun _ hk => hk) (fun _ heq => ?_)
    simp only [heq, Expr.bare, hu, hl', hr', Expr.asPrinted]
  | call t f args =>
    obtain ⟨hf, hargs⟩ := Bool.and_eq_true_iff.mp h
    refine (reads_operand_wrapped hf (f.readBack hf)).bind (fun _ _ => trivial) fun f' hf' => ?_
    refine reads_operators_call fun u hu => ?_
    refine (reads_arguments u hargs (Expr.reads_members args hargs)).bind_nil (fun _ _ => trivial) fun args' hargs' => ?_
    refine (reads_operators_stop 0 _).mono (fun _ hk => hk) (fun _ heq => ?_)
    simp only [heq, Expr.bare, hu, hf', hargs', Expr.asPrinted]
  | index t b args =>
    obtain ⟨hb, hargs⟩ := Bool.and_eq_true_iff.mp h
    obtain ⟨hb, hne⟩ := Bool.and_eq_true_iff.mp hb
    have hne : args ≠ [] := by simpa using hne
    refine (reads_operand_wrapped hb (b.readBack hb)).bind (fun _ _ => trivial) fun b' hb' => ?_
    refine reads_operators_index fun u hu => ?_
    refine (reads_indices u hne hargs (Expr.reads_members args hargs)).bind_nil (fun _ _ => trivial) fun args' hargs' => ?_
    refine (reads_operators_stop 0 _).mono (fun _ hk => hk) (fun _ heq => ?_)
    simp only [heq, Expr.bare, hu, hb', hargs', Expr.asPrinted]
  | _ => cases h

theorem Expr.reads_members (es : List Expr) (h : Expr.allPrintable es = true) : Expr.MembersRead es := by
  intro hne start close hclose hcomma
  refine .call ?_
  match es with
  | [] => exact absurd rfl hne
  | [e] =>
    have he := (Bool.and_eq_true_iff.mp h).1
    refine (reads_wrapped 0 he (e.readBack he)).bind (fun k hk => hk ▸ hclose) fun e' he' => ?_
    refine .isRecovering (.eat_other (fun k hk heq => ?_) (.expect rfl (.pure ?_)))
    · exact hcomma (TokenKind.symbol.inj ((show k = .symbol close from hk).symm.trans heq))
    · simp only [Expr.bareAll, he', Expr.eachAsPrinted]
  | e :: e₂ :: es =>
    obtain ⟨he, hes⟩ := Bool.and_eq_true_iff.mp h
    simp only [Expr.printEach, separated, List.append_assoc, List.cons_append]
    refine (reads_wrapped 0 he (e.readBack he)).bind (fun k hk => hk ▸ rfl) fun e' he' => .isRecovering (.eat rfl ?_)
    refine (Expr.reads_members (e₂ :: es) hes (List.cons_ne_nil _ _) start close hclose hcomma).bind_nil
      (fun _ _ => trivial) fun es' hes' => .pure ?_
    simp only [Expr.bareAll, he', hes', Expr.eachAsPrinted]

/-- Every type whose lists do not run into each other is read back from its text. -/
theorem TypeExpr.reads (ty : TypeExpr) (h : ty.Readable) :
    Reads (whole .typeExpr) ty.print (EndsType ty.endsInResults) (·.bare = ty.asPrinted) := by
  obtain ⟨hc, hd⟩ := h
  refine .call ?_
  cases ty with
  | name t =>
    refine .peek fun u hu => ?_
    have hread : Reads (do let _ ← bump; return TypeExpr.name u) [t.bare] (EndsType false) (·.bare = .name t.bare) :=
      .bump fun _ _ => .pure (congrArg TypeExpr.name hu)
    have hk : u.kind = t.bare.kind := Token.kind_of_bare hu
    have hname := (Bool.and_eq_true_iff.mp hc).2
    rw [show u.kind = t.kind from hk]
    split at hname <;> first | (rename_i heq; rw [heq]; exact hread) | cases hname
  | pointer t ty =>
    refine .peek fun u hu => ?_
    rw [Token.kind_of_bare hu]
    refine .bump fun _ _ => (ty.reads ⟨hc, hd⟩).bind_nil (fun _ hk => hk) fun ty' hty' => .pure ?_
    simp only [TypeExpr.bare, hu, hty', TypeExpr.asPrinted]
  | array t e ty =>
    obtain ⟨he, hty⟩ := Bool.and_eq_true_iff.mp hc
    refine .peek fun u hu => ?_
    rw [Token.kind_of_bare hu]
    refine .bump fun _ _ => .check (b := false) (fun k hk => beq_eq_false_iff_ne.mpr fun heq => ?_) ?_
    · exact absurd (((opens_print he).append _).front hk) (by rw [heq]; decide)
    refine (e.readBack he).bind (fun k hk => hk ▸ rfl) fun e' he' => .expect rfl ?_
    refine (ty.reads ⟨hty, hd⟩).bind_nil (fun _ hk => hk) fun ty' hty' => .pure ?_
    simp only [TypeExpr.bare, hu, he', hty', TypeExpr.asPrinted]
  | openArray t ty =>
    refine .peek fun u hu => ?_
    rw [Token.kind_of_bare hu]
    refine .bump fun _ _ => .check (b := true) (fun k hk => hk ▸ rfl) (.expect rfl ?_)
    refine (ty.reads ⟨hc, hd⟩).bind_nil (fun _ hk => hk) fun ty' hty' => .pure ?_
    simp only [TypeExpr.bare, hu, hty', TypeExpr.asPrinted]
  | function t ps =>
    refine .peek fun u hu => ?_
    rw [Token.kind_of_bare hu]
    have hps := reads_parameters u ⟨hc, hd⟩ (Param.reads_list ps ⟨hc, hd⟩)
    refine .bump fun _ _ => hps.bind_nil (fun _ _ => trivial) fun ps' hps' => ?_
    refine .isRecovering (.eat_other (fun k hk => hk.1) (.pure ?_))
    simp only [TypeExpr.bare, hu, hps', TypeExpr.asPrinted]
  | functionTo t ps start rs =>
    obtain ⟨hfirst, hrs⟩ := Bool.and_eq_true_iff.mp hc
    obtain ⟨hps, hne⟩ := Bool.and_eq_true_iff.mp hfirst
    obtain ⟨hdps, hdrs⟩ := Bool.and_eq_true_iff.mp hd
    have hrs := TypeExpr.reads_list rs ⟨hrs, hdrs⟩ (by simpa using hne)
    refine .peek fun u hu => ?_
    rw [Token.kind_of_bare hu, List.append_cons]
    have hps := reads_parameters u ⟨hps, hdps⟩ (Param.reads_list ps ⟨hps, hdps⟩)
    refine .bump fun _ _ => hps.bind (fun _ _ => trivial) fun ps' hps' => .isRecovering (.eat rfl ?_)
    refine .peek_first hrs.1 fun u' hu' => hrs.2.bind_nil (fun _ hk => hk) fun rs' hrs' => .pure ?_
    simp only [TypeExpr.bare, hu, hps', hu', hrs', TypeExpr.asPrinted]
  | missing t => cases hc

/-- Types, of which there is at least one. -/
theorem TypeExpr.reads_list (tys : List TypeExpr) (h : TypeExpr.AllReadable tys) (hne : tys ≠ []) :
    separated .comma (TypeExpr.printEach tys) ≠ [] ∧
      Reads (whole .types) (separated .comma (TypeExpr.printEach tys)) (EndsType true)
        (TypeExpr.bareAll · = TypeExpr.eachAsPrinted tys) := by
  match tys with
  | [] => exact absurd rfl hne
  | [ty] =>
    refine ⟨types_ne_nil h, .call ?_⟩
    refine (ty.reads h.cons.1).bind_nil (fun _ hk => hk.weaken _) fun ty' hty' => ?_
    refine .isRecovering (.eat_other (fun k hk => hk.2 rfl) (.pure ?_))
    simp only [TypeExpr.bareAll, hty', TypeExpr.eachAsPrinted]
  | ty :: ty₂ :: tys =>
    obtain ⟨hty, hresults, htys⟩ := h.cons
    refine ⟨types_ne_nil h, .call ?_⟩
    simp only [TypeExpr.printEach, separated]
    have hcomma : EndsType ty.endsInResults (.symbol .comma) := by simp [EndsType, hresults]
    refine (ty.reads hty).bind (fun k hk => hk ▸ hcomma) fun ty' hty' => .isRecovering (.eat rfl ?_)
    refine (TypeExpr.reads_list (ty₂ :: tys) htys (List.cons_ne_nil _ _)).2.bind_nil (fun _ hk => hk) fun tys' htys' => .pure ?_
    simp only [TypeExpr.bareAll, hty', htys', TypeExpr.eachAsPrinted]

theorem Param.reads (p : Param) (h : p.Readable) :
    Reads (whole .parameter) p.print (EndsType p.endsInResults) (·.bare = p.asPrinted) := by
  obtain ⟨hc, hd⟩ := h
  cases p with
  | missing t => cases hc
  | named t ty =>
    obtain ⟨ht, hty⟩ := Bool.and_eq_true_iff.mp hc
    refine .call (.expect? (kind_of_isName ht) fun u hu => .expect rfl ?_)
    refine (ty.reads ⟨hty, hd⟩).bind_nil (fun _ hk => hk) fun ty' hty' => .pure ?_
    simp only [Param.bare, hu, hty', Param.asPrinted]

theorem Param.reads_list (ps : List Param) (h : Param.AllReadable ps) : Param.ListRead ps := by
  intro hne
  refine .call ?_
  match ps with
  | [] => exact absurd rfl hne
  | [p] =>
    refine (p.reads h.cons.1).bind_nil (fun _ hk => hk.weaken _) fun p' hp' => ?_
    refine .isRecovering (.eat_other (fun k hk => hk.2 rfl) (.pure ?_))
    simp only [Param.bareAll, hp', Param.eachAsPrinted]
  | p :: p₂ :: ps =>
    obtain ⟨hp, hresults, hps⟩ := h.cons
    simp only [Param.printEach, separated]
    have hcomma : EndsType p.endsInResults (.symbol .comma) := by simp [EndsType, hresults]
    refine (p.reads hp).bind (fun k hk => hk ▸ hcomma) fun p' hp' => .isRecovering (.eat rfl ?_)
    refine (Param.reads_list (p₂ :: ps) hps (List.cons_ne_nil _ _)).bind_nil (fun _ hk => hk) fun ps' hps' => .pure ?_
    simp only [Param.bareAll, hp', hps', Param.eachAsPrinted]

end

end Wordstack
