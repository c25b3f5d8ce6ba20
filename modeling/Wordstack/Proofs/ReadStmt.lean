/-
Statements without a body are read back from their canonical texts. A declaration and an
expression may both start with names and commas; which of them it is depends on whether a
colon comes after the names, and so never on anything behind the statement.
-/
import Wordstack.Proofs.ReadExpr

namespace Wordstack

open Rule
open Rules (whole)

variable {Q : Stmt → Prop} {follow : TokenKind → Prop} {l : ExprList} {t : Token} {ts : List Token}

/-! ## Lists -/

theorem separated_eq (s : Symbol) (ts : List Token) (tss : List (List Token)) :
    separated s (ts :: tss) = ts ++ tss.flatMap (s.token :: ·) := by
  induction tss generalizing ts with
  | nil => exact (List.append_nil ts).symm
  | cons ts' tss ih => rw [separated, ih, List.flatMap_cons, List.cons_append]

theorem reads_exprs (power : Nat) (e : Expr) (es : List Expr) (h : Expr.allPrintable (e :: es) = true) :
    Reads (whole (.exprs power)) (separated .comma (Expr.printEach (e :: es)))
      (fun k => stops power k = true ∧ k ≠ .symbol .comma) (Expr.bareAll · = Expr.eachAsPrinted (e :: es)) := by
  induction es generalizing e with
  | nil =>
    have he := (Bool.and_eq_true_iff.mp h).1
    refine .call ((reads_wrapped power he (e.readBack he)).bind_nil (fun _ hk => hk.1) fun e' he' => ?_)
    refine .isRecovering (.eat_other (fun _ hk => hk.2) (.pure ?_))
    simp only [Expr.bareAll, he', Expr.eachAsPrinted]
  | cons e₂ es ih =>
    obtain ⟨he, hes⟩ := Bool.and_eq_true_iff.mp h
    simp only [Expr.printEach, separated]
    refine .call ((reads_wrapped power he (e.readBack he)).bind (fun k hk => hk ▸ rfl) fun e' he' => ?_)
    refine .isRecovering (.eat rfl ((ih e₂ hes).bind_nil (fun _ hk => hk) fun es' hes' => .pure ?_))
    simp only [Expr.bareAll, he', hes', Expr.eachAsPrinted]

theorem opens_list (h : l.printable = true) : Opens l.print := by
  obtain ⟨start, items⟩ := l
  obtain ⟨hne, hitems⟩ := Bool.and_eq_true_iff.mp h
  cases items with
  | nil => cases hne
  | cons e es => exact opens_members hitems

/-- A list of expressions, with the token that it starts with. -/
theorem reads_exprList (power : Nat) (h : l.printable = true) :
    Reads (whole.exprList power) l.print (fun k => stops power k = true ∧ k ≠ .symbol .comma) (·.bare = l.asPrinted) := by
  obtain ⟨start, items⟩ := l
  obtain ⟨hne, hitems⟩ := Bool.and_eq_true_iff.mp h
  cases items with
  | nil => cases hne
  | cons e es =>
    refine .peek_first (opens_members hitems).ne_nil fun u hu => ?_
    refine (reads_exprs power e es hitems).bind_nil (fun _ hk => hk) fun es' hes' => .pure ?_
    simp only [ExprList.bare, hu, hes', ExprList.asPrinted, ExprList.print]

theorem reads_typeList {l : TypeList} (h : l.printable = true) :
    Reads whole.typeList l.print (EndsType true) (·.bare = l.asPrinted) := by
  obtain ⟨hne, hitems⟩ := Bool.and_eq_true_iff.mp h
  have hread := TypeExpr.reads_list l.items (TypeExpr.allReadable_of_printable _ hitems) (by simpa using hne)
  refine .peek_first hread.1 fun u hu => hread.2.bind_nil (fun _ hk => hk) fun tys' htys' => .pure ?_
  simp only [TypeList.bare, hu, htys', TypeList.asPrinted, TypeList.print]

/-- The further members of a list, each behind a comma. -/
theorem reads_furtherMembers (es : List Expr) (h : Expr.allPrintable es = true) :
    Reads (whole .furtherMembers) ((Expr.printEach es).flatMap (Symbol.comma.token :: ·))
      (fun k => stops memberPower k = true ∧ k ≠ .symbol .comma) (Expr.bareAll · = Expr.eachAsPrinted es) := by
  induction es with
  | nil => exact .call (.eat_other (fun _ hk => hk.2) (.pure rfl))
  | cons e es ih =>
    obtain ⟨he, hes⟩ := Bool.and_eq_true_iff.mp h
    simp only [Expr.printEach, List.flatMap_cons, List.cons_append]
    refine .call (.eat rfl ((reads_wrapped memberPower he (e.readBack he)).bind ?_ fun e' he' => ?_))
    · intro k hk
      cases es with
      | nil => exact hk.1
      | cons e₂ es => exact hk ▸ rfl
    · refine (ih hes).bind_nil (fun _ hk => hk) fun es' hes' => .pure ?_
      simp only [Expr.bareAll, he', hes', Expr.eachAsPrinted]

/-! ## Names -/

theorem Name.print_ident (t : Token) : (Name.ident t).print = [t.bare] := rfl

theorem reads_path (start : Token) (name : Name) (names : List Name) (h : (name :: names).all Name.printable = true) :
    Reads (whole (.path start)) (separated .dot ((name :: names).map Name.print)) (· ≠ .symbol .dot)
      (·.map Name.bare = (name :: names).map Name.bare) := by
  induction names generalizing name with
  | nil =>
    cases name with
    | missing t => cases h
    | ident t =>
      have ht : t.isName = true := by simpa [Name.printable] using h
      refine .call (.expect? (kind_of_isName ht) fun u hu => .eat_other (fun _ hk => hk) (.pure ?_))
      simp only [List.map_cons, List.map_nil, Name.bare, hu]
  | cons name₂ names ih =>
    obtain ⟨ht, hnames⟩ := Bool.and_eq_true_iff.mp h
    cases name with
    | missing t => cases ht
    | ident t =>
      refine .call (.expect? (kind_of_isName ht) fun u hu => .eat rfl ?_)
      refine (ih name₂ hnames).bind_nil (fun _ hk => hk) fun names' hnames' => .pure ?_
      rw [List.map_cons, hnames']
      exact congrArg (Name.ident · :: (name₂ :: names).map Name.bare) hu

/-- Where a statement ends, with what may stand behind it. -/
def Rests (k : TokenKind) : Prop := k ≠ .keyword .elseWord ∧ k ≠ .symbol .semicolon

/-- The rule gives the statement back from its text. -/
abbrev Stmt.ReadBy (s : Stmt) (rule : Rule Stmt) (follow : TokenKind → Prop) : Prop :=
  Reads rule s.print follow (·.bare = s.asPrinted)

theorem reads_use {path : List Name} {alias? : Option Name} (h : (Stmt.use t path alias?).printable = true) :
    (Stmt.use t path alias?).ReadBy whole.useDeclaration follow := by
  obtain ⟨hpath, halias⟩ := Bool.and_eq_true_iff.mp h
  obtain ⟨hne, hpath⟩ := Bool.and_eq_true_iff.mp hpath
  cases path with
  | nil => cases hne
  | cons name names =>
    cases alias? with
    | none =>
      refine .bump fun u hu => (reads_path u name names hpath).bind (fun k hk => hk ▸ by decide) fun path' hpath' => ?_
      refine .eat_other (fun k hk => hk ▸ by decide) (.pure_bind (.expect rfl (.pure ?_)))
      simp only [Stmt.bare, hu, hpath', Stmt.asPrinted, Option.map_none]
    | some a =>
      cases a with
      | missing t => cases halias
      | ident a =>
        refine .bump fun u hu => (reads_path u name names hpath).bind (fun k hk => hk ▸ by decide) fun path' hpath' => ?_
        refine .eat rfl (.expect? (kind_of_isName halias) fun u' hu' => .pure_bind (.expect rfl (.pure ?_)))
        simp only [Stmt.bare, hu, hpath', Stmt.asPrinted, Option.map_some, Name.bare, hu']

theorem reads_names (t : Token) (ts : List Token) :
    Reads (whole .names) (printNames (t :: ts)) (· ≠ .symbol .comma) (·.map Token.bare = (t :: ts).map Token.bare) := by
  induction ts generalizing t with
  | nil =>
    refine .call (.bump fun u hu => .eat_other (fun _ hk => hk) (.pure ?_))
    simp only [List.map_cons, List.map_nil, hu]
  | cons t₂ ts ih =>
    refine .call (.bump fun u hu => .eat rfl ((ih t₂).bind_nil (fun _ hk => hk) fun ts' hts' => .pure ?_))
    rw [List.map_cons, hts', hu]
    rfl

theorem firstOf_append (h : ts ≠ []) (ts' : List Token) : firstOf (ts ++ ts') = firstOf ts := by
  cases ts with
  | nil => exact absurd rfl h
  | cons t ts => rfl

theorem printNames_ne_nil (t : Token) (ts : List Token) : printNames (t :: ts) ≠ [] := by
  obtain ⟨rest, hrest⟩ := separated_cons .comma [t.bare] (ts.map fun t => [t.bare])
  rw [printNames, List.map_cons, hrest]
  simp

/-- What the declarations of several names have in common. -/
theorem reads_many {types : TypeList} (htypes : types.printable = true) (next : Token) (more : List Token)
    (hnext : EndsType true next.kind)
    {f : Token → List Token → TypeList → Rule Stmt}
    (h : ∀ u ts' types', u.bare = firstOf (printNames (t :: ts)) → ts'.map Token.bare = (t :: ts).map Token.bare →
      types'.bare = types.asPrinted → Reads (f u ts' types') (next :: more) follow Q) :
    Reads (do let u ← peek; let ts' ← whole .names; let _ ← bump; let types' ← whole.typeList; f u ts' types')
      (printNames (t :: ts) ++ Symbol.colon.token :: (types.print ++ next :: more)) follow Q := by
  refine .peek_first (by simp) fun u hu => ?_
  rw [firstOf_append (printNames_ne_nil t ts)] at hu
  refine (reads_names t ts).bind (fun k' hk' => hk' ▸ by decide) fun ts' hts' => .bump fun _ _ => ?_
  refine (reads_typeList htypes).bind (fun k hk => hk ▸ hnext) fun types' htypes' => ?_
  exact h u ts' types' hu hts' htypes'

theorem reads_declareMany {start : Token} {names : List Token} {types : TypeList}
    (h : (Stmt.declareMany start names types).printable = true) :
    (Stmt.declareMany start names types).ReadBy whole.manyDeclaration follow := by
  obtain ⟨hnames, htypes⟩ := Bool.and_eq_true_iff.mp h
  cases names with
  | nil => cases hnames
  | cons t ts =>
    refine reads_many htypes Symbol.semicolon.token [] (by decide) fun u ts' types' hu hts' htypes' => ?_
    refine .isRecovering (.eat_other (fun k hk => hk ▸ by decide) (.expect rfl (.pure ?_)))
    simp only [Stmt.bare, hu, hts', htypes', Stmt.asPrinted]

theorem reads_declareManyAs {start : Token} {names : List Token} {types : TypeList} {values : ExprList}
    (h : (Stmt.declareManyAs start names types values).printable = true) :
    (Stmt.declareManyAs start names types values).ReadBy whole.manyDeclaration follow := by
  obtain ⟨hrest, hvalues⟩ := Bool.and_eq_true_iff.mp h
  obtain ⟨hnames, htypes⟩ := Bool.and_eq_true_iff.mp hrest
  cases names with
  | nil => cases hnames
  | cons t ts =>
    refine reads_many htypes Symbol.assign.token _ (by decide) fun u ts' types' hu hts' htypes' => ?_
    refine .isRecovering (.eat rfl ?_)
    refine (reads_exprList memberPower hvalues).bind (fun k hk => hk ▸ by decide) fun values' hvalues' => ?_
    refine .expect rfl (.pure ?_)
    simp only [Stmt.bare, hu, hts', htypes', hvalues', Stmt.asPrinted]

theorem reads_variants (name : Token) (vs : List Name) (h : vs.all Name.printable = true) :
    Reads (whole (.variants name)) (separated .comma (vs.map Name.print) ++ [Symbol.curlyClose.token]) (fun _ => True)
      (·.map Name.bare = vs.map Name.bare) := by
  refine .call ?_
  induction vs with
  | nil => exact .eat rfl (.pure rfl)
  | cons v vs ih =>
    obtain ⟨hv, hvs⟩ := Bool.and_eq_true_iff.mp h
    cases v with
    | missing t => cases hv
    | ident t =>
      have hident := kind_of_isName hv
      cases vs with
      | nil =>
        refine .eat_other (fun k hk heq => ?_) (.expect? hident fun u hu => ?_)
        · rw [show k = t.kind from hk, hident] at heq
          cases heq
        refine .eat_other (fun k hk => hk ▸ by decide) (.expect rfl (.pure ?_))
        simp only [List.map_cons, List.map_nil, Name.bare, hu]
      | cons v₂ vs =>
        refine .eat_other (fun k hk heq => ?_) (.expect? hident fun u hu => .eat rfl ?_)
        · rw [show k = t.kind from hk, hident] at heq
          cases heq
        refine (Reads.call (ih hvs)).bind_nil (fun _ hk => hk) fun vs' hvs' => .pure ?_
        rw [List.map_cons, hvs']
        exact congrArg (Name.ident · :: (v₂ :: vs).map Name.bare) hu

/-! ## Expressions as statements -/

theorem reads_exprStmt {e : Expr} (h : e.printable = true) : (Stmt.expr t e).ReadBy whole.expression follow := by
  refine .peek_first ((opens_print h).append _).ne_nil fun u hu => ?_
  rw [Stmt.print, firstOf_append (opens_print h).ne_nil] at hu
  refine (e.readBack h).bind (fun k hk => hk ▸ rfl) fun e' he' => ?_
  refine .check (b := false) (fun k hk => hk ▸ rfl) (.isRecovering (.pure_bind (.expect rfl (.pure ?_))))
  simp only [Stmt.bare, hu, he', Stmt.asPrinted]

/-- What is read behind the members of a list. -/
def afterList (start : Token) (targets : ExprList) : Rule Stmt := do
  let t ← peek
  if ← eat (.symbol .assign) then
    let values ← whole.exprList memberPower
    let _ ← expect (.symbol .semicolon)
    return .swap t targets values
  else
    let _ ← expect (.symbol .semicolon)
    return .exprs start targets

theorem reads_list (h : l.printable = true) (hlen : 2 ≤ l.items.length) (next : Token) (more : List Token) (hnext : stops memberPower next.kind = true ∧ next.kind ≠ .symbol .comma) 
    (hf : ∀ u l', u.bare = firstOf l.print → l'.bare = l.asPrinted → Reads (afterList u l') (next :: more) follow Q) :
    Reads whole.expression (l.print ++ next :: more) follow Q := by
  obtain ⟨start, items⟩ := l
  obtain ⟨hne, hitems⟩ := Bool.and_eq_true_iff.mp h
  match items, hlen with
  | e :: e₂ :: es, _ =>
    obtain ⟨he, hes⟩ := Bool.and_eq_true_iff.mp hitems
    have hprint : ExprList.print ⟨start, e :: e₂ :: es⟩ =
        e.wrap e.print ++ (Expr.printEach (e₂ :: es)).flatMap (Symbol.comma.token :: ·) :=
      separated_eq .comma (e.wrap e.print) (Expr.printEach (e₂ :: es))
    have hfirst := (opens_wrap he).ne_nil
    refine .peek_first (by simp [hprint, hfirst]) fun u hu => ?_
    rw [firstOf_append (by simp [hprint, hfirst])] at hu
    rw [hprint, List.append_assoc]
    refine (reads_wrapped 0 he (e.readBack he)).bind (fun k hk => hk ▸ rfl) fun e' he' => ?_
    refine .check (b := true) (fun k hk => hk ▸ rfl) (.isRecovering ?_)
    refine (reads_furtherMembers (e₂ :: es) hes).bind (fun k hk => hk ▸ hnext) fun es' hes' => ?_
    refine hf u ⟨u, e' :: es'⟩ hu ?_
    simp only [ExprList.bare, hu, Expr.bareAll, he', hes', ExprList.asPrinted, Expr.eachAsPrinted]

theorem reads_exprs_stmt {es : ExprList} (h : (Stmt.exprs t es).printable = true) :
    (Stmt.exprs t es).ReadBy whole.expression follow := by
  obtain ⟨hlen, hes⟩ := Bool.and_eq_true_iff.mp h
  refine reads_list hes (of_decide_eq_true hlen) Symbol.semicolon.token [] (by decide) fun u l' hu hl' => ?_
  refine .peek fun _ _ => .eat_other (fun k hk => hk ▸ by decide) (.expect rfl (.pure ?_))
  simp only [Stmt.bare, hu, hl', Stmt.asPrinted]

theorem reads_swap {targets values : ExprList} (h : (Stmt.swap t targets values).printable = true) :
    Reads whole.expression (Stmt.swap t targets values).print follow
      (fun s => s.bare = (Stmt.swap t targets values).asPrinted ∧ ∃ u ts vs, s = .swap u ts vs) := by
  obtain ⟨htargets, hvalues⟩ := Bool.and_eq_true_iff.mp h
  obtain ⟨hlen, htargets⟩ := Bool.and_eq_true_iff.mp htargets
  refine reads_list htargets (of_decide_eq_true hlen) Symbol.assign.token _ (by decide) fun u l' hu hl' => ?_
  refine .peek fun u' hu' => .eat rfl ?_
  refine (reads_exprList memberPower hvalues).bind (fun k hk => hk ▸ by decide) fun values' hvalues' => ?_
  refine .expect rfl (.pure ⟨?_, _, _, _, rfl⟩)
  simp only [Stmt.bare, hu', hl', hvalues', Stmt.asPrinted]

theorem reads_return : (Stmt.return t).ReadBy whole.returnStatement follow := by
  refine .bump fun u hu => .check (b := true) (fun k hk => hk ▸ rfl) (.expect rfl (.pure ?_))
  simp only [Stmt.bare, hu, Stmt.asPrinted]

theorem reads_returnWith {es : ExprList} (h : es.printable = true) :
    (Stmt.returnWith t es).ReadBy whole.returnStatement follow := by
  refine .bump fun u hu => .check (b := false) (fun k hk => beq_eq_false_iff_ne.mpr fun heq => ?_) ?_
  · exact absurd (((opens_list h).append _).front hk) (by rw [heq]; decide)
  refine (reads_exprList 0 h).bind (fun k hk => hk ▸ by decide) fun es' hes' => .expect rfl (.pure ?_)
  simp only [Stmt.bare, hu, hes', Stmt.asPrinted]

theorem reads_exit (e : LoopExit) : (Stmt.exit e t).ReadBy (loopExit e) follow := by
  refine .bump fun u hu => .expect rfl (.pure ?_)
  simp only [Stmt.bare, hu, Stmt.asPrinted]

/-! ## Telling declarations from expressions -/

theorem declaresMany_bare : ∀ us : List Token, declaresMany (us.map Token.bare) = declaresMany us
  | [] | [_] => rfl
  | name :: next :: rest => by
    simp only [List.map_cons, declaresMany, declaresMany_bare rest]
    rfl

theorem declaresMany_of_bare {us : List Token} (h : us.map Token.bare = ts) (rest : List Token) :
    declaresMany (us ++ rest) = declaresMany (ts ++ rest.map Token.bare) := by
  rw [← declaresMany_bare, List.map_append, h]

/-- The text is not read as a declaration, whatever follows. -/
def Undeclared (ts : List Token) : Prop := 2 ≤ ts.length ∧ ∀ rest, declaresMany (ts ++ rest) = false

theorem reads_form_expression (hopens : Opens ts) (hts : Undeclared ts)
    (h : Reads whole.expression ts follow Q) : Reads (whole .statementForm) ts follow Q := by
  refine .call (.peek_first hopens.ne_nil fun u hu => ?_)
  obtain ⟨t, rest, rfl, ht⟩ := hopens
  rw [← show u.kind = t.kind from Token.kind_of_bare hu] at ht
  split
  next heq => rw [heq] at ht; cases ht
  next heq => rw [heq] at ht; cases ht
  next heq => rw [heq] at ht; cases ht
  next heq => rw [heq] at ht; cases ht
  next heq => rw [heq] at ht; cases ht
  next heq => rw [heq] at ht; cases ht
  next heq => rw [heq] at ht; cases ht
  next heq => rw [heq] at ht; cases ht
  next heq =>
    match rest, hts with
    | [], hts => exact absurd hts.1 (by simp)
    | t' :: rest, hts =>
      have hcolon : t'.isSymbol .colon = false := by
        have hident : t.isIdent = true := by
          rw [Token.isIdent, ← show u.kind = t.kind from Token.kind_of_bare hu, heq]
          rfl
        have := hts.2 []
        simp only [List.cons_append, declaresMany, hident, Bool.true_and, Bool.or_eq_false_iff] at this
        exact this.1
      refine .peekSecond fun u' hu' => ?_
      rw [show u'.isSymbol .colon = t'.isSymbol .colon from congrArg (· == _) (Token.kind_of_bare hu'), hcolon]
      refine .get fun s us rest' hus hs => ?_
      rw [hs, declaresMany_of_bare hus, hts.2]
      exact h
  · exact h

theorem declaresMany_of_first (h : t.isIdent = false) (ts : List Token) : declaresMany (t :: ts) = false := by
  cases ts with
  | nil => rfl
  | cons t' ts => simp only [declaresMany, h, Bool.false_and]

theorem declaresMany_of_second {t' : Token} (hcolon : t'.isSymbol .colon = false) (hcomma : t'.isSymbol .comma = false)
    (t : Token) (ts : List Token) : declaresMany (t :: t' :: ts) = false := by
  simp only [declaresMany, hcolon, hcomma, Bool.false_and, Bool.or_false, Bool.and_false]

/-- Neither colon nor comma follows a name with which an expression starts. -/
theorem declaresMany_wrap (e : Expr) (t : Token) (hcolon : t.isSymbol .colon = false) (hcomma : t.isSymbol .comma = false)
    (ts more : List Token) (hts : e.print = ts) : declaresMany (e.wrap ts ++ t :: more) = false := by
  cases e with
  | atom a =>
    rw [← hts]
    exact declaresMany_of_second hcolon hcomma _ _
  | _ => exact declaresMany_of_first rfl _

theorem undeclared_expr (t : Token) {e : Expr} (h : e.printable = true) : Undeclared (Stmt.expr t e).print := by
  have hpos := List.length_pos_iff.mpr (opens_print h).ne_nil
  refine ⟨by simp only [Stmt.print, List.length_append, List.length_cons, List.length_nil]; omega, fun rest => ?_⟩
  simp only [Stmt.print, List.append_assoc, List.cons_append, List.nil_append]
  cases e with
  | atom a => exact declaresMany_of_second rfl rfl _ _
  | unary op t e | cast t ty e => exact declaresMany_of_first rfl _
  | binary op t l r =>
    simp only [Expr.print, List.append_assoc, List.cons_append]
    exact declaresMany_wrap l _ (by cases op <;> rfl) (by cases op <;> rfl) _ _ rfl
  | call t f args =>
    simp only [Expr.print, List.append_assoc, List.cons_append]
    exact declaresMany_wrap f _ rfl rfl _ _ rfl
  | index t b args =>
    simp only [Expr.print, List.append_assoc, List.cons_append]
    exact declaresMany_wrap b _ rfl rfl _ _ rfl
  | _ => cases h

theorem declaresMany_members (e : Expr) (es : List Expr) (hcolon : t.isSymbol .colon = false)
    (hcomma : t.isSymbol .comma = false) (more : List Token) :
    declaresMany (separated .comma (Expr.printEach (e :: es)) ++ t :: more) = false := by
  induction es generalizing e with
  | nil => exact declaresMany_wrap e t hcolon hcomma _ _ rfl
  | cons e₂ es ih =>
    simp only [Expr.printEach, separated, List.append_assoc, List.cons_append]
    cases e with
    | atom a =>
      show declaresMany (a.bare :: Symbol.comma.token :: (separated .comma (Expr.printEach (e₂ :: es)) ++ t :: more)) = false
      rw [declaresMany, ih e₂, Bool.and_false, Bool.or_false]
      exact Bool.and_false _
    | _ => exact declaresMany_of_first rfl _

theorem undeclared_list (h : l.printable = true) (hcolon : t.isSymbol .colon = false)
    (hcomma : t.isSymbol .comma = false) (more : List Token) : Undeclared (l.print ++ t :: more) := by
  obtain ⟨start, items⟩ := l
  have hpos := List.length_pos_iff.mpr (opens_list h).ne_nil
  obtain ⟨hne, hitems⟩ := Bool.and_eq_true_iff.mp h
  cases items with
  | nil => cases hne
  | cons e es =>
    refine ⟨by simp only [List.length_append, List.length_cons]; omega, fun rest => ?_⟩
    rw [List.append_assoc]
    exact declaresMany_members e es hcolon hcomma _

theorem isIdent_of_isName (h : t.isName = true) : t.isIdent = true := by
  rw [Token.isIdent, kind_of_isName h]
  rfl

theorem declaresMany_names (t : Token) (ts : List Token) (h : (t :: ts).all Token.isName = true) (more : List Token) :
    declaresMany (printNames (t :: ts) ++ Symbol.colon.token :: more) = true := by
  induction ts generalizing t with
  | nil =>
    have ht : t.bare.isIdent = true := isIdent_of_isName (Bool.and_eq_true_iff.mp h).1
    show declaresMany (t.bare :: Symbol.colon.token :: more) = true
    rw [declaresMany, ht]
    rfl
  | cons t₂ ts ih =>
    obtain ⟨hname, hts⟩ := Bool.and_eq_true_iff.mp h
    have ht : t.bare.isIdent = true := isIdent_of_isName hname
    show declaresMany (t.bare :: Symbol.comma.token :: (printNames (t₂ :: ts) ++ Symbol.colon.token :: more)) = true
    rw [declaresMany, ht, ih t₂ hts]
    rfl

theorem declaresMany_declared (h : (t :: ts).all Token.isName = true)
    (more rest : List Token) : declaresMany ((printNames (t :: ts) ++ Symbol.colon.token :: more) ++ rest) = true := by
  rw [List.append_assoc]
  exact declaresMany_names t ts h _

end Wordstack
