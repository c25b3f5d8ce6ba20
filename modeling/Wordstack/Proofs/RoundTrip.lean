/-
Programs are read back from their canonical texts: nothing is reported, and every tree is
the one that was printed, with the tokens of the text in it.
-/
import Wordstack.Proofs.ReadStmt

namespace Wordstack

open Rule
open Rules (whole)

variable {Q : Stmt → Prop} {c : Expr} {follow : TokenKind → Prop} {k : TokenKind} {s : Stmt} {t : Token} {ts : List Token}
  {ty : TypeExpr}

/-! ## First tokens -/

/-- Whether a statement may start with a token of this kind. -/
def startsStmt : TokenKind → Bool
  | .symbol .curlyOpen | .keyword .useWord | .keyword .ifWord | .keyword .whileWord | .keyword .returnWord
  | .keyword .breakWord | .keyword .continueWord => true
  | k => startsExpr k

theorem startsStmt_of_startsExpr (h : startsExpr k = true) : startsStmt k = true := by
  unfold startsStmt
  split <;> first | rfl | exact h

/-- A text that starts as a statement does. -/
def Begins (ts : List Token) : Prop := ∃ t rest, ts = t :: rest ∧ startsStmt t.kind = true

theorem Opens.begins (h : Opens ts) : Begins ts := by
  obtain ⟨t, rest, rfl, ht⟩ := h
  exact ⟨t, rest, rfl, startsStmt_of_startsExpr ht⟩

theorem begins_name (h : t.isName = true) (rest : List Token) : Begins (t.bare :: rest) :=
  ⟨t.bare, rest, rfl, by rw [show t.bare.kind = .ident from kind_of_isName h]; rfl⟩

theorem begins_names (hlen : 2 ≤ ts.length) (h : ts.all Token.isName = true) (rest : List Token) :
    Begins (printNames ts ++ rest) := by
  match ts, hlen with
  | t :: t₂ :: ts, _ => exact begins_name (Bool.and_eq_true_iff.mp h).1 _

theorem begins_print (h : s.printable = true) : Begins s.print := by
  cases s with
  | block | ifThen | ifElse | «while» | «return» | returnWith | use => exact ⟨_, _, rfl, rfl⟩
  | exit e t => exact ⟨e.keyword.token, _, rfl, by cases e <;> rfl⟩
  | expr t e => exact ((opens_print h).append _).begins
  | exprs t es => exact ((opens_list (Bool.and_eq_true_iff.mp h).2).append _).begins
  | swap t targets values =>
    exact ((opens_list (Bool.and_eq_true_iff.mp (Bool.and_eq_true_iff.mp h).1).2).append _).begins
  | declare name ty => exact begins_name (Bool.and_eq_true_iff.mp h).1 _
  | declareAs name ty e | define name ty brace body =>
    exact begins_name (Bool.and_eq_true_iff.mp (Bool.and_eq_true_iff.mp h).1).1 _
  | external name ty | record kind name fields | enumeration name variants =>
    exact begins_name (Bool.and_eq_true_iff.mp h).1 _
  | declareMany start names types =>
    obtain ⟨hnames, -⟩ := Bool.and_eq_true_iff.mp h
    obtain ⟨hlen, hnames⟩ := Bool.and_eq_true_iff.mp hnames
    exact begins_names (of_decide_eq_true hlen) hnames _
  | declareManyAs start names types values =>
    obtain ⟨hnames, -⟩ := Bool.and_eq_true_iff.mp (Bool.and_eq_true_iff.mp h).1
    obtain ⟨hlen, hnames⟩ := Bool.and_eq_true_iff.mp hnames
    exact begins_names (of_decide_eq_true hlen) hnames _
  | _ => cases h

theorem Begins.ne_nil (h : Begins ts) : ts ≠ [] := by
  obtain ⟨t, rest, rfl, -⟩ := h
  simp

theorem Begins.length_pos (h : Begins ts) : 0 < ts.length := List.length_pos_iff.mpr h.ne_nil

theorem Begins.front (h : Begins ts) {ts' : List Token} (hk : front (ts ++ ts') follow k) : startsStmt k = true := by
  obtain ⟨t, rest, rfl, ht⟩ := h
  exact (show k = t.kind from hk) ▸ ht

theorem Begins.firstOf (h : Begins ts) : startsStmt (firstOf ts).kind = true := by
  obtain ⟨t, rest, rfl, ht⟩ := h
  exact ht

theorem rests_of_startsStmt (h : startsStmt k = true) : Rests k := by
  constructor <;> rintro rfl <;> cases h

/-- Behind a statement comes another one or the end of the block. -/
theorem front_bodies {ss : List Stmt} (h : Stmt.allPrintable ss = true)
    (hk : front (Stmt.printAll ss ++ [Symbol.curlyClose.token]) follow k) : Rests k := by
  cases ss with
  | nil =>
    obtain rfl : k = .symbol .curlyClose := hk
    exact ⟨by decide, by decide⟩
  | cons s ss =>
    rw [Stmt.printAll, List.append_assoc] at hk
    exact rests_of_startsStmt ((begins_print (Bool.and_eq_true_iff.mp h).1).front hk)

/-! ## Statements -/

/-- A condition, which stands in parentheses. -/
theorem reads_condition (h : c.printable = true) :
    Reads (whole (.expr 0)) (Symbol.parenOpen.token :: (c.print ++ [Symbol.parenClose.token])) Closes
      (·.bare = c.asPrinted) := by
  refine .call ((reads_operand_paren (c.readBack h)).bind_nil (fun _ _ => trivial) fun c' hc' => ?_)
  exact (reads_operators_stop 0 c').mono (fun _ hk => hk) (fun _ heq => heq ▸ hc')

/-- No condition goes on with the brace of the block behind it. -/
theorem front_braced (h : s.isBraced = true) (ts : List Token) (follow : TokenKind → Prop) :
    (∀ k, front s.print follow k → Closes k) ∧ ∀ k, front (s.print ++ ts) follow k → Closes k := by
  cases s with
  | block t body => exact ⟨fun k hk => hk ▸ rfl, fun k hk => hk ▸ rfl⟩
  | _ => cases h

/-- A rule that has met nothing wrong leaves nothing to skip. -/
theorem reads_unskipped {x : Rule Stmt}
    (h : Reads x ts follow Q) :
    Reads (do
      let s ← x
      if ← isRecovering then skipStatement
      return s) ts follow Q :=
  h.bind_nil (fun _ hk => hk) fun _ hs => .isRecovering (.pure hs)

theorem reads_statement_of_form (h : Reads (whole .statementForm) ts follow Q) : Reads (whole .statement) ts follow Q :=
  .call (reads_unskipped h)

/-- The statements are read up to and with the brace behind them. -/
abbrev Stmt.BodyRead (ss : List Stmt) (rule : Rule (List Stmt)) : Prop :=
  Reads rule (Stmt.printAll ss ++ [Symbol.curlyClose.token]) (fun _ => True) (Stmt.bareAll · = Stmt.eachAsPrinted ss)

/-- A block is complete, whatever follows it. -/
theorem reads_block {body : List Stmt} (h : ∀ start, Stmt.BodyRead body (whole (.blockBody start))) :
    (Stmt.block t body).ReadBy (whole .statementForm) (fun _ => True) := by
  refine .call (.peek fun u hu => ?_)
  rw [Token.kind_of_bare hu]
  refine .bump fun _ _ => (h u).bind_nil (fun _ hk => hk) fun body' hbody' => .pure ?_
  simp only [Stmt.bare, hu, hbody', Stmt.asPrinted]

theorem reads_ifThen {yes : Stmt} (hc : c.printable = true) (hbraced : yes.isBraced = true)
    (hyes : yes.ReadBy (whole .statement) (fun _ => True)) : (Stmt.ifThen t c yes).ReadBy (whole .ifStatement) Rests := by
  rw [Stmt.ReadBy, Stmt.print, List.append_cons]
  refine .call (.bump fun u hu => (reads_condition hc).bind (front_braced hbraced [] _).1 fun c' hc' => .isRecovering ?_)
  refine hyes.bind_nil (fun _ _ => trivial) fun yes' hyes' => .eat_other (fun _ hk => hk.1) (.pure ?_)
  simp only [Stmt.bare, hu, hc', hyes', Stmt.asPrinted]

theorem reads_ifElse {yes no : Stmt} (hc : c.printable = true) (hbraced : yes.isBraced = true)
    (hyes : yes.ReadBy (whole .statement) (fun _ => True)) (hno : no.ReadBy (whole .statement) Rests) :
    (Stmt.ifElse t c yes no).ReadBy (whole .ifStatement) Rests := by
  rw [Stmt.ReadBy, Stmt.print, List.append_cons]
  refine .call (.bump fun u hu => (reads_condition hc).bind (front_braced hbraced _ _).2 fun c' hc' => .isRecovering ?_)
  refine hyes.bind (fun _ _ => trivial) fun yes' hyes' => .eat rfl ?_
  refine hno.bind_nil (fun _ hk => hk) fun no' hno' => .pure ?_
  simp only [Stmt.bare, hu, hc', hyes', hno', Stmt.asPrinted]

theorem reads_while {body : Stmt} (hc : c.printable = true) (hbraced : body.isBraced = true)
    (hbody : body.ReadBy (whole .statement) (fun _ => True)) :
    (Stmt.while t c body).ReadBy (whole .whileStatement) Rests := by
  rw [Stmt.ReadBy, Stmt.print, List.append_cons]
  refine .call (.bump fun u hu => (reads_condition hc).bind (front_braced hbraced [] _).1 fun c' hc' => .isRecovering ?_)
  refine hbody.bind_nil (fun _ _ => trivial) fun body' hbody' => .pure ?_
  simp only [Stmt.bare, hu, hc', hbody', Stmt.asPrinted]

/-! ### Declarations of a single name -/

/-- A type starts with no keyword. -/
theorem type_begins (h : ty.complete = true) : ∃ t rest, ty.print = t :: rest ∧ ∀ k, t.kind ≠ .keyword k := by
  cases ty with
  | name t =>
    refine ⟨t.bare, [], rfl, fun k hk => ?_⟩
    have hname := (Bool.and_eq_true_iff.mp h).2
    rw [show t.kind = .keyword k from hk] at hname
    cases hname
  | missing t => cases h
  | _ => exact ⟨_, _, rfl, fun k hk => by cases hk⟩

/-- What is read behind the type of a name. -/
def afterType (name : Token) (ty : TypeExpr) : Rule Stmt := do
  if ← eat (.symbol .assign) then
    let t ← peek
    if ← eat (.symbol .curlyOpen) then
      let body ← whole (.blockBody t)
      let _ ← eat (.symbol .semicolon)
      return .define name ty t body
    else
      let value ← whole (.expr 0)
      let _ ← expect (.symbol .semicolon)
      return .declareAs name ty value
  else
    let _ ← expect (.symbol .semicolon)
    return .declare name ty

theorem reads_typed {name : Token} (hty : ty.Readable) {next : Token} {more : List Token} (hnext : EndsType ty.endsInResults next.kind) 
    (h : ∀ u ty', u.bare = name.bare → ty'.bare = ty.asPrinted → Reads (afterType u ty') (next :: more) follow Q) :
    Reads (whole .declaration) (name.bare :: Symbol.colon.token :: (ty.print ++ next :: more)) follow Q := by
  refine .call (.bump fun u hu => .bump fun _ _ => ?_)
  obtain ⟨t, rest, hprint, hkeyword⟩ := type_begins hty.1
  refine .peek_first (by simp [hprint]) fun u' hu' => ?_
  have hk : u'.kind = t.kind := Token.kind_of_bare (by rw [hu', hprint]; rfl)
  rw [hk]
  split
  next heq => exact absurd heq (hkeyword _)
  next heq => exact absurd heq (hkeyword _)
  next heq => exact absurd heq (hkeyword _)
  next heq => exact absurd heq (hkeyword _)
  refine (ty.reads hty).bind (fun k hk => hk ▸ hnext) fun ty' hty' => .isRecovering ?_
  exact h u ty' hu hty'

theorem reads_openBrace {f : Bool → Rule Stmt} (h : Reads (f true) ts follow Q) :
    Reads (openBrace >>= f) (Symbol.assign.token :: Symbol.curlyOpen.token :: ts) follow Q := by
  unfold openBrace
  rw [bind_assoc]
  exact .expect rfl (.expect rfl h)

theorem reads_record {kind : RecordKind} {name : Token} {fields : List Stmt}
    (h : ∀ u, Stmt.BodyRead fields (whole (.fields u))) {u : Token} (hu : u.bare = name.bare) {rest : List Token}
    (hrest : (Stmt.record kind name fields).print = name.bare :: Symbol.colon.token :: rest) :
    Reads (whole (.record kind u)) rest Rests (·.bare = (Stmt.record kind name fields).asPrinted) := by
  obtain rfl := (List.cons.inj (List.cons.inj hrest).2).2
  refine .call (.bump fun _ _ => reads_openBrace ?_)
  refine (h u).bind_nil (fun _ _ => trivial) fun fs hfs => .eat_other (fun _ hk => hk.2) (.pure ?_)
  simp only [Stmt.bare, hu, hfs, Stmt.asPrinted]

theorem reads_enumeration {name : Token} {vs : List Name} (h : vs.all Name.printable = true) {u : Token}
    (hu : u.bare = name.bare) {rest : List Token}
    (hrest : (Stmt.enumeration name vs).print = name.bare :: Symbol.colon.token :: rest) :
    Reads (whole.enumeration u) rest Rests (·.bare = (Stmt.enumeration name vs).asPrinted) := by
  obtain rfl := (List.cons.inj (List.cons.inj hrest).2).2
  refine .bump fun _ _ => reads_openBrace ?_
  refine (reads_variants u vs h).bind_nil (fun _ _ => trivial) fun vs' hvs' => .eat_other (fun _ hk => hk.2) (.pure ?_)
  simp only [Stmt.bare, hu, hvs', Stmt.asPrinted]

theorem reads_declare {name : Token} (hty : ty.Readable) : (Stmt.declare name ty).ReadBy (whole .declaration) Rests := by
  refine reads_typed hty (.weaken (by decide) _) fun u ty' hu hty' => ?_
  refine .eat_other (fun k hk => hk ▸ by decide) (.expect rfl (.pure ?_))
  simp only [Stmt.bare, hu, hty', Stmt.asPrinted]

theorem allPrintable_of_allFields : ∀ {ss : List Stmt}, Stmt.allFields ss = true → Stmt.allPrintable ss = true
  | [], _ => rfl
  | s :: ss, h => by
    obtain ⟨hs, hss⟩ := Bool.and_eq_true_iff.mp h
    exact Bool.and_eq_true_iff.mpr ⟨(Bool.and_eq_true_iff.mp hs).2, allPrintable_of_allFields hss⟩

/-- A declaration starts with its name and a colon. -/
theorem declaration_begins (hs : s.isDeclaration = true) (h : s.printable = true) :
    ∃ t rest, s.print = t :: Symbol.colon.token :: rest ∧ t.kind = .ident := by
  cases s with
  | declare name ty => exact ⟨_, _, rfl, kind_of_isName (Bool.and_eq_true_iff.mp h).1⟩
  | declareAs name ty e | define name ty brace body =>
    exact ⟨_, _, rfl, kind_of_isName (Bool.and_eq_true_iff.mp (Bool.and_eq_true_iff.mp h).1).1⟩
  | external name ty | record kind name fields | enumeration name vs =>
    exact ⟨_, _, rfl, kind_of_isName (Bool.and_eq_true_iff.mp h).1⟩
  | _ => cases hs

/-! ### All statements -/

theorem reads_form_declaration
    (hts : ∃ t rest, ts = t :: Symbol.colon.token :: rest ∧ t.kind = .ident) (h : Reads (whole .declaration) ts follow Q) :
    Reads (whole .statementForm) ts follow Q := by
  obtain ⟨t, rest, rfl, hident⟩ := hts
  refine .call (.peek fun u hu => ?_)
  rw [(Token.kind_of_bare hu).trans hident]
  refine .peekSecond fun u' hu' => ?_
  rw [show u'.isSymbol .colon = true from congrArg (· == _) (Token.kind_of_bare hu')]
  exact h

theorem reads_form_many {t₂ : Token} {names more : List Token} (hnames : (t :: t₂ :: names).all Token.isName = true) 
    (h : Reads whole.manyDeclaration (printNames (t :: t₂ :: names) ++ Symbol.colon.token :: more) follow Q) :
    Reads (whole .statementForm) (printNames (t :: t₂ :: names) ++ Symbol.colon.token :: more) follow Q := by
  refine .call (.peek fun u hu => ?_)
  rw [(Token.kind_of_bare hu).trans (kind_of_isName (Bool.and_eq_true_iff.mp hnames).1)]
  refine .peekSecond fun u' hu' => ?_
  rw [show u'.isSymbol .colon = false from congrArg (· == _) (Token.kind_of_bare hu')]
  refine .get fun s us rest hus hs => ?_
  rw [hs, (declaresMany_of_bare hus rest).trans (declaresMany_declared hnames more _)]
  exact h

/-- The rule for statements that start with a keyword. -/
def startedBy : Keyword → Rule Stmt
  | .useWord => whole.useDeclaration
  | .ifWord => whole .ifStatement
  | .whileWord => whole .whileStatement
  | .returnWord => whole.returnStatement
  | .breakWord => loopExit .leave
  | .continueWord => loopExit .again
  | _ => whole.expression

theorem reads_form_keyword (k : Keyword)
    (h : Reads (startedBy k) (k.token :: ts) follow Q) : Reads (whole .statementForm) (k.token :: ts) follow Q := by
  refine .call (.peek fun u hu => ?_)
  rw [show u.kind = .keyword k from Token.kind_of_bare hu]
  cases k <;> exact h

mutual

theorem Stmt.reads_braced (s : Stmt) (hs : s.isBraced = true) (h : s.printable = true) :
    s.ReadBy (whole .statement) (fun _ => True) := by
  cases s with
  | block t body => exact reads_statement_of_form (reads_block (Stmt.reads_body body h))
  | _ => cases hs

theorem Stmt.reads_declaration (s : Stmt) (hs : s.isDeclaration = true) (h : s.printable = true) :
    s.ReadBy (whole .declaration) Rests := by
  cases s with
  | declare name ty => exact reads_declare (TypeExpr.readable_of_printableAlone (Bool.and_eq_true_iff.mp h).2)
  | declareAs name ty e =>
    obtain ⟨hrest, he⟩ := Bool.and_eq_true_iff.mp h
    refine reads_typed (TypeExpr.readable_of_printableAlone (Bool.and_eq_true_iff.mp hrest).2) (.weaken (by decide) _)
      fun u ty' hu hty' => ?_
    refine .eat rfl (.peek_first ((opens_print he).append _).ne_nil fun _ _ => .eat_other (fun k hk heq => ?_) ?_)
    · exact absurd (((opens_print he).append _).front hk) (by rw [heq]; decide)
    refine (e.readBack he).bind (fun k hk => hk ▸ rfl) fun e' he' => .expect rfl (.pure ?_)
    simp only [Stmt.bare, hu, hty', he', Stmt.asPrinted]
  | define name ty brace body =>
    obtain ⟨hrest, hbody⟩ := Bool.and_eq_true_iff.mp h
    refine reads_typed (TypeExpr.readable_of_printableAlone (Bool.and_eq_true_iff.mp hrest).2) (.weaken (by decide) _)
      fun u ty' hu hty' => .eat rfl (.peek fun u' hu' => .eat rfl ?_)
    refine (Stmt.reads_body body hbody u').bind_nil (fun _ _ => trivial) fun body' hbody' => ?_
    refine .eat_other (fun _ hk => hk.2) (.pure ?_)
    simp only [Stmt.bare, hu, hty', hu', hbody', Stmt.asPrinted]
  | external name ty =>
    have hty := TypeExpr.readable_of_printableAlone (Bool.and_eq_true_iff.mp h).2
    refine .call (.bump fun u hu => .bump fun _ _ => .peek fun u' hu' => ?_)
    rw [Token.kind_of_bare hu']
    refine .bump fun _ _ => (ty.reads hty).bind (fun k hk => hk ▸ .weaken (by decide) _) fun ty' hty' => .expect rfl (.pure ?_)
    simp only [Stmt.bare, hu, hty', Stmt.asPrinted]
  | record kind name fields =>
    have hfields := Stmt.reads_fields fields (Bool.and_eq_true_iff.mp h).2
    refine .call (.bump fun u hu => .bump fun _ _ => .peek fun u' hu' => ?_)
    rw [Token.kind_of_bare hu']
    cases kind <;> exact reads_record hfields hu rfl
  | enumeration name vs =>
    refine .call (.bump fun u hu => .bump fun _ _ => .peek fun u' hu' => ?_)
    rw [Token.kind_of_bare hu']
    exact reads_enumeration (Bool.and_eq_true_iff.mp h).2 hu rfl
  | _ => cases hs

/-- Every printable statement is read back from its text. -/
theorem Stmt.reads (s : Stmt) (h : s.printable = true) : s.ReadBy (whole .statement) Rests := by
  by_cases hdecl : s.isDeclaration = true
  · exact reads_statement_of_form (reads_form_declaration (declaration_begins hdecl h) (s.reads_declaration hdecl h))
  refine reads_statement_of_form ?_
  cases s with
  | block t body => exact (reads_block (Stmt.reads_body body h)).mono (fun _ _ => trivial) (fun _ h => h)
  | ifThen t c yes =>
    obtain ⟨hrest, hyes⟩ := Bool.and_eq_true_iff.mp h
    obtain ⟨hc, hbraced⟩ := Bool.and_eq_true_iff.mp hrest
    exact reads_form_keyword .ifWord (reads_ifThen hc hbraced (yes.reads_braced hbraced hyes))
  | ifElse t c yes no =>
    obtain ⟨hrest, hno⟩ := Bool.and_eq_true_iff.mp h
    obtain ⟨hrest, hyes⟩ := Bool.and_eq_true_iff.mp (Bool.and_eq_true_iff.mp hrest).1
    obtain ⟨hc, hbraced⟩ := Bool.and_eq_true_iff.mp hrest
    exact reads_form_keyword .ifWord (reads_ifElse hc hbraced (yes.reads_braced hbraced hyes) (no.reads hno))
  | «while» t c body =>
    obtain ⟨hrest, hbody⟩ := Bool.and_eq_true_iff.mp h
    obtain ⟨hc, hbraced⟩ := Bool.and_eq_true_iff.mp hrest
    exact reads_form_keyword .whileWord (reads_while hc hbraced (body.reads_braced hbraced hbody))
  | «return» t => exact reads_form_keyword .returnWord reads_return
  | returnWith t es => exact reads_form_keyword .returnWord (reads_returnWith h)
  | exit e t =>
    refine reads_form_keyword e.keyword ?_
    cases e with
    | leave => exact reads_exit .leave
    | again => exact reads_exit .again
  | use t path alias? => exact reads_form_keyword .useWord (reads_use h)
  | expr t e => exact reads_form_expression ((opens_print h).append _) (undeclared_expr t h) (reads_exprStmt h)
  | exprs t es =>
    obtain ⟨-, hes⟩ := Bool.and_eq_true_iff.mp h
    exact reads_form_expression ((opens_list hes).append _) (undeclared_list hes rfl rfl []) (reads_exprs_stmt h)
  | swap t targets values =>
    obtain ⟨-, htargets⟩ := Bool.and_eq_true_iff.mp (Bool.and_eq_true_iff.mp h).1
    exact reads_form_expression ((opens_list htargets).append _) (undeclared_list htargets rfl rfl _)
      ((reads_swap h).mono (fun _ hk => hk) (fun _ h => h.1))
  | declareMany start names types =>
    obtain ⟨hlen, hnames⟩ := Bool.and_eq_true_iff.mp (Bool.and_eq_true_iff.mp h).1
    match names, of_decide_eq_true hlen with
    | t :: t₂ :: names, _ => exact reads_form_many hnames (reads_declareMany h)
  | declareManyAs start names types values =>
    obtain ⟨hlen, hnames⟩ := Bool.and_eq_true_iff.mp (Bool.and_eq_true_iff.mp (Bool.and_eq_true_iff.mp h).1).1
    match names, of_decide_eq_true hlen with
    | t :: t₂ :: names, _ => exact reads_form_many hnames (reads_declareManyAs h)
  | declare | declareAs | define | external | record | enumeration => exact absurd rfl hdecl
  | _ => cases h

theorem Stmt.reads_body (ss : List Stmt) (h : Stmt.allPrintable ss = true) (start : Token) :
    Stmt.BodyRead ss (whole (.blockBody start)) := by
  refine .call ?_
  cases ss with
  | nil =>
    refine .peek fun u hu => ?_
    rw [Token.kind_of_bare hu]
    exact .bump fun _ _ => .pure rfl
  | cons s ss =>
    obtain ⟨hs, hss⟩ := Bool.and_eq_true_iff.mp h
    rw [Stmt.printAll, List.append_assoc]
    refine .peek_first (by simp) fun u hu => ?_
    have hk : startsStmt u.kind = true := by
      rw [Token.kind_of_bare hu, firstOf_append (begins_print hs).ne_nil]
      exact (begins_print hs).firstOf
    split
    next heq => rw [heq] at hk; cases hk
    next heq => rw [heq] at hk; cases hk
    refine ((s.reads hs).advancing (begins_print hs).ne_nil).bind (fun k hk => front_bodies hss hk) fun s' hs' => ?_
    refine (Stmt.reads_body ss hss start).bind_nil (fun _ hk => hk) fun ss' hss' => .pure ?_
    simp only [Stmt.bareAll, hs', hss', Stmt.eachAsPrinted]

theorem Stmt.reads_fields (ss : List Stmt) (h : Stmt.allFields ss = true) (name : Token) :
    Stmt.BodyRead ss (whole (.fields name)) := by
  refine .call ?_
  cases ss with
  | nil =>
    refine .peek fun u hu => ?_
    rw [Token.kind_of_bare hu]
    exact .bump fun _ _ => .pure rfl
  | cons s ss =>
    obtain ⟨hfield, hss⟩ := Bool.and_eq_true_iff.mp h
    obtain ⟨hdecl, hs⟩ := Bool.and_eq_true_iff.mp hfield
    rw [Stmt.printAll, List.append_assoc]
    obtain ⟨t, rest, hprint, hident⟩ := declaration_begins hdecl hs
    have hread := s.reads_declaration hdecl hs
    rw [Stmt.ReadBy, hprint] at hread
    rw [hprint]
    refine .peek fun u hu => ?_
    have hk : u.kind = .ident := (Token.kind_of_bare hu).trans hident
    rw [hk]
    unfold Rules.furtherFields
    rw [Token.isIdent, hk]
    refine .peekSecond fun u' hu' => ?_
    rw [show u'.isSymbol .colon = true from congrArg (· == _) (Token.kind_of_bare hu')]
    refine hread.bind (fun k hk => front_bodies (allPrintable_of_allFields hss) hk) fun s' hs' => .isRecovering ?_
    refine (Stmt.reads_fields ss hss name).bind_nil (fun _ hk => hk) fun ss' hss' => .pure ?_
    simp only [Stmt.bareAll, hs', hss', Stmt.eachAsPrinted]

end

/-! ## Items -/

theorem reads_item_declaration
    (hts : ∃ t rest, ts = t :: Symbol.colon.token :: rest ∧ t.kind = .ident) (h : Reads (whole .declaration) ts follow Q) :
    Reads whole.item ts follow Q := by
  obtain ⟨t, rest, rfl, hident⟩ := hts
  refine .peek fun u hu => ?_
  rw [(Token.kind_of_bare hu).trans hident]
  refine .peekSecond fun u' hu' => ?_
  rw [show u'.isSymbol .colon = true from congrArg (· == _) (Token.kind_of_bare hu')]
  exact h

theorem reads_item_many {t₂ : Token} {names more : List Token} (hnames : (t :: t₂ :: names).all Token.isName = true) 
    (h : Reads whole.manyDeclaration (printNames (t :: t₂ :: names) ++ Symbol.colon.token :: more) follow Q) :
    Reads whole.item (printNames (t :: t₂ :: names) ++ Symbol.colon.token :: more) follow Q := by
  refine .peek fun u hu => ?_
  rw [(Token.kind_of_bare hu).trans (kind_of_isName (Bool.and_eq_true_iff.mp hnames).1)]
  refine .peekSecond fun u' hu' => ?_
  rw [show u'.isSymbol .colon = false from congrArg (· == _) (Token.kind_of_bare hu'),
    show u'.isSymbol .comma = true from congrArg (· == _) (Token.kind_of_bare hu')]
  refine .get fun s us rest hus hs => ?_
  rw [hs, (declaresMany_of_bare hus rest).trans (declaresMany_declared hnames more _)]
  exact h

theorem targets_of_isItem {targets values : ExprList} (hs : (Stmt.swap t targets values).isItem = true)
    (hlen : 2 ≤ targets.items.length) : ∃ start a e es, targets = ⟨start, .atom a :: e :: es⟩ ∧ a.isIdent = true := by
  obtain ⟨start, items⟩ := targets
  match items, hlen with
  | first :: e :: es, _ =>
    cases first with
    | atom a => exact ⟨start, a, e, es, rfl, hs⟩
    | _ => cases hs

/-- Outside of functions a swap is the only expression. -/
theorem reads_item_swap {start a : Token} {e : Expr} {es : List Expr} {values : ExprList} (ha : a.isIdent = true)
    (h : (Stmt.swap t ⟨start, .atom a :: e :: es⟩ values).printable = true) :
    (Stmt.swap t ⟨start, .atom a :: e :: es⟩ values).ReadBy whole.item follow := by
  have hundeclared := undeclared_list (Bool.and_eq_true_iff.mp (Bool.and_eq_true_iff.mp h).1).2 (t := Symbol.assign.token)
    rfl rfl (values.print ++ [Symbol.semicolon.token])
  refine .peek fun u hu => ?_
  rw [(Token.kind_of_bare hu).trans (eq_of_beq ha)]
  refine .peekSecond fun u' hu' => ?_
  rw [show u'.isSymbol .colon = false from congrArg (· == _) (Token.kind_of_bare hu'),
    show u'.isSymbol .comma = true from congrArg (· == _) (Token.kind_of_bare hu')]
  refine .get fun s us rest hus hs => ?_
  rw [hs, (declaresMany_of_bare hus rest).trans (hundeclared.2 _)]
  refine (reads_swap h).bind_nil (fun _ hk => hk) ?_
  rintro s' ⟨hs', u, ts, vs, rfl⟩
  exact .pure hs'

theorem reads_item (hs : s.isItem = true) (h : s.printable = true) : s.ReadBy whole.item Rests := by
  by_cases hdecl : s.isDeclaration = true
  · exact reads_item_declaration (declaration_begins hdecl h) (s.reads_declaration hdecl h)
  cases s with
  | use t path alias? =>
    refine .peek fun u hu => ?_
    rw [Token.kind_of_bare hu]
    exact reads_use h
  | declareMany start names types =>
    obtain ⟨hlen, hnames⟩ := Bool.and_eq_true_iff.mp (Bool.and_eq_true_iff.mp h).1
    match names, of_decide_eq_true hlen with
    | t :: t₂ :: names, _ => exact reads_item_many hnames (reads_declareMany h)
  | declareManyAs start names types values =>
    obtain ⟨hlen, hnames⟩ := Bool.and_eq_true_iff.mp (Bool.and_eq_true_iff.mp (Bool.and_eq_true_iff.mp h).1).1
    match names, of_decide_eq_true hlen with
    | t :: t₂ :: names, _ => exact reads_item_many hnames (reads_declareManyAs h)
  | swap t targets values =>
    obtain ⟨hlen, -⟩ := Bool.and_eq_true_iff.mp (Bool.and_eq_true_iff.mp h).1
    obtain ⟨start, a, e, es, rfl, ha⟩ := targets_of_isItem hs (of_decide_eq_true hlen)
    exact reads_item_swap ha h
  | _ => exact absurd hs hdecl

/-- A state in which nothing has gone wrong so far and exactly the given text is left. -/
structure ParseState.Before (s : ParseState) (ts : List Token) : Prop where
  rest : s.rest.map Token.bare = ts
  read : ∀ u ∈ s.rest, u.kind.isError = false
  recovering : s.recovering = false
  stop : s.stop.kind = .eof

/-- The item is read back from its text. -/
structure Stmt.ReadBack (s : Stmt) : Prop where
  begins : Begins s.print
  item : s.ReadBy whole.item Rests

theorem Stmt.readBack (hs : s.isItem = true) (h : s.printable = true) : s.ReadBack where
  begins := begins_print h
  item := reads_item hs h

/-- Behind an item comes another one or the end of the text. -/
theorem rests_later {ss : List Stmt} (h : ∀ s ∈ ss, s.ReadBack) {us : List Token}
    (hus : us.map Token.bare = Stmt.printAll ss) {stop : Token} (hstop : stop.kind = .eof) : Rests (us.headD stop).kind := by
  cases ss with
  | nil =>
    obtain rfl : us = [] := List.map_eq_nil_iff.mp hus
    show Rests stop.kind
    rw [hstop]
    exact ⟨by decide, by decide⟩
  | cons s ss =>
    have hfront : front (Stmt.printAll (s :: ss)) (fun _ => True) ((us ++ []).headD stop).kind :=
      Reads.front_of_append hus trivial
    rw [List.append_nil] at hfront
    exact rests_of_startsStmt ((h s List.mem_cons_self).begins.front hfront)

/-- One turn of the loop over the items. -/
theorem run_items_next {s : ParseState} (hstop : s.stop.kind = .eof) :
    (whole .items).run s = if s.rest.length = 0 then ([], s) else
        let (x, s) := (advancing whole.itemOrSkip).run s
        let (xs, s) := (whole .items).run s
        (x :: xs, s) := by
  refine (Rules.whole_next .items hstop).trans ?_
  show (if s.rest.length = 0 then Pure.pure [] else _ : Rule (List Stmt)).run s = _
  split <;> rfl

theorem run_items (ss : List Stmt) (h : ∀ s ∈ ss, s.ReadBack) {s : ParseState} (hs : s.Before (Stmt.printAll ss)) :
    ∃ roots, (whole .items).run s = (roots, { s with rest := [] }) ∧ roots.map Stmt.bare = ss.map Stmt.asPrinted := by
  induction ss generalizing s with
  | nil =>
    have hrest : s.rest = [] := List.map_eq_nil_iff.mp hs.rest
    rw [run_items_next hs.stop, if_pos (by rw [hrest]; rfl), ← hrest]
    exact ⟨[], rfl, rfl⟩
  | cons x xs ih =>
    obtain ⟨hx, hxs⟩ := List.forall_mem_cons.mp h
    have hpos := hx.begins.length_pos
    obtain ⟨us, rest, hrest, hus, hlater⟩ := List.map_eq_append_iff.mp hs.rest
    have hread := (reads_unskipped hx.item).advancing hx.begins.ne_nil
    have herrors := List.forall_mem_append.mp (hrest ▸ hs.read)
    obtain ⟨x', hrun, hx'⟩ := hread s us rest hus herrors.1 hrest hs.recovering hs.stop (rests_later hxs hlater hs.stop)
    have hs' : ParseState.Before { s with rest } (Stmt.printAll xs) := ⟨hlater, herrors.2, hs.recovering, hs.stop⟩
    obtain ⟨roots, hroots, hbare⟩ := ih hxs hs'
    have hlen : s.rest.length ≠ 0 := by
      rw [← List.length_map, hs.rest, Stmt.printAll, List.length_append]
      omega
    rw [run_items_next hs.stop, if_neg hlen, show (advancing whole.itemOrSkip).run s = _ from hrun]
    refine ⟨x' :: roots, ?_, by rw [List.map_cons, List.map_cons, hx', hbare]⟩
    dsimp only
    rw [hroots]

/-! ## Spelling -/

/-- The tokens of a text can be read back one by one. None of them has a place yet. -/
def Spelled (ts : List Token) : Prop := ∀ t ∈ ts, t.spelled = true ∧ t.bare = t

@[simp] theorem Symbol.spelled_token (s : Symbol) : s.token.spelled = true := by cases s <;> decide

@[simp] theorem Keyword.spelled_token (k : Keyword) : k.token.spelled = true := by cases k <;> decide

@[simp] theorem Symbol.bare_token (s : Symbol) : s.token.bare = s.token := rfl

@[simp] theorem Keyword.bare_token (k : Keyword) : k.token.bare = k.token := rfl

@[simp] theorem Token.spelled_bare (t : Token) : t.bare.spelled = t.spelled := rfl

@[simp] theorem spelled_nil : Spelled [] := List.forall_mem_nil _

@[simp] theorem spelled_cons : Spelled (t :: ts) ↔ (t.spelled = true ∧ t.bare = t) ∧ Spelled ts :=
  List.forall_mem_cons

@[simp] theorem spelled_append {ts' : List Token} : Spelled (ts ++ ts') ↔ Spelled ts ∧ Spelled ts' :=
  List.forall_mem_append

theorem Spelled.separated {s : Symbol} {tss : List (List Token)} (h : ∀ ts ∈ tss, Spelled ts) :
    Spelled (Wordstack.separated s tss) := by
  match tss with
  | [] => exact spelled_nil
  | [ts] => exact h ts List.mem_cons_self
  | ts :: ts' :: tss =>
    obtain ⟨hts, hrest⟩ := List.forall_mem_cons.mp h
    simp only [Wordstack.separated, spelled_append, spelled_cons, Symbol.spelled_token, Symbol.bare_token, true_and]
    exact ⟨hts, .separated hrest⟩

theorem Spelled.wrap {e : Expr} (h : Spelled ts) : Spelled (e.wrap ts) := by
  cases e with
  | atom t => exact h
  | _ => simpa [Expr.wrap] using h

theorem spelled_of_isName (h : t.isName = true) : t.spelled = true := (Bool.and_eq_true_iff.mp h).1

mutual

theorem Expr.spelled_print (e : Expr) (h : e.printable = true) : Spelled e.print := by
  cases e with
  | atom t => simpa [Expr.print] using (Bool.and_eq_true_iff.mp h).1
  | unary op t e => simpa [Expr.print] using (e.spelled_print h).wrap
  | binary op t l r =>
    obtain ⟨hl, hr⟩ := Bool.and_eq_true_iff.mp h
    simpa [Expr.print] using ⟨(l.spelled_print hl).wrap, (r.spelled_print hr).wrap⟩
  | call t f args =>
    obtain ⟨hf, hargs⟩ := Bool.and_eq_true_iff.mp h
    simpa [Expr.print] using ⟨(f.spelled_print hf).wrap, .separated (Expr.spelled_each args hargs)⟩
  | index t b args =>
    obtain ⟨hb, hargs⟩ := Bool.and_eq_true_iff.mp h
    simpa [Expr.print] using
      ⟨(b.spelled_print (Bool.and_eq_true_iff.mp hb).1).wrap, .separated (Expr.spelled_each args hargs)⟩
  | cast t ty e =>
    obtain ⟨hty, he⟩ := Bool.and_eq_true_iff.mp h
    simpa [Expr.print] using ⟨ty.spelled_print (ty.readable_of_printable hty).1.1, (e.spelled_print he).wrap⟩
  | _ => cases h

theorem Expr.spelled_each (es : List Expr) (h : Expr.allPrintable es = true) : ∀ ts ∈ Expr.printEach es, Spelled ts := by
  cases es with
  | nil => exact List.forall_mem_nil _
  | cons e es =>
    obtain ⟨he, hes⟩ := Bool.and_eq_true_iff.mp h
    exact List.forall_mem_cons.mpr ⟨(e.spelled_print he).wrap, Expr.spelled_each es hes⟩

theorem TypeExpr.spelled_print (ty : TypeExpr) (h : ty.complete = true) : Spelled ty.print := by
  cases ty with
  | name t => simpa [TypeExpr.print] using (Bool.and_eq_true_iff.mp h).1
  | pointer t ty | openArray t ty => simpa [TypeExpr.print] using ty.spelled_print h
  | array t n ty =>
    obtain ⟨hn, hty⟩ := Bool.and_eq_true_iff.mp h
    simpa [TypeExpr.print] using ⟨n.spelled_print hn, ty.spelled_print hty⟩
  | function t ps => simpa [TypeExpr.print] using Spelled.separated (Param.spelled_each ps h)
  | functionTo t ps start rs =>
    obtain ⟨hps, hrs⟩ := Bool.and_eq_true_iff.mp h
    simpa [TypeExpr.print] using
      ⟨.separated (Param.spelled_each ps (Bool.and_eq_true_iff.mp hps).1), .separated (TypeExpr.spelled_each rs hrs)⟩
  | missing t => cases h

theorem TypeExpr.spelled_each (tys : List TypeExpr) (h : TypeExpr.allComplete tys = true) :
    ∀ ts ∈ TypeExpr.printEach tys, Spelled ts := by
  cases tys with
  | nil => exact List.forall_mem_nil _
  | cons ty tys =>
    obtain ⟨hty, htys⟩ := Bool.and_eq_true_iff.mp h
    exact List.forall_mem_cons.mpr ⟨ty.spelled_print hty, TypeExpr.spelled_each tys htys⟩

theorem Param.spelled_print (p : Param) (h : p.complete = true) : Spelled p.print := by
  cases p with
  | named t ty =>
    obtain ⟨ht, hty⟩ := Bool.and_eq_true_iff.mp h
    simpa [Param.print] using ⟨spelled_of_isName ht, ty.spelled_print hty⟩
  | missing t => cases h

theorem Param.spelled_each (ps : List Param) (h : Param.allComplete ps = true) : ∀ ts ∈ Param.printEach ps, Spelled ts := by
  cases ps with
  | nil => exact List.forall_mem_nil _
  | cons p ps =>
    obtain ⟨hp, hps⟩ := Bool.and_eq_true_iff.mp h
    exact List.forall_mem_cons.mpr ⟨p.spelled_print hp, Param.spelled_each ps hps⟩

end

theorem TypeExpr.spelled_alone (ty : TypeExpr) (h : ty.printableAlone = true) : Spelled ty.print :=
  ty.spelled_print (TypeExpr.readable_of_printableAlone h).1

theorem ExprList.spelled_print (l : ExprList) (h : l.printable = true) : Spelled l.print :=
  .separated (Expr.spelled_each l.items (Bool.and_eq_true_iff.mp h).2)

theorem TypeList.spelled_print (l : TypeList) (h : l.printable = true) : Spelled l.print :=
  .separated (TypeExpr.spelled_each l.items (TypeExpr.allReadable_of_printable _ (Bool.and_eq_true_iff.mp h).2).1)

theorem Name.spelled_print (name : Name) (h : name.printable = true) : Spelled name.print := by
  cases name with
  | ident t => simpa [Name.print] using spelled_of_isName h
  | missing t => cases h

theorem spelled_separated_names {s : Symbol} {names : List Name} (h : names.all Name.printable = true) :
    Spelled (separated s (names.map Name.print)) :=
  .separated (List.forall_mem_map.mpr fun name hname => name.spelled_print (List.all_eq_true.mp h name hname))

theorem spelled_printNames (h : ts.all Token.isName = true) : Spelled (printNames ts) :=
  .separated (List.forall_mem_map.mpr fun t ht => by simpa using spelled_of_isName (List.all_eq_true.mp h t ht))

mutual

theorem Stmt.spelled_print (s : Stmt) (h : s.printable = true) : Spelled s.print := by
  cases s with
  | block t body => simpa [Stmt.print] using Stmt.spelled_all body h
  | ifThen t c yes =>
    obtain ⟨hrest, hyes⟩ := Bool.and_eq_true_iff.mp h
    simpa [Stmt.print] using ⟨c.spelled_print (Bool.and_eq_true_iff.mp hrest).1, yes.spelled_print hyes⟩
  | ifElse t c yes no =>
    obtain ⟨hrest, hno⟩ := Bool.and_eq_true_iff.mp h
    obtain ⟨hrest, hyes⟩ := Bool.and_eq_true_iff.mp (Bool.and_eq_true_iff.mp hrest).1
    simpa [Stmt.print] using
      ⟨c.spelled_print (Bool.and_eq_true_iff.mp hrest).1, yes.spelled_print hyes, no.spelled_print hno⟩
  | «while» t c body =>
    obtain ⟨hrest, hbody⟩ := Bool.and_eq_true_iff.mp h
    simpa [Stmt.print] using ⟨c.spelled_print (Bool.and_eq_true_iff.mp hrest).1, body.spelled_print hbody⟩
  | «return» t => simp [Stmt.print]
  | returnWith t es => simpa [Stmt.print] using es.spelled_print h
  | exit e t => simp [Stmt.print]
  | expr t e => simpa [Stmt.print] using e.spelled_print h
  | exprs t es => simpa [Stmt.print] using es.spelled_print (Bool.and_eq_true_iff.mp h).2
  | swap t targets values =>
    obtain ⟨htargets, hvalues⟩ := Bool.and_eq_true_iff.mp h
    simpa [Stmt.print] using
      ⟨targets.spelled_print (Bool.and_eq_true_iff.mp htargets).2, values.spelled_print hvalues⟩
  | declare name ty =>
    obtain ⟨hname, hty⟩ := Bool.and_eq_true_iff.mp h
    simpa [Stmt.print] using ⟨spelled_of_isName hname, ty.spelled_alone hty⟩
  | declareAs name ty e =>
    obtain ⟨hrest, he⟩ := Bool.and_eq_true_iff.mp h
    obtain ⟨hname, hty⟩ := Bool.and_eq_true_iff.mp hrest
    simpa [Stmt.print] using ⟨spelled_of_isName hname, ty.spelled_alone hty, e.spelled_print he⟩
  | define name ty brace body =>
    obtain ⟨hrest, hbody⟩ := Bool.and_eq_true_iff.mp h
    obtain ⟨hname, hty⟩ := Bool.and_eq_true_iff.mp hrest
    simpa [Stmt.print] using ⟨spelled_of_isName hname, ty.spelled_alone hty, Stmt.spelled_all body hbody⟩
  | external name ty =>
    obtain ⟨hname, hty⟩ := Bool.and_eq_true_iff.mp h
    simpa [Stmt.print] using ⟨spelled_of_isName hname, ty.spelled_alone hty⟩
  | declareMany start names types =>
    obtain ⟨hrest, htypes⟩ := Bool.and_eq_true_iff.mp h
    simpa [Stmt.print] using ⟨spelled_printNames (Bool.and_eq_true_iff.mp hrest).2, types.spelled_print htypes⟩
  | declareManyAs start names types values =>
    obtain ⟨hrest, hvalues⟩ := Bool.and_eq_true_iff.mp h
    obtain ⟨hrest, htypes⟩ := Bool.and_eq_true_iff.mp hrest
    simpa [Stmt.print] using
      ⟨spelled_printNames (Bool.and_eq_true_iff.mp hrest).2, types.spelled_print htypes, values.spelled_print hvalues⟩
  | record kind name fields =>
    obtain ⟨hname, hfields⟩ := Bool.and_eq_true_iff.mp h
    simpa [Stmt.print] using ⟨spelled_of_isName hname, Stmt.spelled_all fields (allPrintable_of_allFields hfields)⟩
  | enumeration name variants =>
    obtain ⟨hname, hvariants⟩ := Bool.and_eq_true_iff.mp h
    simpa [Stmt.print] using ⟨spelled_of_isName hname, spelled_separated_names hvariants⟩
  | use t path alias? =>
    obtain ⟨hpath, halias⟩ := Bool.and_eq_true_iff.mp h
    have hnames := spelled_separated_names (s := .dot) (Bool.and_eq_true_iff.mp hpath).2
    cases alias? with
    | none => simpa [Stmt.print] using hnames
    | some name => simpa [Stmt.print] using ⟨hnames, name.spelled_print halias⟩
  | _ => cases h

theorem Stmt.spelled_all (ss : List Stmt) (h : Stmt.allPrintable ss = true) : Spelled (Stmt.printAll ss) := by
  cases ss with
  | nil => exact spelled_nil
  | cons s ss =>
    obtain ⟨hs, hss⟩ := Bool.and_eq_true_iff.mp h
    exact spelled_append.mpr ⟨s.spelled_print hs, Stmt.spelled_all ss hss⟩

end

theorem spells_spaced (h : Spelled ts) : Spells (String.intercalate " " (ts.map (·.text))).toList ts := by
  induction ts with
  | nil => exact .nil
  | cons t ts ih =>
    obtain ⟨ht, hts⟩ := spelled_cons.mp h
    cases ts with
    | nil => simpa using Spells.token ht.1 .nil .nil
    | cons t₂ ts =>
      rw [List.map_cons, List.map_cons, String.intercalate_cons_cons]
      simp only [String.toList_append, List.append_assoc]
      exact .token ht.1 (.cons rfl) (.blank (ih hts))

/-! ## Whole programs -/

theorem isError_of_spelled (h : t.spelled = true) : t.kind.isError = false := by
  unfold Token.spelled at h
  split at h
  · cases h
  · simpa using (Bool.and_eq_true_iff.mp h).2

theorem Spelled.map_bare (h : Spelled ts) : ts.map Token.bare = ts := by
  rw [List.map_congr_left fun t ht => (h t ht).2, List.map_id']

theorem spelled_items (items : List Stmt) (h : ∀ s ∈ items, s.isItem = true ∧ s.printable = true) :
    Spelled (Stmt.printAll items) := by
  induction items with
  | nil => exact spelled_nil
  | cons s ss ih =>
    obtain ⟨hs, hss⟩ := List.forall_mem_cons.mp h
    exact spelled_append.mpr ⟨s.spelled_print hs.2, ih hss⟩

/-- Where the tokens of a program stand in its text does not matter. -/
theorem parse_of_readBack {source : String} (items : List Stmt) (h : ∀ s ∈ items, s.ReadBack)
    (hspelled : Spelled (Stmt.printAll items)) (hsource : Spells source.toList (Stmt.printAll items)) :
    (parse source).errors = [] ∧ (parse source).roots.map Stmt.bare = items.map Stmt.asPrinted := by
  have htokens : (scan source).tokens.map Token.bare = Stmt.printAll items :=
    (Cursor.tokens_of_spells hsource _).trans hspelled.map_bare
  have hstop : (scan source).stop.kind = .eof := (Cursor.formed_tokens _).2
  have hbefore : (ParseState.start (scan source)).Before (Stmt.printAll items) := by
    refine ⟨htokens, fun u hu => ?_, rfl, hstop⟩
    have hmem : u.bare ∈ Stmt.printAll items := htokens ▸ List.mem_map_of_mem hu
    exact isError_of_spelled (hspelled u.bare hmem).1
  obtain ⟨roots, hrun, hroots⟩ := run_items items h hbefore
  have hparse : parse source = ⟨roots, []⟩ := by
    refine (Rules.parse_eq hstop).trans ?_
    rw [show whole .items _ = _ from hrun]
    rfl
  rw [hparse]
  exact ⟨rfl, hroots⟩

theorem parse_of_spells {source : String} (items : List Stmt) (h : ∀ s ∈ items, s.isItem = true ∧ s.printable = true)
    (hsource : Spells source.toList (Stmt.printAll items)) :
    (parse source).errors = [] ∧ (parse source).roots.map Stmt.bare = items.map Stmt.asPrinted :=
  parse_of_readBack items (fun s hs => Stmt.readBack (h s hs).1 (h s hs).2) (spelled_items items h) hsource

/-- Every program that can be printed is read back from its canonical text: nothing is reported, and the trees are
the same, each with the tokens of the text. -/
theorem parse_text (items : List Stmt) (h : ∀ s ∈ items, s.isItem = true ∧ s.printable = true) :
    (parse (Stmt.text items)).errors = [] ∧
      (parse (Stmt.text items)).roots.map Stmt.bare = items.map Stmt.asPrinted :=
  parse_of_spells items h (spells_spaced (spelled_items items h))

/-- A function that swaps its parameter with a new variable behind a condition, and the use of another module. -/
def swapping : List Stmt :=
  -- Start tokens come from the text.
  let any := Token.ofName "any"
  let a := Expr.atom (Token.ofName "a")
  let b := Expr.atom (Token.ofName "b")
  let word := TypeExpr.name Primitive.u64.token
  let zero := Expr.atom ⟨.integer, "0", default, .unsigned 0⟩
  let swap := Stmt.swap any ⟨any, [a, b]⟩ ⟨any, [.binary .sub any b zero, a]⟩
  let body := [.declareAs (Token.ofName "b") word (.unary .neg any a),
    .ifElse any (.binary .equals any a zero) (.block any [swap]) (.block any []),
    .returnWith any ⟨any, [.call any (.atom (Token.ofName "f")) [b]]⟩]
  [.use any [.ident (Token.ofName "m"), .ident (Token.ofName "n")] (some (.ident (Token.ofName "k"))),
    .define (Token.ofName "f") (.functionTo any [.named (Token.ofName "a") word] any [word]) any body]

theorem parse_text_swapping :
    (∀ s ∈ swapping, s.isItem = true ∧ s.printable = true) ∧
      (parse (Stmt.text swapping)).errors = [] ∧
      (parse (Stmt.text swapping)).roots.map Stmt.bare = swapping.map Stmt.asPrinted :=
  have h : ∀ s ∈ swapping, s.isItem = true ∧ s.printable = true := by decide
  ⟨h, parse_text swapping h⟩

end Wordstack
