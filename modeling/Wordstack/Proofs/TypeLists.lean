/-
Which types are read back. The results of a function are a list without an end mark, and the
commas of parameters, results and further types look alike, so a comma behind a type that ends
in results goes on with these. A type is therefore read back from its text exactly if it is
delimited: only the last member of each of its lists ends in results.

That a delimited type is read back is `TypeExpr.reads`. The other direction holds because the
rules make no other types.
-/
import Wordstack.Proofs.Recording
import Wordstack.Proofs.RoundTrip

namespace Wordstack

open Rule

variable {t : Token} {ts : List Token} {ty : TypeExpr}

/-! ## Delimited trees -/

theorem TypeExpr.endsInResults_asPrinted (ty : TypeExpr) : ty.asPrinted.endsInResults = ty.endsInResults := by
  cases ty with
  | pointer t ty | array t n ty | openArray t ty => exact ty.endsInResults_asPrinted
  | _ => rfl

theorem Param.endsInResults_asPrinted (p : Param) : p.asPrinted.endsInResults = p.endsInResults := by
  cases p with
  | named t ty => exact ty.endsInResults_asPrinted
  | missing t => rfl

theorem TypeExpr.isEmpty_eachAsPrinted (tys : List TypeExpr) : (TypeExpr.eachAsPrinted tys).isEmpty = tys.isEmpty := by
  cases tys <;> rfl

theorem Param.isEmpty_eachAsPrinted (ps : List Param) : (Param.eachAsPrinted ps).isEmpty = ps.isEmpty := by
  cases ps <;> rfl

mutual

theorem TypeExpr.delimited_asPrinted (ty : TypeExpr) : ty.asPrinted.delimited = ty.delimited := by
  cases ty with
  | pointer t ty | array t n ty | openArray t ty => exact ty.delimited_asPrinted
  | function t ps => exact Param.allDelimited_eachAsPrinted ps
  | functionTo t ps start rs =>
    simp only [TypeExpr.asPrinted, TypeExpr.delimited, Param.allDelimited_eachAsPrinted ps,
      TypeExpr.allDelimited_eachAsPrinted rs]
  | _ => rfl

theorem TypeExpr.allDelimited_eachAsPrinted (tys : List TypeExpr) :
    TypeExpr.allDelimited (TypeExpr.eachAsPrinted tys) = TypeExpr.allDelimited tys := by
  cases tys with
  | nil => rfl
  | cons ty tys =>
    simp only [TypeExpr.eachAsPrinted, TypeExpr.allDelimited, ty.delimited_asPrinted, ty.endsInResults_asPrinted,
      TypeExpr.isEmpty_eachAsPrinted, TypeExpr.allDelimited_eachAsPrinted tys]

theorem Param.delimited_asPrinted (p : Param) : p.asPrinted.delimited = p.delimited := by
  cases p with
  | named t ty => exact ty.delimited_asPrinted
  | missing t => rfl

theorem Param.allDelimited_eachAsPrinted (ps : List Param) :
    Param.allDelimited (Param.eachAsPrinted ps) = Param.allDelimited ps := by
  cases ps with
  | nil => rfl
  | cons p ps =>
    simp only [Param.eachAsPrinted, Param.allDelimited, p.delimited_asPrinted, p.endsInResults_asPrinted,
      Param.isEmpty_eachAsPrinted, Param.allDelimited_eachAsPrinted ps]

end

/-! ## What the rules make of types -/

/-- No list of types goes on here. -/
def NoComma (ts : List Token) : Prop := ∀ t : Token, t.Heads ts → t.kind ≠ .symbol .comma

/-- A name, a colon and what is no word of its own. -/
def DeclaresTyped (ts : List Token) : Prop :=
  ∃ name colon first more, ts = name :: colon :: first :: more ∧ name.kind = .ident ∧ colon.kind = .symbol .colon ∧
    ∀ k, first.kind ≠ .keyword k

/-- The type of a declared name is delimited. -/
def Stmt.TypeDelimited : Stmt → Prop
  | .declare _ ty | .declareAs _ ty _ | .define _ ty _ _ => ty.bare.delimited = true
  | _ => True

/-- What a call makes of the types in a text without errors. -/
def Call.Delimits {α : Type} : Call α → List Token → α → List Token → Prop
  | .typeExpr => fun _ ty ts' => ty.bare.delimited = true ∧ (ty.bare.endsInResults = true → NoComma ts')
  | .types => fun _ tys ts' => TypeExpr.allDelimited (TypeExpr.bareAll tys) = true ∧ NoComma ts'
  | .parameter => fun _ p ts' => p.bare.delimited = true ∧ (p.bare.endsInResults = true → NoComma ts')
  | .parameters _ | .parameterList => fun _ ps _ => Param.allDelimited (Param.bareAll ps) = true
  | .declaration => fun ts s _ => DeclaresTyped ts → s.TypeDelimited
  | .items => fun ts ss _ => DeclaresTyped ts → ∀ s ∈ ss.head?, s.TypeDelimited
  | _ => fun _ _ _ => True

theorem noComma_of_heads (ht : t.Heads ts) (hk : (t.kind == .symbol .comma) = false) : NoComma ts := by
  intro u hu
  rw [hu.kind_eq ht]
  exact beq_eq_false_iff_ne.mp hk

theorem endsInResults_of_comma {results : Bool} (ht : t.Heads ts)
    (hk : (t.kind == .symbol .comma) = true) (h : results = true → NoComma ts) : results = false :=
  Bool.eq_false_iff.mpr fun hends => h hends t ht (eq_of_beq hk)

theorem DeclaresTyped.of_heads (h : DeclaresTyped ts) (ht : t.Heads ts.tail.tail) : ∀ k, t.kind ≠ .keyword k := by
  obtain ⟨name, colon, first, more, rfl, -, -, hfirst⟩ := h
  rwa [ht.kind_eq (.inl rfl : first.Heads (first :: more))]

namespace Rules

variable {text : List Token} {r : Rules} (h : ∀ {α : Type} (c : Call α), Relates text (r c) c.Delimits)
include h

theorem delimits_typeExpr : Relates text (r.next .typeExpr) (Call.Delimits .typeExpr) := by
  refine Relates.peek.bind fun t => ?_
  split
  · refine Relates.bump.bind fun _ => (h .typeExpr).bind fun ty => .pure ?_
    rintro ts' _ hty _ - _ -
    exact hty
  · refine Relates.bump.bind fun _ => (Relates.check _).bind fun b => ?_
    cases b with
    | true =>
      refine (Relates.expect _).bind fun b => ?_
      cases b with
      | true =>
        refine (h .typeExpr).bind fun ty => .pure ?_
        rintro ts' _ hty _ - _ - _ - _ -
        exact hty
      | false => exact .pure fun _ _ hb => nomatch hb.1
    | false =>
      refine (h (.expr 0)).bind fun length => (Relates.expect _).bind fun b => ?_
      cases b with
      | true =>
        refine (h .typeExpr).bind fun ty => .pure ?_
        rintro ts' _ hty _ - _ - _ - _ - _ -
        exact hty
      | false => exact .pure fun _ _ hb => nomatch hb.1
  · exact Relates.bump.bind fun _ => .pure fun _ _ _ _ _ => ⟨rfl, nofun⟩
  · exact Relates.bump.bind fun _ => .pure fun _ _ _ _ _ => ⟨rfl, nofun⟩
  · refine Relates.bump.bind fun _ => (h (.parameters t)).bind fun ps => Relates.isRecovering.bind fun b => ?_
    cases b with
    | true => exact .pure fun _ _ hb => nomatch hb.2
    | false =>
      refine (Relates.eat _).bind fun b => ?_
      cases b with
      | true =>
        refine Relates.peek.bind fun start => (h .types).bind fun rs => .pure ?_
        rintro ts' _ ⟨hrs, hcomma⟩ _ - _ - _ - _ hps _ - _ -
        exact ⟨Bool.and_eq_true_iff.mpr ⟨hps, hrs⟩, fun _ => hcomma⟩
      | false =>
        refine .pure ?_
        rintro ts' _ - _ - _ hps _ - _ -
        exact ⟨hps, nofun⟩
  · exact .missingType

theorem delimits_types : Relates text (r.next .types) (Call.Delimits .types) := by
  refine (h .typeExpr).bind fun ty => Relates.isRecovering.bind fun b => ?_
  cases b with
  | true => exact .pure fun _ _ hb => nomatch hb.2
  | false =>
    refine (Relates.eat _).bind fun b => ?_
    cases b with
    | true =>
      refine (h .types).bind fun tys => .pure ?_
      rintro ts' _ ⟨htys, hcomma⟩ _ ⟨⟨t, ht, hk⟩, -⟩ _ ⟨rfl, -⟩ _ ⟨hty, hends⟩
      refine ⟨?_, hcomma⟩
      simp [TypeExpr.bareAll, TypeExpr.allDelimited, hty, htys, endsInResults_of_comma ht hk hends]
    | false =>
      refine .pure ?_
      rintro ts' _ ⟨⟨t, ht, hk⟩, rfl⟩ _ ⟨rfl, -⟩ _ ⟨hty, -⟩
      exact ⟨by simp [TypeExpr.bareAll, TypeExpr.allDelimited, hty], noComma_of_heads ht hk⟩

theorem delimits_parameter : Relates text (r.next .parameter) (Call.Delimits .parameter) := by
  refine (Relates.expect? _).bind fun t? => ?_
  cases t? with
  | none => exact Relates.peek.bind fun _ => .pure fun _ _ _ _ ⟨_, ht, _⟩ => nomatch ht
  | some name =>
    refine (Relates.expect _).bind fun b => ?_
    cases b with
    | true =>
      refine (h .typeExpr).bind fun ty => .pure ?_
      rintro ts' _ hty _ - _ -
      exact hty
    | false => exact .pure fun _ _ hb => nomatch hb.1

theorem delimits_parameterList : Relates text (r.next .parameterList) (Call.Delimits .parameterList) := by
  refine (h .parameter).bind fun p => Relates.isRecovering.bind fun b => ?_
  cases b with
  | true => exact .pure fun _ _ hb => nomatch hb.2
  | false =>
    refine (Relates.eat _).bind fun b => ?_
    cases b with
    | true =>
      refine (h .parameterList).bind fun ps => .pure ?_
      rintro ts' _ hps _ ⟨⟨t, ht, hk⟩, -⟩ _ ⟨rfl, -⟩ _ ⟨hp, hends⟩
      have hps : Param.allDelimited (Param.bareAll ps) = true := hps
      show Param.allDelimited (Param.bareAll (p :: ps)) = true
      simp [Param.bareAll, Param.allDelimited, hp, hps, endsInResults_of_comma ht hk hends]
    | false =>
      refine .pure ?_
      rintro ts' _ - _ - _ ⟨hp, -⟩
      show Param.allDelimited (Param.bareAll [p]) = true
      simp [Param.bareAll, Param.allDelimited, hp]

theorem delimits_parameters (start : Token) : Relates text (r.next (.parameters start)) (Call.Delimits (.parameters start)) := by
  refine (Relates.check _).bind fun b => ?_
  cases b with
  | true =>
    refine (Relates.expect _).bind fun b => ?_
    cases b with
    | true => exact .pure fun _ _ _ _ _ => rfl
    | false => exact (Relates.skipUntil _).bind fun _ => .pure fun _ _ _ _ hb => nomatch hb.1
  | false =>
    refine (h .parameterList).bind fun ps => Relates.isRecovering.bind fun b => ?_
    cases b with
    | true => exact (Relates.skipUntil _).bind fun _ => .pure fun _ _ _ _ hb => nomatch hb.2
    | false =>
      refine (Relates.expect _).bind fun b => ?_
      cases b with
      | true => exact .pure fun _ _ _ _ _ _ hps _ _ => hps
      | false => exact (Relates.skipUntil _).bind fun _ => .pure fun _ _ _ _ hb => nomatch hb.1

theorem delimits_typedDeclaration (name : Token) : Relates text (r.typedDeclaration name) fun _ s _ => s.TypeDelimited := by
  refine (h .typeExpr).bind fun ty => Relates.isRecovering.bind fun b => ?_
  cases b with
  | true => exact .pure fun _ _ hb => nomatch hb.2
  | false =>
    refine (Relates.eat _).bind fun b => ?_
    cases b with
    | true =>
      refine Relates.peek.bind fun t => (Relates.eat _).bind fun b => ?_
      cases b with
      | true =>
        refine (h (.blockBody t)).bind fun body => (Relates.eat _).bind fun _ => .pure ?_
        rintro _ _ - _ - _ - _ - _ - _ - _ ⟨hty, -⟩
        exact hty
      | false =>
        refine (h (.expr 0)).bind fun value => (Relates.expect _).bind fun _ => .pure ?_
        rintro _ _ - _ - _ - _ - _ - _ - _ ⟨hty, -⟩
        exact hty
    | false =>
      refine (Relates.expect _).bind fun _ => .pure ?_
      rintro _ _ - _ - _ - _ ⟨hty, -⟩
      exact hty

theorem delimits_declaration (hr : r.Record text) : Relates text (r.next .declaration) (Call.Delimits .declaration) := by
  refine Relates.bump.bind fun name => Relates.bump.bind fun _ => Relates.peek.bind fun t => ?_
  split
  next hk =>
    refine (h (.record _ _)).mono fun _ _ _ _ => ?_
    rintro _ ⟨rfl, ht⟩ _ ⟨-, rfl⟩ _ ⟨-, rfl⟩ hts
    exact absurd hk (hts.of_heads ht _)
  next hk =>
    refine (h (.record _ _)).mono fun _ _ _ _ => ?_
    rintro _ ⟨rfl, ht⟩ _ ⟨-, rfl⟩ _ ⟨-, rfl⟩ hts
    exact absurd hk (hts.of_heads ht _)
  next hk =>
    refine (hr.enumeration name).mono fun _ _ _ _ => ?_
    rintro _ ⟨rfl, ht⟩ _ ⟨-, rfl⟩ _ ⟨-, rfl⟩ hts
    exact absurd hk (hts.of_heads ht _)
  · exact Relates.bump.bind fun _ => (h .typeExpr).bind fun _ => (Relates.expect _).bind fun _ => .pure
      fun _ _ _ _ _ _ _ _ _ _ _ _ _ _ => trivial
  · exact (delimits_typedDeclaration h name).mono fun _ _ _ hs _ _ _ _ _ _ _ => hs

omit h in
theorem item_eq_declaration {s : ParseState} (hs : DeclaresTyped s.rest) : r.item s = r .declaration s := by
  obtain ⟨name, colon, first, more, hrest, hname, hcolon, -⟩ := hs
  have hpeek : peek s = (name, s) := congrArg (fun ts => (List.headD ts s.stop, s)) hrest
  have hsecond : peekSecond s = (colon, s) := congrArg (fun ts => (List.headD (List.tail ts) s.stop, s)) hrest
  simp only [item, bind, StateT.bind, hpeek, hname, hsecond, Token.isSymbol, hcolon, beq_self_eq_true, if_true]

theorem delimits_items (hr : r.Record text) : Relates text (r.next .items) (Call.Delimits .items) := by
  have hitem : Relates text r.item fun ts s _ => DeclaresTyped ts → s.TypeDelimited := by
    refine ⟨hr.item.inv, fun s hs hc => ⟨(hr.item.clean s hs hc).1, fun hts => ?_⟩⟩
    rw [item_eq_declaration hts] at hc ⊢
    exact ((h .declaration).clean s hs hc).2 hts
  refine Relates.left.bind fun k => ?_
  split
  · exact .pure fun _ _ _ _ _ hs => nomatch hs
  · have hskip : Relates text r.itemOrSkip fun ts s _ => DeclaresTyped ts → s.TypeDelimited := by
      refine hitem.bind fun s => Relates.isRecovering.bind fun b => (Relates.skipIf b).mono ?_
      rintro _ s' _ hs' _ ⟨rfl, rfl⟩ _ hs
      rw [(hs' rfl).1]
      exact hs
    refine (hskip.advancing (fun _ _ _ hs _ => hs) fun _ _ _ hs _ => hs).bind fun s => (h .items).bind fun rest => .pure ?_
    rintro _ _ - _ hs _ ⟨rfl, -⟩ hts x hx
    cases hx
    exact hs hts

end Rules

theorem Rules.whole_delimits {text : List Token} {α : Type} (c : Call α) : Relates text (whole c) c.Delimits := by
  refine relates_whole (fun r hr h {β} c => ?_) c
  have hother : Relates text (r.next c) fun _ _ _ => True := (hr.next c).mono fun _ _ _ _ => trivial
  cases c with
  | typeExpr => exact delimits_typeExpr h
  | types => exact delimits_types h
  | parameter => exact delimits_parameter h
  | parameters start => exact delimits_parameters h start
  | parameterList => exact delimits_parameterList h
  | declaration => exact delimits_declaration h hr
  | items => exact delimits_items h hr
  | _ => exact hother

/-! ## Declarations -/

/-- The declaration of a name is read back if its type is. -/
theorem readBack_declare {name : Token} (hname : name.isName = true) (hty : ty.Readable) :
    (Stmt.declare name ty).ReadBack where
  begins := begins_name hname _
  item := reads_item_declaration ⟨_, _, rfl, kind_of_isName hname⟩ (reads_declare hty)

theorem spelled_declare {name : Token} (hname : name.isName = true) (hty : ty.complete = true) :
    Spelled (Stmt.declare name ty).print := by
  simpa [Stmt.print] using ⟨spelled_of_isName hname, ty.spelled_print hty⟩

/-- The tokens of a declaration, wherever they stand, start as one does. -/
theorem declaresTyped_of_bare {name : Token} (hname : name.isName = true) (hty : ty.complete = true)
    (hts : ts.map Token.bare = (Stmt.declare name ty).print) : DeclaresTyped ts := by
  obtain ⟨first, more, hprint, hfirst⟩ := type_begins hty
  rw [Stmt.print, hprint] at hts
  obtain ⟨u, us, rfl, hu, hts⟩ := List.map_eq_cons_iff.mp hts
  obtain ⟨colon, us, rfl, hcolon, hts⟩ := List.map_eq_cons_iff.mp hts
  obtain ⟨v, us, rfl, hv, -⟩ := List.map_eq_cons_iff.mp hts
  refine ⟨u, colon, v, us, rfl, ?_, Token.kind_of_bare hcolon, ?_⟩
  · exact (Token.kind_of_bare hu).trans (kind_of_isName hname)
  · rwa [Token.kind_of_bare hv]

theorem delimited_of_bare {s : Stmt} {name : Token} (hs : s.TypeDelimited)
    (hbare : s.bare = .declare name ty.asPrinted) : ty.delimited = true := by
  cases s with
  | declare u ty' =>
    obtain ⟨-, hty⟩ := Stmt.declare.inj hbare
    have hdelimited : ty'.bare.delimited = true := hs
    rwa [hty, ty.delimited_asPrinted] at hdelimited
  | _ => simp [Stmt.bare] at hbare

/-- **A type is read back exactly if no list in it runs into another one.** The type of a declared name is printed by the
grammar, with any blanks between its tokens: nothing is reported and the tree is the same if and only if no
parameter or result but the last of its list ends in the results of a function. -/
theorem type_read_back_iff {name : Token} {ty : TypeExpr} (hname : name.isName = true) (hty : ty.complete = true)
    {source : String} (hsource : Spells source.toList (Stmt.declare name ty).print) :
    ((parse source).errors = [] ∧ (parse source).roots.map Stmt.bare = [.declare name.bare ty.asPrinted]) ↔
      ty.delimited = true := by
  have hspelled := spelled_declare hname hty
  constructor
  · rintro ⟨herrors, hroots⟩
    have htokens : (scan source).tokens.map Token.bare = (Stmt.declare name ty).print :=
      (Cursor.tokens_of_spells hsource _).trans hspelled.map_bare
    have hdeclares := declaresTyped_of_bare hname hty htokens
    obtain ⟨s, rest, hroots', hs, -⟩ := List.map_eq_cons_iff.mp hroots
    have hdelimited := Relates.of_parse (Rules.whole_delimits .items) herrors hdeclares s (by rw [hroots']; rfl)
    exact delimited_of_bare hdelimited hs
  · intro hdelimited
    have hread : ∀ s ∈ [Stmt.declare name ty], s.ReadBack :=
      List.forall_mem_singleton.mpr (readBack_declare hname ⟨hty, hdelimited⟩)
    rw [← List.append_nil (Stmt.declare name ty).print] at hspelled hsource
    exact parse_of_readBack [.declare name ty] hread hspelled hsource

/-- `( f : [ 4 ] ( a : u64 ) , g : ^ ( b : T ) -> u64 , T ) -> ^ u64 , ( ) -> T`: only the last parameter and the last result
end in results. -/
def callback : TypeExpr :=
  -- Start tokens come from the text.
  let any := Token.ofName "any"
  let word := TypeExpr.name Primitive.u64.token
  let named := TypeExpr.name (Token.ofName "T")
  let four := Expr.atom ⟨.integer, "4", default, .unsigned 4⟩
  let f := Param.named (Token.ofName "f") (.array any four (.function any [.named (Token.ofName "a") word]))
  let g := Param.named (Token.ofName "g")
    (.pointer any (.functionTo any [.named (Token.ofName "b") named] any [word, named]))
  .functionTo any [f, g] any [.pointer any word, .functionTo any [] any [named]]

theorem type_read_back_iff_callback :
    ((Token.ofName "x").isName = true ∧ callback.complete = true ∧ callback.delimited = true) ∧
      (parse (Stmt.text [.declare (Token.ofName "x") callback])).errors = [] ∧
        (parse (Stmt.text [.declare (Token.ofName "x") callback])).roots.map Stmt.bare =
          [.declare (Token.ofName "x").bare callback.asPrinted] :=
  have hname : (Token.ofName "x").isName = true := by decide
  have hty : callback.complete = true := by decide
  have hdelimited : callback.delimited = true := by decide
  have hspells : Spells (Stmt.text [.declare (Token.ofName "x") callback]).toList
      (Stmt.declare (Token.ofName "x") callback).print :=
    spells_spaced (spelled_declare hname hty)
  ⟨⟨hname, hty, hdelimited⟩, (type_read_back_iff hname hty hspells).mpr hdelimited⟩

/-- `( f : ( ) -> u64 , y : u64 )`: the second parameter starts as a further result of `f` does. -/
def spilling : TypeExpr :=
  let any := Token.ofName "any"
  let word := TypeExpr.name Primitive.u64.token
  .function any [.named (Token.ofName "f") (.functionTo any [] any [word]), .named (Token.ofName "y") word]

/-- A type whose lists run into each other is not read back: the colon behind `y` is reported. -/
theorem spilling_not_read_back :
    (Token.ofName "x").isName = true ∧ spilling.complete = true ∧
      (parse (Stmt.text [.declare (Token.ofName "x") spilling])).errors.length = 1 := by decide +kernel

/-- Two types may have one text, so that no way of reading could read both of them back. -/
example :
    let word := TypeExpr.name Primitive.u64.token
    let returning := TypeExpr.functionTo (Token.ofName "any") [] (Token.ofName "any")
    (returning [returning [word], word]).print = (returning [returning [word, word]]).print := rfl

end Wordstack
