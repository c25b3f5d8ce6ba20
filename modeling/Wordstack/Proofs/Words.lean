/-
The words of a text: its names, literals and primitive types. A tree has the words that it was read from, in the order of
the text; its nodes have the same words, each of them once, but may come in another order, so that
they have to be sorted by their places.
-/
import Mathlib.Data.List.Pairwise
import Wordstack.Proofs.Tiling
import Wordstack.Tree.Parse
import Wordstack.Tree.Outline

namespace Wordstack

/-- Tokens that mean something by themselves. -/
def TokenKind.isWord : TokenKind → Bool
  | .ident | .primitive _ | .integer | .float | .string | .keyword .trueWord | .keyword .falseWord => true
  | _ => false

def Token.isWord (t : Token) : Bool := t.kind.isWord

/-! ## The words of a tree -/

mutual

/-- The words that an expression was read from. -/
def Expr.words : Expr → List Token
  | .missing _ => []
  | .atom t => [t]
  | .unary _ _ e => e.words
  | .binary _ _ l r => l.words ++ r.words
  | .call _ f args => f.words ++ Expr.wordsAll args
  | .index _ b args => b.words ++ Expr.wordsAll args
  | .cast _ ty e => ty.words ++ e.words
  | .castOnly _ ty => ty.words
  | .unclosed e => e.words

def Expr.wordsAll : List Expr → List Token
  | [] => []
  | e :: es => e.words ++ Expr.wordsAll es

def TypeExpr.words : TypeExpr → List Token
  | .missing _ => []
  | .name t => [t]
  | .pointer _ ty => ty.words
  | .array _ n ty => n.words ++ ty.words
  | .openArray _ ty => ty.words
  | .function _ ps => Param.wordsAll ps
  | .functionTo _ ps _ rs => Param.wordsAll ps ++ TypeExpr.wordsAll rs

def TypeExpr.wordsAll : List TypeExpr → List Token
  | [] => []
  | ty :: tys => ty.words ++ TypeExpr.wordsAll tys

def Param.words : Param → List Token
  | .missing _ => []
  | .named t ty => t :: ty.words

def Param.wordsAll : List Param → List Token
  | [] => []
  | p :: ps => p.words ++ Param.wordsAll ps

end

def Name.words : Name → List Token
  | .missing _ => []
  | .ident t => [t]

mutual

/-- The words that a statement was read from, in the order of the text. -/
def Stmt.words : Stmt → List Token
  | .missing _ | .return _ | .exit .. => []
  | .block _ body => Stmt.wordsAll body
  | .ifOnly _ c | .whileOnly _ c => c.words
  | .ifThen _ c yes => c.words ++ yes.words
  | .ifElse _ c yes no => c.words ++ yes.words ++ no.words
  | .while _ c body => c.words ++ body.words
  | .returnWith _ values => Expr.wordsAll values.items
  | .expr _ e => e.words
  | .exprs _ es => Expr.wordsAll es.items
  | .swap _ targets values => Expr.wordsAll targets.items ++ Expr.wordsAll values.items
  | .misplaced _ inner => inner.words
  | .declare t ty | .external t ty => t :: ty.words
  | .declareAs t ty e => t :: (ty.words ++ e.words)
  | .define t ty _ body => t :: (ty.words ++ Stmt.wordsAll body)
  | .declareMany _ names types => names ++ TypeExpr.wordsAll types.items
  | .declareManyAs _ names types values => names ++ TypeExpr.wordsAll types.items ++ Expr.wordsAll values.items
  | .record _ t fields => t :: Stmt.wordsAll fields
  | .enumeration t variants => t :: variants.flatMap Name.words
  | .use _ path alias? => path.flatMap Name.words ++ alias?.toList.flatMap Name.words

def Stmt.wordsAll : List Stmt → List Token
  | [] => []
  | s :: ss => s.words ++ Stmt.wordsAll ss

end

/-! ## The words of nodes -/

/-- Nodes that are made for a word, and have it as their token. -/
@[simp] def NodeKind.isForWord : NodeKind → Bool
  | .primary | .typeName | .param | .declaration | .externDeclaration | .structDecl | .unionDecl | .enumDecl => true
  | _ => false

namespace Outline

/-- The tokens of those nodes that are made for a word. -/
def rowWords (rows : List (Nat × Outline)) : List Token := (rows.filter (·.2.kind.isForWord)).map (·.2.token)

theorem rowWords_append (rows rows' : List (Nat × Outline)) : rowWords (rows ++ rows') = rowWords rows ++ rowWords rows' := by
  simp only [rowWords, List.filter_append, List.map_append]

/-- The words of the nodes of a tree. -/
def words (o : Outline) : List Token := rowWords (o.rows 0)

def wordsAll (os : List Outline) : List Token := rowWords (rowsList 0 os)

theorem rowWords_node (d : Nat) (slot : Slot) (kind : NodeKind) (t : Token) (flawed : Bool) (cs : List Outline) :
    rowWords ((Outline.node slot kind t flawed cs).rows d) =
      (if kind.isForWord = true then [t] else []) ++ rowWords (rowsList (d + 1) cs) := by
  have hrow : rowWords [(d, Outline.node slot kind t flawed cs)] = if kind.isForWord = true then [t] else [] := by
    by_cases hk : kind.isForWord = true <;> simp [rowWords, Outline.kind, Outline.token, hk, -NodeKind.isForWord]
  rw [rows, ← List.singleton_append, rowWords_append, hrow]

mutual

/-- How deep a node is does not matter. -/
theorem rowWords_rows (d d' : Nat) (o : Outline) : rowWords (o.rows d) = rowWords (o.rows d') := by
  cases o with
  | node slot kind t flawed cs => rw [rowWords_node, rowWords_node, rowWords_rowsList (d + 1) (d' + 1) cs]

theorem rowWords_rowsList (d d' : Nat) (os : List Outline) : rowWords (rowsList d os) = rowWords (rowsList d' os) := by
  cases os with
  | nil => rfl
  | cons o os => rw [rowsList, rowsList, rowWords_append, rowWords_append, rowWords_rows d d' o, rowWords_rowsList d d' os]

end

@[simp] theorem wordsAll_nil : wordsAll [] = [] := rfl

@[simp] theorem wordsAll_cons (o : Outline) (os : List Outline) : wordsAll (o :: os) = o.words ++ wordsAll os :=
  rowWords_append _ _

@[simp] theorem wordsAll_append (os os' : List Outline) : wordsAll (os ++ os') = wordsAll os ++ wordsAll os' := by
  induction os with
  | nil => rfl
  | cons o os ih => rw [List.cons_append, wordsAll_cons, ih, wordsAll_cons, List.append_assoc]

theorem wordsAll_map {α : Type} {g : α → Outline} {V : α → List Token} (h : ∀ a, (g a).words = V a) (as : List α) :
    wordsAll (as.map g) = as.flatMap V := by
  induction as with
  | nil => rfl
  | cons a as ih => rw [List.map_cons, wordsAll_cons, h, ih, List.flatMap_cons]

@[simp] theorem words_make (slot : Slot) (kind : NodeKind) (t : Token) (cs : List Outline) :
    (make slot kind t cs).words = (if kind.isForWord = true then [t] else []) ++ wordsAll cs :=
  (rowWords_node 0 slot kind t _ cs).trans (congrArg _ (rowWords_rowsList 1 0 cs))

@[simp] theorem words_flaw (o : Outline) : o.flaw.words = o.words := by
  cases o with
  | node slot kind t flawed cs => exact (rowWords_node 0 ..).trans (rowWords_node 0 ..).symm

end Outline

mutual

@[simp] theorem Expr.words_outline (slot : Slot) (e : Expr) : (e.outline slot).words = e.words := by
  cases e with
  | missing t => rfl
  | atom t => rfl
  | unary op t e => simp [Expr.outline, Expr.words, e.words_outline]
  | binary op t l r => simp [Expr.outline, Expr.words, l.words_outline, r.words_outline]
  | call t f args => simp [Expr.outline, Expr.words, f.words_outline, Expr.words_outlines args]
  | index t b args => simp [Expr.outline, Expr.words, b.words_outline, Expr.words_outlines args]
  | cast t ty e => simp [Expr.outline, Expr.words, ty.words_outline, e.words_outline]
  | castOnly t ty => simp [Expr.outline, Expr.words, ty.words_outline]
  | unclosed e => simp [Expr.outline, Expr.words, e.words_outline]

theorem Expr.words_outlines (es : List Expr) : Outline.wordsAll (Expr.outlines es) = Expr.wordsAll es := by
  cases es with
  | nil => rfl
  | cons e es => rw [Expr.outlines, Outline.wordsAll_cons, e.words_outline, Expr.words_outlines es, Expr.wordsAll]

@[simp] theorem TypeExpr.words_outline (slot : Slot) (ty : TypeExpr) : (ty.outline slot).words = ty.words := by
  cases ty with
  | missing t => rfl
  | name t => rfl
  | pointer t ty => simp [TypeExpr.outline, TypeExpr.words, ty.words_outline]
  | array t n ty => simp [TypeExpr.outline, TypeExpr.words, n.words_outline, ty.words_outline]
  | openArray t ty => simp [TypeExpr.outline, TypeExpr.words, ty.words_outline]
  | function t ps => simp [TypeExpr.outline, TypeExpr.words, Param.words_outlines ps]
  | functionTo t ps start rs =>
    simp [TypeExpr.outline, TypeExpr.words, Param.words_outlines ps, TypeExpr.words_outlines rs]

theorem TypeExpr.words_outlines (tys : List TypeExpr) :
    Outline.wordsAll (TypeExpr.outlines tys) = TypeExpr.wordsAll tys := by
  cases tys with
  | nil => rfl
  | cons ty tys =>
    rw [TypeExpr.outlines, Outline.wordsAll_cons, ty.words_outline, TypeExpr.words_outlines tys, TypeExpr.wordsAll]

theorem Param.words_outline (p : Param) : p.outline.words = p.words := by
  cases p with
  | missing t => rfl
  | named t ty => simp [Param.outline, Param.words, ty.words_outline]

theorem Param.words_outlines (ps : List Param) : Outline.wordsAll (Param.outlines ps) = Param.wordsAll ps := by
  cases ps with
  | nil => rfl
  | cons p ps => rw [Param.outlines, Outline.wordsAll_cons, p.words_outline, Param.words_outlines ps, Param.wordsAll]

end

@[simp] theorem ExprList.words_outline (slot : Slot) (l : ExprList) : (l.outline slot).words = Expr.wordsAll l.items := by
  simp [ExprList.outline, Expr.words_outlines]

@[simp] theorem TypeList.words_outline (slot : Slot) (l : TypeList) : (l.outline slot).words = TypeExpr.wordsAll l.items := by
  simp [TypeList.outline, TypeExpr.words_outlines]

theorem Name.words_outline (slot : Slot) (n : Name) : (n.outline slot).words = n.words := by
  cases n <;> rfl

/-- Names that are declared together have nodes of their own. -/
theorem words_names (names : List Token) : Outline.wordsAll (names.map (.make .list .primary ·)) = names :=
  (Outline.wordsAll_map (V := fun t => [t]) (fun _ => rfl) names).trans (List.flatMap_singleton' names)

mutual

/-- The nodes of a statement have its words; those of a list of names come behind those of the types. -/
theorem Stmt.words_outline (slot : Slot) (s : Stmt) : (s.outline slot).words.Perm s.words := by
  cases s with
  | missing t | «return» t => exact .refl _
  | exit e t => cases e <;> exact .refl _
  | block t body => simpa [Stmt.outline, Stmt.words] using Stmt.words_outlines body
  | ifOnly | whileOnly | returnWith | expr | exprs | swap | declare | external | declareAs => simp [Stmt.outline, Stmt.words]
  | ifThen t c yes => simpa [Stmt.outline, Stmt.words] using (yes.words_outline .center).append_left _
  | ifElse t c yes no =>
    have hyes := yes.words_outline .center
    have hno := no.words_outline .right
    simpa [Stmt.outline, Stmt.words] using (hyes.append hno).append_left _
  | «while» t c body => simpa [Stmt.outline, Stmt.words] using (body.words_outline .right).append_left _
  | misplaced t inner => simpa [Stmt.outline, Stmt.words] using inner.words_outline .left
  | define t ty brace body => simpa [Stmt.outline, Stmt.words] using (Stmt.words_outlines body).append_left _
  | declareMany t names types => simpa [Stmt.outline, Stmt.words, words_names] using List.perm_append_comm
  | declareManyAs t names types values =>
    have hnames : ((TypeExpr.wordsAll types.items ++ Expr.wordsAll values.items) ++ names).Perm
        (names ++ (TypeExpr.wordsAll types.items ++ Expr.wordsAll values.items)) := List.perm_append_comm
    simpa [Stmt.outline, Stmt.words, words_names] using hnames
  | record kind t fields =>
    have hfields := Stmt.words_outlines fields
    cases kind <;> simpa [Stmt.outline, Stmt.words, RecordKind.kind] using hfields
  | enumeration t variants => simp [Stmt.outline, Stmt.words, Outline.wordsAll_map (Name.words_outline .list)]
  | use t path alias? =>
    have halias := Outline.wordsAll_map (Name.words_outline .right) alias?.toList
    have hpath := Outline.wordsAll_map (Name.words_outline .list) path
    simpa [Stmt.outline, Stmt.words, halias, hpath] using List.perm_append_comm

theorem Stmt.words_outlines (ss : List Stmt) : (Outline.wordsAll (Stmt.outlines ss)).Perm (Stmt.wordsAll ss) := by
  cases ss with
  | nil => exact .refl _
  | cons s ss =>
    rw [Stmt.outlines, Outline.wordsAll_cons, Stmt.wordsAll]
    exact (s.words_outline .list).append (Stmt.words_outlines ss)

end

/-- All nodes below the roots, each as often as it comes up there. -/
def Parsed.rows (p : Parsed) : List (Nat × Outline) := Outline.rowsList 0 (p.roots.map (Stmt.outline .root))

theorem Parsed.rowWords_rows (p : Parsed) : (Outline.rowWords p.rows).Perm (Stmt.wordsAll p.roots) := by
  show (Outline.wordsAll (p.roots.map (Stmt.outline .root))).Perm _
  induction p.roots with
  | nil => exact .refl _
  | cons s ss ih =>
    rw [List.map_cons, Outline.wordsAll_cons, Stmt.wordsAll]
    exact (s.words_outline .root).append ih

/-! ## Order -/

/-- Tokens in the order in which they stand. -/
def inTextOrder (ts : List Token) : List Token := ts.mergeSort fun t t' => t.span.start.offset ≤ t'.span.start.offset

theorem inTextOrder_eq {ts us : List Token} (hperm : ts.Perm us)
    (hus : us.Pairwise fun t t' => t.span.start.offset < t'.span.start.offset) : inTextOrder ts = us := by
  have hsorted : (inTextOrder ts).Pairwise fun t t' => t.span.start.offset ≤ t'.span.start.offset := by
    refine (List.pairwise_mergeSort (fun a b c => ?_) (fun a b => ?_) ts).imp fun h => of_decide_eq_true h
    · simp only [decide_eq_true_eq]
      omega
    · simp only [Bool.or_eq_true, decide_eq_true_eq]
      omega
  refine List.Perm.eq_of_pairwise (fun a b ha hb hab hba => ?_) hsorted (hus.imp Nat.le_of_lt)
    ((List.mergeSort_perm ..).trans hperm)
  -- two of the tokens that start at one place are one
  have hapart : us.Pairwise fun t t' => t.span.start.offset ≠ t'.span.start.offset := hus.imp Nat.ne_of_lt
  have hmem : a ∈ us := hperm.mem_iff.mp (List.mem_mergeSort.mp ha)
  have : Std.Symm fun t t' : Token => t.span.start.offset ≠ t'.span.start.offset := ⟨fun _ _ h => h.symm⟩
  by_contra hne
  exact hapart.forall hmem hb hne (Nat.le_antisymm hab hba)

/-- The tokens of a text start one behind the other. -/
theorem starts_scan (source : String) :
    (scan source).tokens.Pairwise fun t t' => t.span.start.offset < t'.span.start.offset := by
  have htiles := Tiles.ofSource source
  obtain ⟨-, hlength, hpairwise⟩ := htiles.pairwise
  refine (List.pairwise_append.mp hpairwise).1.imp_of_mem fun ht _ h => ?_
  exact Nat.lt_of_lt_of_le (hlength _ ht) h

end Wordstack
