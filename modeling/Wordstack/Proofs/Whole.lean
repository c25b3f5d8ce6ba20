/-
Trees in which nothing is missing. They are what a text without errors is read as, and
none of their nodes is in error.
-/
import Wordstack.Tree.Outline

namespace Wordstack

/-- A name, or a literal with its value. -/
def Token.IsValue (t : Token) : Prop :=
  match t.kind, t.literal with
  | .ident, _ => True
  | .string, .text _ => True
  | .float, .float _ => True
  | .integer, .unsigned _ | .keyword .trueWord, .unsigned _ | .keyword .falseWord, .unsigned _ => True
  | _, _ => False

mutual

/-- Nothing is missing, and only names carry the token of a name. -/
inductive Expr.Whole : Expr → Prop
  | atom {t : Token} (ht : t.IsValue) : Expr.Whole (.atom t)
  | unary {op : UnaryOp} {t : Token} {e : Expr} (ht : t.isIdent = false) (he : e.Whole) :
    Expr.Whole (.unary op t e)
  | binary {op : BinaryOp} {t : Token} {l r : Expr} (ht : t.isIdent = false) (hl : l.Whole) (hr : r.Whole) :
    Expr.Whole (.binary op t l r)
  | call {t : Token} {f : Expr} {args : List Expr} (ht : t.isIdent = false) (hf : f.Whole)
    (hargs : Expr.WholeAll args) : Expr.Whole (.call t f args)
  | index {t : Token} {b i : Expr} {more : List Expr} (ht : t.isIdent = false) (hb : b.Whole) (hi : i.Whole)
    (hmore : Expr.WholeAll more) : Expr.Whole (.index t b (i :: more))
  | cast {t : Token} {ty : TypeExpr} {e : Expr} (ht : t.isIdent = false) (hty : ty.Whole) (he : e.Whole) :
    Expr.Whole (.cast t ty e)

inductive Expr.WholeAll : List Expr → Prop
  | nil : Expr.WholeAll []
  | cons {e : Expr} {es : List Expr} (he : e.Whole) (hes : Expr.WholeAll es) : Expr.WholeAll (e :: es)

inductive TypeExpr.Whole : TypeExpr → Prop
  | name (t : Token) : TypeExpr.Whole (.name t)
  | pointer {t : Token} {ty : TypeExpr} (h : ty.Whole) : TypeExpr.Whole (.pointer t ty)
  | array {t : Token} {n : Expr} {ty : TypeExpr} (hn : n.Whole) (h : ty.Whole) : TypeExpr.Whole (.array t n ty)
  | openArray {t : Token} {ty : TypeExpr} (h : ty.Whole) : TypeExpr.Whole (.openArray t ty)
  | function {t : Token} {ps : List Param} (hps : Param.WholeAll ps) : TypeExpr.Whole (.function t ps)
  | functionTo {t start : Token} {ps : List Param} {rs : List TypeExpr} (hps : Param.WholeAll ps)
    (hrs : TypeExpr.WholeAll rs) : TypeExpr.Whole (.functionTo t ps start rs)

inductive TypeExpr.WholeAll : List TypeExpr → Prop
  | nil : TypeExpr.WholeAll []
  | cons {ty : TypeExpr} {tys : List TypeExpr} (h : ty.Whole) (hs : TypeExpr.WholeAll tys) :
    TypeExpr.WholeAll (ty :: tys)

inductive Param.Whole : Param → Prop
  | named {t : Token} {ty : TypeExpr} (h : ty.Whole) : Param.Whole (.named t ty)

inductive Param.WholeAll : List Param → Prop
  | nil : Param.WholeAll []
  | cons {p : Param} {ps : List Param} (h : p.Whole) (hs : Param.WholeAll ps) : Param.WholeAll (p :: ps)

end

def Name.Whole : Name → Prop
  | .missing _ => False
  | .ident _ => True

mutual

/-- Nothing is missing. -/
inductive Stmt.Whole : Stmt → Prop
  | block {t : Token} {body : List Stmt} (h : Stmt.WholeAll body) : Stmt.Whole (.block t body)
  | ifThen {t : Token} {c : Expr} {yes : Stmt} (hc : c.Whole) (hy : yes.Whole) : Stmt.Whole (.ifThen t c yes)
  | ifElse {t : Token} {c : Expr} {yes no : Stmt} (hc : c.Whole) (hy : yes.Whole) (hn : no.Whole) :
    Stmt.Whole (.ifElse t c yes no)
  | while {t : Token} {c : Expr} {body : Stmt} (hc : c.Whole) (hb : body.Whole) : Stmt.Whole (.while t c body)
  | return (t : Token) : Stmt.Whole (.return t)
  | returnWith {t : Token} {values : ExprList} (h : Expr.WholeAll values.items) : Stmt.Whole (.returnWith t values)
  | exit (e : LoopExit) (t : Token) : Stmt.Whole (.exit e t)
  | expr {t : Token} {e : Expr} (h : e.Whole) : Stmt.Whole (.expr t e)
  | exprs {t : Token} {es : ExprList} (h : Expr.WholeAll es.items) : Stmt.Whole (.exprs t es)
  | swap {t : Token} {targets values : ExprList} (ht : Expr.WholeAll targets.items)
    (hv : Expr.WholeAll values.items) : Stmt.Whole (.swap t targets values)
  | declare {name : Token} {ty : TypeExpr} (h : ty.Whole) : Stmt.Whole (.declare name ty)
  | declareAs {name : Token} {ty : TypeExpr} {e : Expr} (h : ty.Whole) (he : e.Whole) :
    Stmt.Whole (.declareAs name ty e)
  | define {name brace : Token} {ty : TypeExpr} {body : List Stmt} (h : ty.Whole) (hb : Stmt.WholeAll body) :
    Stmt.Whole (.define name ty brace body)
  | external {name : Token} {ty : TypeExpr} (h : ty.Whole) : Stmt.Whole (.external name ty)
  | declareMany {start : Token} {names : List Token} {types : TypeList} (h : TypeExpr.WholeAll types.items) :
    Stmt.Whole (.declareMany start names types)
  | declareManyAs {start : Token} {names : List Token} {types : TypeList} {values : ExprList}
    (h : TypeExpr.WholeAll types.items) (hv : Expr.WholeAll values.items) :
    Stmt.Whole (.declareManyAs start names types values)
  | record {kind : RecordKind} {name : Token} {fields : List Stmt} (h : Stmt.WholeAll fields) :
    Stmt.Whole (.record kind name fields)
  | enumeration (name : Token) (variants : List Name) (h : ∀ v ∈ variants, v.Whole) :
    Stmt.Whole (.enumeration name variants)
  | use (t : Token) (path : List Name) (alias? : Option Name) (hp : ∀ n ∈ path, n.Whole) (ha : ∀ n ∈ alias?, n.Whole) :
    Stmt.Whole (.use t path alias?)

inductive Stmt.WholeAll : List Stmt → Prop
  | nil : Stmt.WholeAll []
  | cons {s : Stmt} {ss : List Stmt} (h : s.Whole) (hs : Stmt.WholeAll ss) : Stmt.WholeAll (s :: ss)

end

theorem Stmt.WholeAll.get {ss : List Stmt} (h : Stmt.WholeAll ss) : ∀ s ∈ ss, s.Whole := by
  induction ss with
  | nil => simp
  | cons s ss ih =>
    cases h with
    | cons h hs => exact List.forall_mem_cons.mpr ⟨h, ih hs⟩

/-! ## Nothing is in error -/

@[simp] theorem Outline.isError_make (slot : Slot) (kind : NodeKind) (t : Token) (children : List Outline) :
    (make slot kind t children).isError = (kind == .error || children.any isError) := rfl

mutual

theorem Expr.Whole.outline : ∀ {e : Expr}, e.Whole → ∀ slot, (e.outline slot).isError = false
  | _, .atom _, _ => rfl
  | _, .unary _ he, _ => by simp [Expr.outline, he.outline]
  | _, .binary _ hl hr, _ => by simp [Expr.outline, hl.outline, hr.outline]
  | _, .call _ hf hargs, _ => by simp [Expr.outline, hf.outline, hargs.outlines]
  | _, .index _ hb hi hmore, _ => by simp [Expr.outline, Expr.outlines, hb.outline, hi.outline, hmore.outlines]
  | _, .cast _ hty he, _ => by simp [Expr.outline, hty.outline, he.outline]

theorem Expr.WholeAll.outlines : ∀ {es : List Expr}, Expr.WholeAll es → (Expr.outlines es).any Outline.isError = false
  | _, .nil => rfl
  | _, .cons he hes => by simp only [Expr.outlines, List.any_cons, he.outline, hes.outlines, Bool.or_self]

theorem TypeExpr.Whole.outline : ∀ {ty : TypeExpr}, ty.Whole → ∀ slot, (ty.outline slot).isError = false
  | _, .name _, _ => rfl
  | _, .pointer h, _ | _, .openArray h, _ => by simp [TypeExpr.outline, h.outline]
  | _, .array hn h, _ => by simp [TypeExpr.outline, hn.outline, h.outline]
  | _, .function hps, _ => by simp [TypeExpr.outline, hps.outlines]
  | _, .functionTo hps hrs, _ => by simp [TypeExpr.outline, hps.outlines, hrs.outlines]

theorem TypeExpr.WholeAll.outlines : ∀ {tys : List TypeExpr}, TypeExpr.WholeAll tys →
    (TypeExpr.outlines tys).any Outline.isError = false
  | _, .nil => rfl
  | _, .cons h hs => by simp only [TypeExpr.outlines, List.any_cons, h.outline, hs.outlines, Bool.or_self]

theorem Param.Whole.outline : ∀ {p : Param}, p.Whole → p.outline.isError = false
  | _, .named h => by simp [Param.outline, h.outline]

theorem Param.WholeAll.outlines : ∀ {ps : List Param}, Param.WholeAll ps → (Param.outlines ps).any Outline.isError = false
  | _, .nil => rfl
  | _, .cons h hs => by simp only [Param.outlines, List.any_cons, h.outline, hs.outlines, Bool.or_self]

end

theorem Expr.Whole.isError {e : Expr} (h : e.Whole) : e.isError = false := h.outline _

theorem TypeExpr.Whole.isError {ty : TypeExpr} (h : ty.Whole) : ty.isError = false := h.outline _

theorem ExprList.outline_of_whole {l : ExprList} (h : Expr.WholeAll l.items) (slot : Slot) : (l.outline slot).isError = false := by
  simp only [ExprList.outline, Outline.isError_make, h.outlines]
  rfl

theorem TypeList.outline_of_whole {l : TypeList} (h : TypeExpr.WholeAll l.items) (slot : Slot) :
    (l.outline slot).isError = false := by
  simp only [TypeList.outline, Outline.isError_make, h.outlines]
  rfl

theorem ExprList.isError_of_whole {l : ExprList} (h : Expr.WholeAll l.items) : l.isError = false := outline_of_whole h _

theorem TypeList.isError_of_whole {l : TypeList} (h : TypeExpr.WholeAll l.items) : l.isError = false := outline_of_whole h _

theorem Name.Whole.outline : ∀ {n : Name}, n.Whole → ∀ slot, (n.outline slot).isError = false
  | .ident _, _, _ => rfl

mutual

theorem Stmt.Whole.outline : ∀ {s : Stmt}, s.Whole → ∀ slot, (s.outline slot).isError = false
  | _, .return _, _ => rfl
  | _, .exit e _, _ => by cases e <;> rfl
  | _, .block h, _ => by simp [Stmt.outline, h.outlines]
  | _, .ifThen hc hb, _ | _, .while hc hb, _ => by simp [Stmt.outline, hc.outline, hb.outline]
  | _, .ifElse hc hy hn, _ => by simp [Stmt.outline, hc.outline, hy.outline, hn.outline]
  | _, .returnWith h, _ | _, .exprs h, _ => by simp [Stmt.outline, ExprList.outline_of_whole h]
  | _, .expr h, _ | _, .declare h, _ | _, .external h, _ => by simp [Stmt.outline, h.outline]
  | _, .swap ht hv, _ => by simp [Stmt.outline, ExprList.outline_of_whole ht, ExprList.outline_of_whole hv]
  | _, .declareAs h he, _ => by simp [Stmt.outline, h.outline, he.outline]
  | _, .define h hb, _ => by simp [Stmt.outline, h.outline, hb.outlines]
  | _, .declareMany h, _ => by simp [Stmt.outline, TypeList.outline_of_whole h]
  | _, .declareManyAs h hv, _ => by simp [Stmt.outline, TypeList.outline_of_whole h, ExprList.outline_of_whole hv]
  | _, @Stmt.Whole.record kind _ _ h, _ => by cases kind <;> simp [Stmt.outline, RecordKind.kind, h.outlines]
  | _, .enumeration _ _ h, _ => by simpa [Stmt.outline] using fun n hn => (h n hn).outline .list
  | _, .use _ _ _ hp ha, _ => by
    simpa [Stmt.outline] using ⟨fun n hn => (ha n hn).outline .right, fun n hn => (hp n hn).outline .list⟩

theorem Stmt.WholeAll.outlines : ∀ {ss : List Stmt}, Stmt.WholeAll ss → (Stmt.outlines ss).any Outline.isError = false
  | _, .nil => rfl
  | _, .cons h hs => by simp only [Stmt.outlines, List.any_cons, h.outline, hs.outlines, Bool.or_self]

end

theorem Stmt.Whole.isError {s : Stmt} (h : s.Whole) : s.isError = false := h.outline _

end Wordstack
