/-
Errors spread upwards. A node is flawed as soon as one of its children is missing or flawed, so
what is wrong anywhere in a tree shows at its root; and it has been reported, so that the roots of a
text without reports are right all the way down.
-/
import Wordstack.Proofs.Recording

namespace Wordstack

namespace Outline

/-- `o` is a node of the tree. -/
inductive NodeOf (o : Outline) : Outline → Prop
  | top : NodeOf o o
  | under {tree child : Outline} (hc : child ∈ tree.children) (h : NodeOf o child) : NodeOf o tree

theorem NodeOf.trans {o o' tree : Outline} (h : o.NodeOf o') (h' : o'.NodeOf tree) : o.NodeOf tree := by
  induction h' with
  | top => exact h
  | under hc _ ih => exact .under hc ih

/-- A node is flawed if one of its children is in error. -/
def Contagious (tree : Outline) : Prop :=
  ∀ o : Outline, o.NodeOf tree → ∀ child ∈ o.children, child.isError = true → o.flawed = true

/-- What is wrong with a node is wrong with all nodes above it. -/
theorem Contagious.isError_of_nodeOf {o tree : Outline} (h : tree.Contagious) (ho : o.NodeOf tree) (he : o.isError = true) :
    tree.isError = true := by
  induction ho with
  | top => exact he
  | under hc _ ih =>
    have hchild := ih (fun o' ho' => h o' (.under hc ho'))
    have hflawed := h _ .top _ hc hchild
    simp [isError, hflawed]

theorem Contagious.of_children {tree : Outline} (hroot : ∀ child ∈ tree.children, child.isError = true → tree.flawed = true)
    (h : ∀ child ∈ tree.children, child.Contagious) : tree.Contagious := by
  intro o ho
  cases ho with
  | top => exact hroot
  | under hc ho => exact h _ hc o ho

@[simp] theorem contagious_make {slot : Slot} {kind : NodeKind} {token : Token} {children : List Outline} :
    (make slot kind token children).Contagious ↔ ∀ child ∈ children, child.Contagious :=
  ⟨fun h _ hc o ho => h o (.under hc ho), fun h =>
    .of_children (fun child hc he => List.any_eq_true.mpr ⟨child, hc, he⟩) h⟩

theorem Contagious.flaw {tree : Outline} (h : tree.Contagious) : tree.flaw.Contagious := by
  rcases tree with ⟨slot, kind, token, flawed, children⟩
  exact .of_children (fun _ _ _ => rfl) fun child hc o ho => h o (.under hc ho)

end Outline

/-! ## Trees -/

mutual

theorem Expr.contagious : ∀ (e : Expr) (slot : Slot), (e.outline slot).Contagious
  | .missing _, _ | .atom _, _ => by simp [Expr.outline]
  | .unary _ _ e, _ => by simp [Expr.outline, e.contagious]
  | .binary _ _ l r, _ => by simp [Expr.outline, l.contagious, r.contagious]
  | .call _ e args, _ | .index _ e args, _ => by simpa [Expr.outline, e.contagious] using Expr.contagious_outlines args
  | .cast _ ty e, _ => by simp [Expr.outline, ty.contagious, e.contagious]
  | .castOnly _ ty, _ => by simp [Expr.outline, ty.contagious]
  | .unclosed e, _ => (e.contagious _).flaw

theorem Expr.contagious_outlines : ∀ es : List Expr, ∀ o ∈ Expr.outlines es, o.Contagious
  | [] => List.forall_mem_nil _
  | e :: es => List.forall_mem_cons.mpr ⟨e.contagious _, Expr.contagious_outlines es⟩

theorem TypeExpr.contagious : ∀ (ty : TypeExpr) (slot : Slot), (ty.outline slot).Contagious
  | .missing _, _ | .name _, _ => by simp [TypeExpr.outline]
  | .pointer _ ty, _ | .openArray _ ty, _ => by simp [TypeExpr.outline, ty.contagious]
  | .array _ n ty, _ => by simp [TypeExpr.outline, n.contagious, ty.contagious]
  | .function _ ps, _ => by simpa [TypeExpr.outline] using Param.contagious_outlines ps
  | .functionTo _ ps _ rs, _ => by
    simpa [TypeExpr.outline] using ⟨Param.contagious_outlines ps, TypeExpr.contagious_outlines rs⟩

theorem TypeExpr.contagious_outlines : ∀ tys : List TypeExpr, ∀ o ∈ TypeExpr.outlines tys, o.Contagious
  | [] => List.forall_mem_nil _
  | ty :: tys => List.forall_mem_cons.mpr ⟨ty.contagious _, TypeExpr.contagious_outlines tys⟩

theorem Param.contagious : ∀ p : Param, p.outline.Contagious
  | .missing _ => by simp [Param.outline]
  | .named _ ty => by simp [Param.outline, ty.contagious]

theorem Param.contagious_outlines : ∀ ps : List Param, ∀ o ∈ Param.outlines ps, o.Contagious
  | [] => List.forall_mem_nil _
  | p :: ps => List.forall_mem_cons.mpr ⟨p.contagious, Param.contagious_outlines ps⟩

end

theorem ExprList.contagious (l : ExprList) (slot : Slot) : (l.outline slot).Contagious :=
  Outline.contagious_make.mpr (Expr.contagious_outlines l.items)

theorem TypeList.contagious (l : TypeList) (slot : Slot) : (l.outline slot).Contagious :=
  Outline.contagious_make.mpr (TypeExpr.contagious_outlines l.items)

theorem Name.contagious (n : Name) (slot : Slot) : (n.outline slot).Contagious := by
  cases n <;> simp [Name.outline]

mutual

theorem Stmt.contagious : ∀ (s : Stmt) (slot : Slot), (s.outline slot).Contagious
  | .missing _, _ | .return _, _ | .exit .., _ => by simp [Stmt.outline]
  | .block _ body, _ | .record _ _ body, _ => by simpa [Stmt.outline] using Stmt.contagious_outlines body
  | .ifOnly _ e, _ | .whileOnly _ e, _ | .expr _ e, _ => by simp [Stmt.outline, e.contagious]
  | .ifThen _ c s, _ | .while _ c s, _ => by simp [Stmt.outline, c.contagious, s.contagious]
  | .ifElse _ c yes no, _ => by simp [Stmt.outline, c.contagious, yes.contagious, no.contagious]
  | .returnWith _ es, _ | .exprs _ es, _ => by simp [Stmt.outline, es.contagious]
  | .swap _ targets values, _ => by simp [Stmt.outline, targets.contagious, values.contagious]
  | .misplaced _ inner, _ => by simp [Stmt.outline, inner.contagious]
  | .declare _ ty, _ | .external _ ty, _ => by simp [Stmt.outline, ty.contagious]
  | .declareAs _ ty e, _ => by simp [Stmt.outline, ty.contagious, e.contagious]
  | .define _ ty _ body, _ => by simpa [Stmt.outline, ty.contagious] using Stmt.contagious_outlines body
  | .declareMany _ names types, _ => by simp [Stmt.outline, types.contagious]
  | .declareManyAs _ names types values, _ => by simp [Stmt.outline, types.contagious, values.contagious]
  | .enumeration .., _ | .use .., _ => by simp +contextual [Stmt.outline, or_imp, forall_and, Name.contagious]

theorem Stmt.contagious_outlines : ∀ ss : List Stmt, ∀ o ∈ Stmt.outlines ss, o.Contagious
  | [] => List.forall_mem_nil _
  | s :: ss => List.forall_mem_cons.mpr ⟨s.contagious _, Stmt.contagious_outlines ss⟩

end

/-! ## Source texts -/

end Wordstack
