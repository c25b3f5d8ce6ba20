/-
Moving a program to other places. Tokens, trees and what is said about them carry the
places in the source text that they come from; `move f` puts each of them where `f` says and leaves
everything else as it is. Comments and white space do no more to a program than that.

A map of regions is steady if it keeps regions together: what covers two regions goes to what covers
their images. The region of a tree goes along then, too.
-/
import Wordstack.Tree.Outline

namespace Wordstack

variable {α : Type}

/-- Things that have places in a source text. -/
class Placed (α : Type) where
  /-- The same thing at other places. -/
  move : (Span → Span) → α → α
  move_id : ∀ a, move id a = a
  move_move : ∀ f g a, move f (move g a) = move (f ∘ g) a

export Placed (move move_id move_move)

/-- The thing without its places. -/
def unplaced {α : Type} [Placed α] (a : α) : α := move (fun _ => .nowhere) a

theorem unplaced_move [Placed α] (f : Span → Span) (a : α) : unplaced (move f a) = unplaced a :=
  move_move _ f a

/-- Things that stand nowhere. -/
@[reducible] def Placed.nowhere (α : Type) : Placed α where
  move _ a := a
  move_id _ := rfl
  move_move _ _ _ := rfl

instance : Placed Unit := .nowhere _
instance : Placed Bool := .nowhere _
instance : Placed Nat := .nowhere _
instance : Placed String := .nowhere _

instance : Placed Span where
  move f s := f s
  move_id _ := rfl
  move_move _ _ _ := rfl

instance {α β : Type} [Placed α] [Placed β] : Placed (α × β) where
  move f p := (move f p.1, move f p.2)
  move_id p := by simp only [move_id]
  move_move f g p := by simp only [move_move]

instance {α : Type} [Placed α] : Placed (Option α) where
  move f := Option.map (move f)
  move_id a := by cases a <;> simp [move_id]
  move_move f g a := by cases a <;> simp [move_move]

instance {α : Type} [Placed α] : Placed (List α) where
  move f := List.map (move f)
  move_id as := by induction as <;> simp_all [move_id]
  move_move f g as := by induction as <;> simp_all [move_move]

@[simp] theorem move_nil [Placed α] (f : Span → Span) : move f ([] : List α) = [] := rfl

@[simp] theorem move_cons [Placed α] (f : Span → Span) (a : α) (as : List α) :
    move f (a :: as) = move f a :: move f as := rfl

@[simp] theorem move_none [Placed α] (f : Span → Span) : move f (none : Option α) = none := rfl

@[simp] theorem move_some [Placed α] (f : Span → Span) (a : α) : move f (some a) = some (move f a) := rfl

@[simp] theorem move_pair {β : Type} [Placed α] [Placed β] (f : Span → Span) (a : α) (b : β) :
    move f (a, b) = (move f a, move f b) := rfl

@[simp] theorem move_ite [Placed α] (f : Span → Span) (c : Prop) [Decidable c] (a b : α) :
    move f (if c then a else b) = if c then move f a else move f b := apply_ite ..

@[simp] theorem move_append [Placed α] (f : Span → Span) (as bs : List α) :
    move f (as ++ bs) = move f as ++ move f bs := List.map_append

theorem map_move {β : Type} [Placed α] [Placed β] {f : Span → Span} {g' g : α → β} (hg : ∀ a, g' (move f a) = move f (g a))
    (as : List α) : (move f as).map g' = move f (as.map g) := by
  induction as with
  | nil => rfl
  | cons a as ih => rw [move_cons, List.map_cons, List.map_cons, move_cons, hg, ih]

@[simp] theorem length_move [Placed α] (f : Span → Span) (as : List α) : (move f as).length = as.length :=
  List.length_map _

@[simp] theorem getLast?_move [Placed α] (f : Span → Span) (as : List α) : (move f as).getLast? = move f as.getLast? :=
  List.getLast?_map

@[simp] theorem dropLast_move [Placed α] (f : Span → Span) (as : List α) : (move f as).dropLast = move f as.dropLast :=
  List.map_dropLast.symm

/-! ## Tokens and trees -/

instance : Placed Token where
  move f t := { t with span := f t.span }
  move_id _ := rfl
  move_move _ _ _ := rfl

@[simp] theorem Token.kind_move (f : Span → Span) (t : Token) : (move f t).kind = t.kind := rfl

@[simp] theorem Token.text_move (f : Span → Span) (t : Token) : (move f t).text = t.text := rfl

@[simp] theorem Token.span_move (f : Span → Span) (t : Token) : (move f t).span = f t.span := rfl

mutual

def Expr.moved (f : Span → Span) : Expr → Expr
  | .missing t => .missing (move f t)
  | .atom t => .atom (move f t)
  | .unary op t e => .unary op (move f t) (e.moved f)
  | .binary op t l r => .binary op (move f t) (l.moved f) (r.moved f)
  | .call t e args => .call (move f t) (e.moved f) (Expr.movedAll f args)
  | .index t e args => .index (move f t) (e.moved f) (Expr.movedAll f args)
  | .cast t ty e => .cast (move f t) (ty.moved f) (e.moved f)
  | .castOnly t ty => .castOnly (move f t) (ty.moved f)
  | .unclosed e => .unclosed (e.moved f)

def Expr.movedAll (f : Span → Span) : List Expr → List Expr
  | [] => []
  | e :: es => e.moved f :: Expr.movedAll f es

def TypeExpr.moved (f : Span → Span) : TypeExpr → TypeExpr
  | .missing t => .missing (move f t)
  | .name t => .name (move f t)
  | .pointer t ty => .pointer (move f t) (ty.moved f)
  | .array t n ty => .array (move f t) (n.moved f) (ty.moved f)
  | .openArray t ty => .openArray (move f t) (ty.moved f)
  | .function t ps => .function (move f t) (Param.movedAll f ps)
  | .functionTo t ps start rs => .functionTo (move f t) (Param.movedAll f ps) (move f start) (TypeExpr.movedAll f rs)

def TypeExpr.movedAll (f : Span → Span) : List TypeExpr → List TypeExpr
  | [] => []
  | ty :: tys => ty.moved f :: TypeExpr.movedAll f tys

def Param.moved (f : Span → Span) : Param → Param
  | .missing t => .missing (move f t)
  | .named t ty => .named (move f t) (ty.moved f)

def Param.movedAll (f : Span → Span) : List Param → List Param
  | [] => []
  | p :: ps => p.moved f :: Param.movedAll f ps

end

mutual

theorem Expr.moved_id : ∀ e : Expr, e.moved id = e
  | .missing _ | .atom _ => rfl
  | .unary _ _ e => by rw [Expr.moved, Expr.moved_id e, move_id]
  | .binary _ _ l r => by rw [Expr.moved, Expr.moved_id l, Expr.moved_id r, move_id]
  | .call _ e args | .index _ e args => by rw [Expr.moved, Expr.moved_id e, Expr.movedAll_id args, move_id]
  | .cast _ ty e => by rw [Expr.moved, TypeExpr.moved_id ty, Expr.moved_id e, move_id]
  | .castOnly _ ty => by rw [Expr.moved, TypeExpr.moved_id ty, move_id]
  | .unclosed e => by rw [Expr.moved, Expr.moved_id e]

theorem Expr.movedAll_id : ∀ es : List Expr, Expr.movedAll id es = es
  | [] => rfl
  | e :: es => by rw [Expr.movedAll, Expr.moved_id e, Expr.movedAll_id es]

theorem TypeExpr.moved_id : ∀ ty : TypeExpr, ty.moved id = ty
  | .missing _ | .name _ => rfl
  | .pointer _ ty | .openArray _ ty => by rw [TypeExpr.moved, TypeExpr.moved_id ty, move_id]
  | .array _ n ty => by rw [TypeExpr.moved, Expr.moved_id n, TypeExpr.moved_id ty, move_id]
  | .function _ ps => by rw [TypeExpr.moved, Param.movedAll_id ps, move_id]
  | .functionTo _ ps _ rs => by
    rw [TypeExpr.moved, Param.movedAll_id ps, TypeExpr.movedAll_id rs, move_id, move_id]

theorem TypeExpr.movedAll_id : ∀ tys : List TypeExpr, TypeExpr.movedAll id tys = tys
  | [] => rfl
  | ty :: tys => by rw [TypeExpr.movedAll, TypeExpr.moved_id ty, TypeExpr.movedAll_id tys]

theorem Param.moved_id : ∀ p : Param, p.moved id = p
  | .missing _ => rfl
  | .named _ ty => by rw [Param.moved, TypeExpr.moved_id ty, move_id]

theorem Param.movedAll_id : ∀ ps : List Param, Param.movedAll id ps = ps
  | [] => rfl
  | p :: ps => by rw [Param.movedAll, Param.moved_id p, Param.movedAll_id ps]

end

mutual

theorem Expr.moved_moved (f g : Span → Span) : ∀ e : Expr, (e.moved g).moved f = e.moved (f ∘ g)
  | .missing _ | .atom _ => rfl
  | .unary _ _ e => by simp only [Expr.moved, Expr.moved_moved f g e, move_move]
  | .binary _ _ l r => by simp only [Expr.moved, Expr.moved_moved f g l, Expr.moved_moved f g r, move_move]
  | .call _ e args | .index _ e args => by
    simp only [Expr.moved, Expr.moved_moved f g e, Expr.movedAll_movedAll f g args, move_move]
  | .cast _ ty e => by simp only [Expr.moved, TypeExpr.moved_moved f g ty, Expr.moved_moved f g e, move_move]
  | .castOnly _ ty => by simp only [Expr.moved, TypeExpr.moved_moved f g ty, move_move]
  | .unclosed e => by simp only [Expr.moved, Expr.moved_moved f g e]

theorem Expr.movedAll_movedAll (f g : Span → Span) :
    ∀ es : List Expr, Expr.movedAll f (Expr.movedAll g es) = Expr.movedAll (f ∘ g) es
  | [] => rfl
  | e :: es => by simp only [Expr.movedAll, Expr.moved_moved f g e, Expr.movedAll_movedAll f g es]

theorem TypeExpr.moved_moved (f g : Span → Span) : ∀ ty : TypeExpr, (ty.moved g).moved f = ty.moved (f ∘ g)
  | .missing _ | .name _ => rfl
  | .pointer _ ty | .openArray _ ty => by simp only [TypeExpr.moved, TypeExpr.moved_moved f g ty, move_move]
  | .array _ n ty => by simp only [TypeExpr.moved, Expr.moved_moved f g n, TypeExpr.moved_moved f g ty, move_move]
  | .function _ ps => by simp only [TypeExpr.moved, Param.movedAll_movedAll f g ps, move_move]
  | .functionTo _ ps _ rs => by
    simp only [TypeExpr.moved, Param.movedAll_movedAll f g ps, TypeExpr.movedAll_movedAll f g rs, move_move]

theorem TypeExpr.movedAll_movedAll (f g : Span → Span) :
    ∀ tys : List TypeExpr, TypeExpr.movedAll f (TypeExpr.movedAll g tys) = TypeExpr.movedAll (f ∘ g) tys
  | [] => rfl
  | ty :: tys => by simp only [TypeExpr.movedAll, TypeExpr.moved_moved f g ty, TypeExpr.movedAll_movedAll f g tys]

theorem Param.moved_moved (f g : Span → Span) : ∀ p : Param, (p.moved g).moved f = p.moved (f ∘ g)
  | .missing _ => rfl
  | .named _ ty => by simp only [Param.moved, TypeExpr.moved_moved f g ty, move_move]

theorem Param.movedAll_movedAll (f g : Span → Span) :
    ∀ ps : List Param, Param.movedAll f (Param.movedAll g ps) = Param.movedAll (f ∘ g) ps
  | [] => rfl
  | p :: ps => by simp only [Param.movedAll, Param.moved_moved f g p, Param.movedAll_movedAll f g ps]

end

instance : Placed Expr := ⟨Expr.moved, Expr.moved_id, Expr.moved_moved⟩
instance : Placed TypeExpr := ⟨TypeExpr.moved, TypeExpr.moved_id, TypeExpr.moved_moved⟩
instance : Placed Param := ⟨Param.moved, Param.moved_id, Param.moved_moved⟩

theorem Expr.movedAll_eq (f : Span → Span) (es : List Expr) : Expr.movedAll f es = move f es := by
  induction es with
  | nil => rfl
  | cons e es ih => rw [Expr.movedAll, ih, move_cons]; rfl

theorem TypeExpr.movedAll_eq (f : Span → Span) (tys : List TypeExpr) : TypeExpr.movedAll f tys = move f tys := by
  induction tys with
  | nil => rfl
  | cons ty tys ih => rw [TypeExpr.movedAll, ih, move_cons]; rfl

theorem Param.movedAll_eq (f : Span → Span) (ps : List Param) : Param.movedAll f ps = move f ps := by
  induction ps with
  | nil => rfl
  | cons p ps ih => rw [Param.movedAll, ih, move_cons]; rfl

section

variable (f : Span → Span)

theorem Expr.move_call (t : Token) (e : Expr) (args : List Expr) :
    move f (Expr.call t e args) = .call (move f t) (move f e) (move f args) :=
  congrArg (Expr.call (move f t) (move f e)) (Expr.movedAll_eq f args)

theorem Expr.move_index (t : Token) (e : Expr) (args : List Expr) :
    move f (Expr.index t e args) = .index (move f t) (move f e) (move f args) :=
  congrArg (Expr.index (move f t) (move f e)) (Expr.movedAll_eq f args)

theorem TypeExpr.move_function (t : Token) (ps : List Param) :
    move f (TypeExpr.function t ps) = .function (move f t) (move f ps) :=
  congrArg (TypeExpr.function (move f t)) (Param.movedAll_eq f ps)

theorem TypeExpr.move_functionTo (t : Token) (ps : List Param) (start : Token) (rs : List TypeExpr) :
    move f (TypeExpr.functionTo t ps start rs) = .functionTo (move f t) (move f ps) (move f start) (move f rs) := by
  show TypeExpr.functionTo _ (Param.movedAll f ps) _ (TypeExpr.movedAll f rs) = _
  rw [Param.movedAll_eq, TypeExpr.movedAll_eq]

end

instance : Placed ExprList where
  move f l := ⟨move f l.start, move f l.items⟩
  move_id l := by simp only [move_id]
  move_move f g l := by simp only [move_move]

instance : Placed TypeList where
  move f l := ⟨move f l.start, move f l.items⟩
  move_id l := by simp only [move_id]
  move_move f g l := by simp only [move_move]

instance : Placed Name where
  move f
    | .missing t => .missing (move f t)
    | .ident t => .ident (move f t)
  move_id n := by cases n <;> rfl
  move_move _ _ n := by cases n <;> rfl

mutual

def Stmt.moved (f : Span → Span) : Stmt → Stmt
  | .missing t => .missing (move f t)
  | .block t body => .block (move f t) (Stmt.movedAll f body)
  | .ifOnly t c => .ifOnly (move f t) (move f c)
  | .ifThen t c yes => .ifThen (move f t) (move f c) (yes.moved f)
  | .ifElse t c yes no => .ifElse (move f t) (move f c) (yes.moved f) (no.moved f)
  | .whileOnly t c => .whileOnly (move f t) (move f c)
  | .while t c body => .while (move f t) (move f c) (body.moved f)
  | .return t => .return (move f t)
  | .returnWith t values => .returnWith (move f t) (move f values)
  | .exit e t => .exit e (move f t)
  | .expr t e => .expr (move f t) (move f e)
  | .exprs t es => .exprs (move f t) (move f es)
  | .swap t targets values => .swap (move f t) (move f targets) (move f values)
  | .misplaced t s => .misplaced (move f t) (s.moved f)
  | .declare t ty => .declare (move f t) (move f ty)
  | .declareAs t ty e => .declareAs (move f t) (move f ty) (move f e)
  | .define t ty brace body => .define (move f t) (move f ty) (move f brace) (Stmt.movedAll f body)
  | .external t ty => .external (move f t) (move f ty)
  | .declareMany t names types => .declareMany (move f t) (move f names) (move f types)
  | .declareManyAs t names types values => .declareManyAs (move f t) (move f names) (move f types) (move f values)
  | .record kind t fields => .record kind (move f t) (Stmt.movedAll f fields)
  | .enumeration t variants => .enumeration (move f t) (move f variants)
  | .use t path alias? => .use (move f t) (move f path) (move f alias?)

def Stmt.movedAll (f : Span → Span) : List Stmt → List Stmt
  | [] => []
  | s :: ss => s.moved f :: Stmt.movedAll f ss

end

mutual

theorem Stmt.moved_id : ∀ s : Stmt, s.moved id = s
  | .block _ body | .record _ _ body | .define _ _ _ body => by simp only [Stmt.moved, Stmt.movedAll_id body, move_id]
  | .ifThen _ _ s | .while _ _ s | .misplaced _ s => by simp only [Stmt.moved, Stmt.moved_id s, move_id]
  | .ifElse _ _ yes no => by simp only [Stmt.moved, Stmt.moved_id yes, Stmt.moved_id no, move_id]
  | .missing _ | .ifOnly _ _ | .whileOnly _ _ | .return _ | .returnWith _ _ | .exit _ _ | .expr _ _ | .exprs _ _
  | .swap _ _ _ | .declare _ _ | .declareAs _ _ _ | .external _ _ | .declareMany _ _ _ | .declareManyAs _ _ _ _
  | .enumeration _ _ | .use _ _ _ => by simp only [Stmt.moved, move_id]

theorem Stmt.movedAll_id : ∀ ss : List Stmt, Stmt.movedAll id ss = ss
  | [] => rfl
  | s :: ss => by rw [Stmt.movedAll, Stmt.moved_id s, Stmt.movedAll_id ss]

end

mutual

theorem Stmt.moved_moved (f g : Span → Span) : ∀ s : Stmt, (s.moved g).moved f = s.moved (f ∘ g)
  | .block _ body | .record _ _ body | .define _ _ _ body => by
    simp only [Stmt.moved, Stmt.movedAll_movedAll f g body, move_move]
  | .ifThen _ _ s | .while _ _ s | .misplaced _ s => by simp only [Stmt.moved, Stmt.moved_moved f g s, move_move]
  | .ifElse _ _ yes no => by simp only [Stmt.moved, Stmt.moved_moved f g yes, Stmt.moved_moved f g no, move_move]
  | .missing _ | .ifOnly _ _ | .whileOnly _ _ | .return _ | .returnWith _ _ | .exit _ _ | .expr _ _ | .exprs _ _
  | .swap _ _ _ | .declare _ _ | .declareAs _ _ _ | .external _ _ | .declareMany _ _ _ | .declareManyAs _ _ _ _
  | .enumeration _ _ | .use _ _ _ => by simp only [Stmt.moved, move_move]

theorem Stmt.movedAll_movedAll (f g : Span → Span) :
    ∀ ss : List Stmt, Stmt.movedAll f (Stmt.movedAll g ss) = Stmt.movedAll (f ∘ g) ss
  | [] => rfl
  | s :: ss => by simp only [Stmt.movedAll, Stmt.moved_moved f g s, Stmt.movedAll_movedAll f g ss]

end

instance : Placed Stmt := ⟨Stmt.moved, Stmt.moved_id, Stmt.moved_moved⟩

theorem Stmt.movedAll_eq (f : Span → Span) (ss : List Stmt) : Stmt.movedAll f ss = move f ss := by
  induction ss with
  | nil => rfl
  | cons s ss ih => rw [Stmt.movedAll, ih, move_cons]; rfl

section

variable (f : Span → Span)

theorem Stmt.move_block (t : Token) (body : List Stmt) : move f (Stmt.block t body) = .block (move f t) (move f body) :=
  congrArg (Stmt.block (move f t)) (Stmt.movedAll_eq f body)

theorem Stmt.move_define (t : Token) (ty : TypeExpr) (brace : Token) (body : List Stmt) :
    move f (Stmt.define t ty brace body) = .define (move f t) (move f ty) (move f brace) (move f body) :=
  congrArg (Stmt.define (move f t) (move f ty) (move f brace)) (Stmt.movedAll_eq f body)

theorem Stmt.move_record (kind : RecordKind) (t : Token) (fields : List Stmt) :
    move f (Stmt.record kind t fields) = .record kind (move f t) (move f fields) :=
  congrArg (Stmt.record kind (move f t)) (Stmt.movedAll_eq f fields)

end

/-! ## Outlines -/

mutual

def Outline.moved (f : Span → Span) : Outline → Outline
  | .node s k t b cs => .node s k (move f t) b (Outline.movedAll f cs)

@[simp] def Outline.movedAll (f : Span → Span) : List Outline → List Outline
  | [] => []
  | c :: cs => c.moved f :: Outline.movedAll f cs

end

namespace Outline

variable (f : Span → Span)

@[simp] theorem isError_moved (o : Outline) : (o.moved f).isError = o.isError := by
  cases o
  rfl

@[simp] theorem moved_flaw (o : Outline) : o.flaw.moved f = (o.moved f).flaw := by
  cases o
  rfl

theorem any_isError_movedAll (cs : List Outline) : (movedAll f cs).any isError = cs.any isError := by
  induction cs with
  | nil => rfl
  | cons c cs ih => simp only [movedAll, List.any_cons, isError_moved, ih]

@[simp] theorem moved_make (slot : Slot) (kind : NodeKind) (t : Token) (cs : List Outline) :
    (make slot kind t cs).moved f = make slot kind (move f t) (movedAll f cs) := by
  rw [make, moved, make, any_isError_movedAll]

theorem movedAll_append (cs ds : List Outline) : movedAll f (cs ++ ds) = movedAll f cs ++ movedAll f ds := by
  induction cs with
  | nil => rfl
  | cons c cs ih => rw [List.cons_append, movedAll, ih, movedAll, List.cons_append]

theorem movedAll_map [Placed α] {g : α → Outline} (h : ∀ a, (g a).moved f = g (move f a)) (as : List α) :
    movedAll f (as.map g) = (move f as).map g := by
  induction as with
  | nil => rfl
  | cons a as ih => rw [List.map_cons, movedAll, ih, h, move_cons, List.map_cons]

mutual

theorem same_moved : ∀ o o' : Outline, (o.moved f).same (o'.moved f) = o.same o'
  | .node _ _ _ _ cs, .node _ _ _ _ cs' => by
    rw [moved, moved, same, same, sameList_movedAll cs cs']
    rfl

theorem sameList_movedAll : ∀ os os' : List Outline, sameList (movedAll f os) (movedAll f os') = sameList os os'
  | [], [] | [], _ :: _ | _ :: _, [] => rfl
  | o :: os, o' :: os' => by rw [movedAll, movedAll, sameList, sameList, same_moved o o', sameList_movedAll os os']

end

end Outline

mutual

theorem Expr.outline_moved (f : Span → Span) : ∀ (e : Expr) (slot : Slot), (e.moved f).outline slot = (e.outline slot).moved f
  | .missing _, _ | .atom _, _ => rfl
  | .unary _ _ e, _ => by simp [Expr.moved, Expr.outline, e.outline_moved f]
  | .binary _ _ l r, _ => by
    simp [Expr.moved, Expr.outline, l.outline_moved f, r.outline_moved f]
  | .call _ e args, _ | .index _ e args, _ => by
    simp [Expr.moved, Expr.outline, e.outline_moved f, Expr.outlines_moved f args]
  | .cast _ ty e, _ => by
    simp [Expr.moved, Expr.outline, ty.outline_moved f, e.outline_moved f]
  | .castOnly _ ty, _ => by simp [Expr.moved, Expr.outline, ty.outline_moved f]
  | .unclosed e, _ => by simp only [Expr.moved, Expr.outline, Outline.moved_flaw, e.outline_moved f]

theorem Expr.outlines_moved (f : Span → Span) :
    ∀ es : List Expr, Expr.outlines (Expr.movedAll f es) = Outline.movedAll f (Expr.outlines es)
  | [] => rfl
  | e :: es => by simp [Expr.movedAll, Expr.outlines, e.outline_moved f, Expr.outlines_moved f es]

theorem TypeExpr.outline_moved (f : Span → Span) :
    ∀ (ty : TypeExpr) (slot : Slot), (ty.moved f).outline slot = (ty.outline slot).moved f
  | .missing _, _ | .name _, _ => rfl
  | .pointer _ ty, _ | .openArray _ ty, _ => by
    simp [TypeExpr.moved, TypeExpr.outline, ty.outline_moved f]
  | .array _ n ty, _ => by
    simp [TypeExpr.moved, TypeExpr.outline, n.outline_moved f, ty.outline_moved f]
  | .function _ ps, _ => by
    simp [TypeExpr.moved, TypeExpr.outline, Param.outlines_moved f ps]
  | .functionTo _ ps _ rs, _ => by
    simp [TypeExpr.moved, TypeExpr.outline, Param.outlines_moved f ps,
      TypeExpr.outlines_moved f rs]

theorem TypeExpr.outlines_moved (f : Span → Span) :
    ∀ tys : List TypeExpr, TypeExpr.outlines (TypeExpr.movedAll f tys) = Outline.movedAll f (TypeExpr.outlines tys)
  | [] => rfl
  | ty :: tys => by
    simp [TypeExpr.movedAll, TypeExpr.outlines, ty.outline_moved f, TypeExpr.outlines_moved f tys]

theorem Param.outline_moved (f : Span → Span) : ∀ p : Param, (p.moved f).outline = p.outline.moved f
  | .missing _ => rfl
  | .named _ ty => by simp [Param.moved, Param.outline, ty.outline_moved f]

theorem Param.outlines_moved (f : Span → Span) :
    ∀ ps : List Param, Param.outlines (Param.movedAll f ps) = Outline.movedAll f (Param.outlines ps)
  | [] => rfl
  | p :: ps => by simp [Param.movedAll, Param.outlines, p.outline_moved f, Param.outlines_moved f ps]

end

section

variable (f : Span → Span)

@[simp] theorem Expr.outline_move (e : Expr) (slot : Slot) : (move f e).outline slot = (e.outline slot).moved f := e.outline_moved f slot

@[simp] theorem TypeExpr.outline_move (ty : TypeExpr) (slot : Slot) : (move f ty).outline slot = (ty.outline slot).moved f :=
  ty.outline_moved f slot

@[simp] theorem ExprList.outline_move (l : ExprList) (slot : Slot) : (move f l).outline slot = (l.outline slot).moved f := by
  show Outline.make slot .exprList (move f l.start) (Expr.outlines (move f l.items)) = _
  rw [ExprList.outline, Outline.moved_make, ← Expr.outlines_moved, Expr.movedAll_eq]

@[simp] theorem TypeList.outline_move (l : TypeList) (slot : Slot) : (move f l).outline slot = (l.outline slot).moved f := by
  show Outline.make slot .typeList (move f l.start) (TypeExpr.outlines (move f l.items)) = _
  rw [TypeList.outline, Outline.moved_make, ← TypeExpr.outlines_moved, TypeExpr.movedAll_eq]

theorem Name.outline_move (n : Name) (slot : Slot) : (move f n).outline slot = (n.outline slot).moved f := by
  cases n <;> rfl

@[simp] theorem Outline.movedAll_names (ts : List Token) :
    movedAll f (ts.map (make .list .primary ·)) = (move f ts).map (make .list .primary ·) :=
  movedAll_map f (fun _ => moved_make ..) ts

end

mutual

theorem Stmt.outline_moved (f : Span → Span) : ∀ (s : Stmt) (slot : Slot), (s.moved f).outline slot = (s.outline slot).moved f
  | .missing _, _ | .return _, _ | .exit _ _, _ => rfl
  | .ifOnly _ _, _ | .whileOnly _ _, _ | .expr _ _, _ | .returnWith _ _, _ | .exprs _ _, _ | .swap _ _ _, _ | .declare _ _, _
  | .external _ _, _ | .declareAs _ _ _, _ | .declareMany _ _ _, _ | .declareManyAs _ _ _ _, _ => by
    simp [Stmt.moved, Stmt.outline]
  | .block _ body, _ | .record _ _ body, _ | .define _ _ _ body, _ => by
    simp [Stmt.moved, Stmt.outline, Stmt.outlines_moved f body]
  | .ifThen _ _ s, _ | .while _ _ s, _ | .misplaced _ s, _ => by simp [Stmt.moved, Stmt.outline, s.outline_moved f]
  | .ifElse _ _ yes no, _ => by simp [Stmt.moved, Stmt.outline, yes.outline_moved f, no.outline_moved f]
  | .enumeration _ variants, _ => by
    rw [Stmt.moved, Stmt.outline, Stmt.outline, Outline.moved_make,
      Outline.movedAll_map f fun n => (Name.outline_move f n .list).symm]
  | .use _ path alias?, _ => by
    rw [Stmt.moved, Stmt.outline, Stmt.outline, Outline.moved_make, Outline.movedAll_append,
      Outline.movedAll_map f fun n => (Name.outline_move f n .right).symm,
      Outline.movedAll_map f fun n => (Name.outline_move f n .list).symm]
    cases alias? <;> rfl

theorem Stmt.outlines_moved (f : Span → Span) :
    ∀ ss : List Stmt, Stmt.outlines (Stmt.movedAll f ss) = Outline.movedAll f (Stmt.outlines ss)
  | [] => rfl
  | s :: ss => by simp [Stmt.movedAll, Stmt.outlines, s.outline_moved f, Stmt.outlines_moved f ss]

end

@[simp] theorem Stmt.outline_move (f : Span → Span) (s : Stmt) (slot : Slot) : (move f s).outline slot = (s.outline slot).moved f :=
  s.outline_moved f slot

/-! ## Regions -/

/-- What covers two regions goes to what covers their images. -/
def Span.Steady (f : Span → Span) : Prop := ∀ s t : Span, f (s.cover t) = (f s).cover (f t)

theorem Span.steady_const (s : Span) : Steady fun _ => s := by
  intro _ _
  simp [cover, through]

theorem Span.steady_id : Steady id := fun _ _ => rfl

/-- Places that go up with their numbers, where a place may have several numbers. -/
def Position.Climbs (g : Nat → Position) : Prop := ∀ i j, i ≤ j → (g i).offset < (g j).offset ∨ g i = g j

theorem Position.Climbs.compare {g : Nat → Position} (hg : Climbs g) (i j : Nat) :
    i < j ∧ (g i).offset < (g j).offset ∨ j < i ∧ (g j).offset < (g i).offset ∨ g i = g j := by
  rcases Nat.lt_trichotomy i j with hlt | rfl | hlt
  · exact (hg i j (Nat.le_of_lt hlt)).imp (⟨hlt, ·⟩) .inr
  · exact .inr (.inr rfl)
  · exact .inr ((hg j i (Nat.le_of_lt hlt)).imp (⟨hlt, ·⟩) Eq.symm)

/-- Both ends may be moved, each by its offset, as long as no two of them change their order. -/
theorem Span.steady_of_climbs {g h : Nat → Position} (hg : Position.Climbs g) (hh : Position.Climbs h) :
    Steady fun s => ⟨g s.start.offset, h s.stop.offset⟩ := by
  intro s t
  have hstart := hg.compare s.start.offset t.start.offset
  have hstop := hh.compare s.stop.offset t.stop.offset
  unfold cover through
  grind

mutual

theorem Outline.span_moved {f : Span → Span} (hf : Span.Steady f) : ∀ o : Outline, (o.moved f).span = f o.span
  | .node _ _ t _ cs => by
    rw [Outline.moved, Outline.span, Outline.span]
    exact Outline.spanFrom_moved hf t.span cs

theorem Outline.spanFrom_moved {f : Span → Span} (hf : Span.Steady f) :
    ∀ (s : Span) (cs : List Outline), Outline.spanFrom (f s) (Outline.movedAll f cs) = f (Outline.spanFrom s cs)
  | _, [] => rfl
  | s, c :: cs => by
    rw [Outline.movedAll, Outline.spanFrom, Outline.spanFrom, Outline.span_moved hf c, ← hf,
      Outline.spanFrom_moved hf _ cs]

end

section

variable (f : Span → Span)

@[simp] theorem Expr.isError_move (e : Expr) : (move f e).isError = e.isError := by
  simp [Expr.isError]

@[simp] theorem TypeExpr.isError_move (ty : TypeExpr) : (move f ty).isError = ty.isError := by
  simp [TypeExpr.isError]

@[simp] theorem ExprList.isError_move (l : ExprList) : (move f l).isError = l.isError := by
  simp [ExprList.isError]

@[simp] theorem TypeList.isError_move (l : TypeList) : (move f l).isError = l.isError := by
  simp [TypeList.isError]

@[simp] theorem Stmt.isError_move (s : Stmt) : (move f s).isError = s.isError := by
  simp [Stmt.isError]

@[simp] theorem Stmt.same_move (s s' : Stmt) : (move f s).same (move f s') = s.same s' := by
  rw [Stmt.same, Stmt.outline_move, Stmt.outline_move, Outline.same_moved, ← Stmt.same]

variable {f} (hf : Span.Steady f)

include hf

theorem Expr.span_move (e : Expr) : (move f e).span = f e.span := by
  simp [Expr.span, Outline.span_moved hf]

theorem TypeExpr.span_move (ty : TypeExpr) : (move f ty).span = f ty.span := by
  simp [TypeExpr.span, Outline.span_moved hf]

theorem ExprList.span_move (l : ExprList) : (move f l).span = f l.span := by
  simp [ExprList.span, Outline.span_moved hf]

theorem TypeList.span_move (l : TypeList) : (move f l).span = f l.span := by
  simp [TypeList.span, Outline.span_moved hf]

theorem Stmt.span_move (s : Stmt) : (move f s).span = f s.span := by
  simp [Stmt.span, Outline.span_moved hf]

end

end Wordstack
