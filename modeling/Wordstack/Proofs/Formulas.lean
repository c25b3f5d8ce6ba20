/-
Formulas over words: what they come to, and their texts. A formula is written with all of
its parentheses as what the function `main` returns, and from that text the parser reads
the formula back, up to the places of its tokens.
-/
import Wordstack.Proofs.Meaning
import Wordstack.Proofs.Numerals
import Wordstack.Proofs.RoundTrip

namespace Wordstack

/-! ## Formulas -/

/-- Whether an operator in front of a word comes to a word again. -/
def UnaryOp.computes : UnaryOp → Bool
  | .neg | .not | .bitNot => true
  | .deref | .addressOf => false

/-- Whether an operator between words comes to a word again. -/
def BinaryOp.computes : BinaryOp → Bool
  | .assign | .member => false
  | _ => true

/-- Expressions over literals. -/
inductive Formula
  | word (v : UInt64)
  | unary (op : UnaryOp) (h : op.computes = true) (e : Formula)
  | binary (op : BinaryOp) (h : op.computes = true) (l r : Formula)

namespace Formula

/-- The value of a formula, if it does not divide by zero. Of two operands of `&&` or `||` the value is the one
that decides, and the right one does not count if the left one decides. -/
def eval : Formula → Option UInt64
  | .word v => some v
  | .unary op _ e => e.eval.bind op.apply
  | .binary .and _ l r => do
    let v ← l.eval
    if v = 0 then return v else r.eval
  | .binary .or _ l r => do
    let v ← l.eval
    if v ≠ 0 then return v else r.eval
  | .binary op _ l r => do op.apply (← l.eval) (← r.eval)

/-- A formula with all of its parentheses, and a space between any two tokens. -/
def text : Formula → String
  | .word v => toString v.toNat
  | .unary op _ e => "( " ++ op.symbol.text ++ " " ++ e.text ++ " )"
  | .binary op _ l r => "( " ++ l.text ++ " " ++ op.symbol.text ++ " " ++ r.text ++ " )"

/-- The program that returns the value of a formula. -/
def source (e : Formula) : String := "main : () -> u64 = \x7b return " ++ e.text ++ "; \x7d"

/-- A literal, as texts have it. -/
def literal (v : UInt64) : Token := ⟨.integer, toString v.toNat, default, .unsigned v⟩

def tree : Formula → Expr
  | .word v => .atom (literal v)
  | .unary op _ e => .unary op op.symbol.token e.tree
  | .binary op _ l r => .binary op op.symbol.token l.tree r.tree

end Formula

/-! ## Literals -/

theorem Formula.spelled_literal (v : UInt64) : (Formula.literal v).spelled = true := by
  have htext : (Formula.literal v).text.toList = Nat.toDigits 10 v.toNat := Nat.toList_repr
  have hnumeral : Numeral 10 [] (Nat.toDigits 10 v.toNat) []
      ((Nat.toDigits 10 v.toNat).map fun c => c.toNat - '0'.toNat) := {
    radix := .decimal
    digits := List.forall₂_map_right_iff.mpr (List.forall₂_same.mpr fun c hc =>
      Number.denotes_of_isDigit (Nat.isDigit_of_mem_toDigits (by decide) (by decide) hc))
    nonempty := Nat.toDigits_ne_nil
    ended := fun _ h => by cases h
    noFraction := fun _ _ h => by cases h
    noMark := fun _ _ _ h => by cases h }
  have hvalue : Number.horner 10 ((Nat.toDigits 10 v.toNat).map fun c => c.toNat - '0'.toNat) = v.toNat := by
    rw [Number.horner, List.foldl_map]
    exact Nat.ofDigitChars_toDigits (by decide) (by decide)
  have hmost : (Nat.toDigits 10 v.toNat).length ≤ Number.maxDigits :=
    (Nat.length_toDigits_le_iff (by decide) (by decide)).mpr (Nat.lt_trans v.toNat_lt (by decide))
  obtain ⟨c, more, hcs, hgap, hofText⟩ := hnumeral.ofText_eq
  rw [Number.meaning, hvalue, List.length_map, if_pos ⟨hmost, v.toNat_lt⟩, List.append_nil] at hofText
  rw [List.append_nil] at hgap
  unfold Token.spelled
  rw [htext, ← List.nil_append (Nat.toDigits 10 v.toNat), hcs]
  simp [hofText, hgap, Formula.literal, TokenKind.isError]

/-! ## Reading -/

theorem Expr.bareAll_eq (es : List Expr) : Expr.bareAll es = es.map Expr.bare := by
  induction es with
  | nil => rfl
  | cons e es ih => rw [Expr.bareAll, ih, List.map_cons]

theorem TypeExpr.bareAll_eq (tys : List TypeExpr) : TypeExpr.bareAll tys = tys.map TypeExpr.bare := by
  induction tys with
  | nil => rfl
  | cons ty tys ih => rw [TypeExpr.bareAll, ih, List.map_cons]

theorem Param.bareAll_eq (ps : List Param) : Param.bareAll ps = ps.map Param.bare := by
  induction ps with
  | nil => rfl
  | cons p ps ih => rw [Param.bareAll, ih, List.map_cons]

theorem Stmt.bareAll_eq (ss : List Stmt) : Stmt.bareAll ss = ss.map Stmt.bare := by
  induction ss with
  | nil => rfl
  | cons s ss ih => rw [Stmt.bareAll, ih, List.map_cons]

namespace Formula

theorem printable_tree (e : Formula) : e.tree.printable = true := by
  induction e with
  | word v => exact Bool.and_eq_true_iff.mpr ⟨spelled_literal v, rfl⟩
  | unary op _ e ih => exact ih
  | binary op _ l r ihl ihr => exact Bool.and_eq_true_iff.mpr ⟨ihl, ihr⟩

theorem asPrinted_tree (e : Formula) : e.tree.asPrinted = e.tree := by
  induction e with
  | word v => rfl
  | unary op _ e ih => exact congrArg (Expr.unary op _) ih
  | binary op _ l r ihl ihr => simp only [tree, Expr.asPrinted, ihl, ihr]

theorem spells_text (e : Formula) {cs : List Char} {ts : List Token} (hc : Separated cs) (h : Spells cs ts) :
    Spells (e.text.toList ++ cs) (e.tree.wrap e.tree.print ++ ts) := by
  induction e generalizing cs ts with
  | word v => exact .token (t := literal v) (spelled_literal v) hc h
  | unary op _ e ih =>
    have hclose := ih (.cons rfl) (.blank (.token Symbol.parenClose.spelled_token hc h))
    have hopen := Spells.token Symbol.parenOpen.spelled_token (.cons rfl)
      (.blank (.token op.symbol.spelled_token (.cons rfl) (.blank hclose)))
    simp only [text, String.toList_append, List.append_assoc, tree, Expr.wrap, Expr.print, List.cons_append, List.nil_append]
    exact hopen
  | binary op _ l r ihl ihr =>
    have hright := ihr (.cons rfl) (.blank (.token Symbol.parenClose.spelled_token hc h))
    have hleft := ihl (.cons rfl) (.blank (.token op.symbol.spelled_token (.cons rfl) (.blank hright)))
    have hopen := Spells.token Symbol.parenOpen.spelled_token (.cons rfl) (.blank hleft)
    simp only [text, String.toList_append, List.append_assoc, tree, Expr.wrap, Expr.print, List.cons_append, List.nil_append]
    exact hopen

/-- The function that returns the value of a formula. -/
def item (e : Formula) : Stmt :=
  .define (.ofName "main") (.functionTo Symbol.parenOpen.token [] Primitive.u64.token [.name Primitive.u64.token])
    Symbol.curlyOpen.token
    [.returnWith Keyword.returnWord.token ⟨firstOf (e.tree.wrap e.tree.print), [e.tree]⟩]

theorem printAll_item (e : Formula) :
    Stmt.printAll [e.item] = Token.ofName "main" :: Symbol.colon.token :: Symbol.parenOpen.token ::
      Symbol.parenClose.token :: Symbol.arrow.token :: Primitive.u64.token :: Symbol.assign.token ::
      Symbol.curlyOpen.token :: Keyword.returnWord.token ::
      (e.tree.wrap e.tree.print ++ [Symbol.semicolon.token, Symbol.curlyClose.token]) := by
  simp only [Stmt.printAll, item, Stmt.print, TypeExpr.print, Param.printEach, TypeExpr.printEach, separated,
    ExprList.print, Expr.printEach, List.append_nil, List.nil_append, List.cons_append, List.append_assoc]
  rfl

theorem spells_source (e : Formula) : Spells e.source.toList (Stmt.printAll [e.item]) := by
  have hend : Spells "; \x7d".toList [Symbol.semicolon.token, Symbol.curlyClose.token] :=
    .token Symbol.semicolon.spelled_token (.cons rfl) (.blank (.token Symbol.curlyClose.spelled_token .nil .nil))
  have hreturn := Spells.token Keyword.returnWord.spelled_token (.cons rfl) (.blank (e.spells_text (.cons rfl) hend))
  have hbody := Spells.token Symbol.assign.spelled_token (.cons rfl)
    (.blank (.token Symbol.curlyOpen.spelled_token (.cons rfl) (.blank hreturn)))
  have htype := Spells.token Symbol.parenOpen.spelled_token (.cons rfl) (.token Symbol.parenClose.spelled_token (.cons rfl)
    (.blank (.token Symbol.arrow.spelled_token (.cons rfl)
      (.blank (.token (t := Primitive.u64.token) (by decide) (.cons rfl) (.blank hbody))))))
  have hname := Spells.token (t := .ofName "main") (by decide) (.cons rfl)
    (.blank (.token Symbol.colon.spelled_token (.cons rfl) (.blank htype)))
  have hprefix : "main : () -> u64 = \x7b return ".toList = "main".toList ++ ' ' :: (":".toList ++ ' ' :: ("(".toList ++
      (")".toList ++ ' ' :: ("->".toList ++ ' ' :: ("u64".toList ++ ' ' :: ("=".toList ++ ' ' :: ("\x7b".toList ++ ' ' ::
        ("return".toList ++ [' ']))))))) ) := by decide
  have hsource : e.source.toList = "main : () -> u64 = \x7b return ".toList ++ e.text.toList ++ "; \x7d".toList :=
    String.toList_append.trans (congrArg (· ++ _) String.toList_append)
  rw [printAll_item, hsource, hprefix]
  simp only [List.append_assoc, List.cons_append, List.nil_append]
  exact hname

theorem asPrinted_item (e : Formula) : e.item.asPrinted = e.item := by
  simp only [item, Stmt.asPrinted, Stmt.eachAsPrinted, ExprList.asPrinted, Expr.eachAsPrinted, asPrinted_tree]
  rfl

theorem printable_item (e : Formula) : e.item.printable = true := by
  simp only [item, Stmt.printable, Stmt.allPrintable, ExprList.printable, Expr.allPrintable, printable_tree, Bool.and_true,
    List.isEmpty_cons, Bool.not_false]
  decide

theorem parse_source (e : Formula) : (parse e.source).errors = [] ∧ (parse e.source).roots.map Stmt.bare = [e.item] := by
  have hread := parse_of_spells [e.item] (by simpa using ⟨rfl, e.printable_item⟩) e.spells_source
  rwa [List.map_cons, List.map_nil, asPrinted_item] at hread

theorem exists_of_bare_type {ty : TypeExpr} {t start word : Token} (h : ty.bare = .functionTo t [] start [.name word]) :
    ∃ t start u, ty = .functionTo t [] start [.name u] ∧ u.bare = word := by
  cases ty with
  | functionTo t ps start rs =>
    simp only [TypeExpr.bare, TypeExpr.functionTo.injEq, Param.bareAll_eq, TypeExpr.bareAll_eq] at h
    obtain ⟨-, hps, -, hrs⟩ := h
    obtain rfl := List.map_eq_nil_iff.mp hps
    obtain ⟨r, rfl, hr⟩ := List.map_eq_singleton_iff.mp hrs
    cases r with
    | name u => exact ⟨t, start, u, rfl, TypeExpr.name.inj hr⟩
    | _ => cases hr
  | _ => cases h

theorem exists_of_bare_body {body : List Stmt} {t start : Token} {e : Expr}
    (h : Stmt.bareAll body = [.returnWith t ⟨start, [e]⟩]) :
    ∃ t start e', body = [.returnWith t ⟨start, [e']⟩] ∧ e'.bare = e := by
  rw [Stmt.bareAll_eq] at h
  obtain ⟨s, rfl, hs⟩ := List.map_eq_singleton_iff.mp h
  cases s with
  | returnWith t es =>
    obtain ⟨start, es⟩ := es
    simp only [Stmt.bare, Stmt.returnWith.injEq, ExprList.bare, ExprList.mk.injEq, Expr.bareAll_eq] at hs
    obtain ⟨e', rfl, he'⟩ := List.map_eq_singleton_iff.mp hs.2.2
    exact ⟨t, start, e', rfl, he'⟩
  | _ => cases hs

/-- The function made for a formula is read, wherever its tokens stand. -/
theorem exists_of_bare_item {e : Formula} {s : Stmt} (h : s.bare = e.item) : ∃ name t start u brace t' start' e',
      s = .define name (.functionTo t [] start [.name u]) brace [.returnWith t' ⟨start', [e']⟩] ∧
        name.text = "main" ∧ u.kind = .primitive .u64 ∧ e'.bare = e.tree := by
  unfold item at h
  cases s with
  | define name ty brace body =>
    simp only [Stmt.bare, Stmt.define.injEq] at h
    obtain ⟨hname, hty, -, hbody⟩ := h
    obtain ⟨t, start, u, rfl, hu⟩ := exists_of_bare_type hty
    obtain ⟨t', start', e', rfl, he'⟩ := exists_of_bare_body hbody
    exact ⟨name, t, start, u, brace, t', start', e', rfl, congrArg Token.text hname, Token.kind_of_bare hu, he'⟩
  | _ => cases h

end Formula

end Wordstack
