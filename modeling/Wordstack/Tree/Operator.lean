/-
The operators of expressions.

Every infix operator has a left and a right power. An operator is taken into the
expression that is being read if its left power is at least the power asked for, and its
right power is what its right operand is read with. A higher power binds tighter; an
operator whose right power is the higher one groups to the left.
-/
import Wordstack.Tree

namespace Wordstack

/-- Left and right power of an infix operator. -/
def BinaryOp.powers : BinaryOp → Nat × Nat
  | .assign => (2, 1)
  | .or => (5, 6)
  | .and => (7, 8)
  | .greater | .less | .greaterEq | .lessEq | .equals | .notEquals => (9, 10)
  | .add | .sub => (11, 12)
  | .mul | .div | .mod => (13, 14)
  | .shiftLeft | .shiftRight => (15, 16)
  | .bitXor => (17, 18)
  | .bitOr => (19, 20)
  | .bitAnd => (21, 22)
  | .member => (28, 27)

/-- The infix operator that a symbol stands for. -/
def BinaryOp.ofSymbol? : Symbol → Option BinaryOp
  | .assign => some .assign
  | .orOr => some .or
  | .andAnd => some .and
  | .greater => some .greater
  | .less => some .less
  | .greaterEq => some .greaterEq
  | .lessEq => some .lessEq
  | .equals => some .equals
  | .notEquals => some .notEquals
  | .plus => some .add
  | .minus => some .sub
  | .star => some .mul
  | .slash => some .div
  | .percent => some .mod
  | .shiftLeft => some .shiftLeft
  | .shiftRight => some .shiftRight
  | .caret => some .bitXor
  | .pipe => some .bitOr
  | .ampersand => some .bitAnd
  | .dot => some .member
  | _ => none

/-- The operator that a symbol stands for in front of its operand. -/
def UnaryOp.ofSymbol? : Symbol → Option UnaryOp
  | .minus => some .neg
  | .bang => some .not
  | .tilde => some .bitNot
  | .caret => some .deref
  | .at => some .addressOf
  | _ => none

namespace Rule

/-- The power that the operand of a unary operator is read with. -/
def unaryPower : Nat := 23

/-- The power of calls and indexing. -/
def callPower : Nat := 25

/-- The power that the operand of a cast is read with. -/
def castPower : Nat := 3

/-- The power that the members of a list are read with, which keeps assignments out. -/
def memberPower : Nat := 3

end Rule
end Wordstack
