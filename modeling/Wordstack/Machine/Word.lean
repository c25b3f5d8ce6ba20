/-
Operations on 64-bit words. Sums and products wrap around; quotients, remainders and
comparisons read both words as signed numbers; shifts use the low six bits of the count.
-/
import Wordstack.Instr

namespace Wordstack

namespace Word

def ofBool (b : Bool) : UInt64 := if b then 1 else 0

/-- Truncated toward zero; the one quotient that does not fit wraps around. -/
def div (l r : UInt64) : UInt64 := (l.toInt64 / r.toInt64).toUInt64

/-- Has the sign of the left operand. -/
def mod (l r : UInt64) : UInt64 := (l.toInt64 % r.toInt64).toUInt64

def less (l r : UInt64) : Bool := l.toInt64 < r.toInt64

def lessEq (l r : UInt64) : Bool := l.toInt64 ≤ r.toInt64

end Word

/-- The operation on two words that an opcode stands for; there is no result for a division by
zero. -/
def Opcode.binary? : Opcode → Option (UInt64 → UInt64 → Option UInt64)
  | .add => some fun l r => some (l + r)
  | .sub => some fun l r => some (l - r)
  | .mul => some fun l r => some (l * r)
  | .div => some fun l r => if r = 0 then none else some (Word.div l r)
  | .mod => some fun l r => if r = 0 then none else some (Word.mod l r)
  | .bitAnd => some fun l r => some (l &&& r)
  | .bitOr => some fun l r => some (l ||| r)
  | .bitXor => some fun l r => some (l ^^^ r)
  | .shiftLeft => some fun l r => some (l <<< (r &&& 63))
  | .shiftRight => some fun l r => some (l >>> (r &&& 63))
  | .cmpEq => some fun l r => some (Word.ofBool (l = r))
  | .cmpNeq => some fun l r => some (Word.ofBool (l ≠ r))
  | .cmpLt => some fun l r => some (Word.ofBool (Word.less l r))
  | .cmpGt => some fun l r => some (Word.ofBool (Word.less r l))
  | .cmpLte => some fun l r => some (Word.ofBool (Word.lessEq l r))
  | .cmpGte => some fun l r => some (Word.ofBool (Word.lessEq r l))
  | _ => none

/-- The operation on one word that an opcode stands for. -/
def Opcode.unary? : Opcode → Option (UInt64 → UInt64)
  | .neg => some fun v => -v
  | .bitNot => some fun v => ~~~v
  | .logNot => some fun v => Word.ofBool (v = 0)
  | _ => none

end Wordstack
