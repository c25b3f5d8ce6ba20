/-
Number literals: digits in a base, their value, and the double that a decimal
fraction stands for.
-/

namespace Wordstack.Number

/-- The most digits that the whole part or the fraction of a literal may have. -/
def maxDigits : Nat := 64

/-- The value of the digit `c`, if it is one of the `base` digits. -/
def digit? (base : Nat) (c : Char) : Option Nat :=
  let value? :=
    if '0' ≤ c ∧ c ≤ '9' then some (c.toNat - '0'.toNat)
    else if 'a' ≤ c ∧ c ≤ 'f' then some (c.toNat - 'a'.toNat + 10)
    else if 'A' ≤ c ∧ c ≤ 'F' then some (c.toNat - 'A'.toNat + 10)
    else none
  value?.filter (· < base)

/-- The values of the digits that a text starts with. -/
def digits (base : Nat) : List Char → List Nat
  | [] => []
  | c :: cs =>
    match digit? base c with
    | some d => d :: digits base cs
    | none => []

/-- A number as a word, if it fits. -/
def word? (n : Nat) : Option UInt64 := if n < UInt64.size then some n.toUInt64 else none

/-- The value of a digit string: each digit times the power of the base that its place stands for, added up from the last
place on. Powers, terms and sums all have to fit a word; a zero takes none of them, however high its place. -/
def value? (base : Nat) : List Nat → Option UInt64
  | [] => some 0
  | d :: ds => do
    let sum ← value? base ds
    if d = 0 then return sum
    else
      let weight ← word? (Nat.pow base ds.length)
      let term ← word? (d * weight.toNat)
      word? (sum.toNat + term.toNat)

/-- `a` to the power `n` by repeated squaring, times `r`; every product is rounded. -/
def powerTimes (r a : Float) (n : Nat) : Float :=
  let r := if n % 2 = 1 then r * a else r
  if n / 2 = 0 then r else powerTimes r (a * a) (n / 2)
termination_by n
decreasing_by omega

/-- The double nearest to whole part plus fraction, rounding after every operation. -/
def decimal (whole : UInt64) (fraction : List Nat) : Float :=
  let numerator := fraction.foldl (fun acc d => acc * 10 + Float.ofNat d) 0
  whole.toFloat + numerator / powerTimes 1 10 fraction.length

end Wordstack.Number
