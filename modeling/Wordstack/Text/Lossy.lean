/-
Reading bytes as UTF-8 where some of them may not be. Every longest run of bytes
that begins a character but does not complete one is read as one replacement character.
-/

namespace Wordstack.Text

/-- What a leading byte asks of the bytes after it: how many continuation bytes follow, and the
range of the first of them (the others lie in 0x80 to 0xBF). -/
structure LeadByte where
  count : Nat
  low : UInt8
  high : UInt8
  bits : Nat

def leadByte? (b : UInt8) : Option LeadByte :=
  if b < 0x80 then some ⟨0, 0x80, 0xBF, b.toNat⟩
  else if b < 0xC2 then none
  else if b < 0xE0 then some ⟨1, 0x80, 0xBF, b.toNat % 0x20⟩
  else if b = 0xE0 then some ⟨2, 0xA0, 0xBF, 0⟩
  else if b = 0xED then some ⟨2, 0x80, 0x9F, b.toNat % 0x10⟩
  else if b < 0xF0 then some ⟨2, 0x80, 0xBF, b.toNat % 0x10⟩
  else if b = 0xF0 then some ⟨3, 0x90, 0xBF, 0⟩
  else if b < 0xF4 then some ⟨3, 0x80, 0xBF, b.toNat % 8⟩
  else if b = 0xF4 then some ⟨3, 0x80, 0x8F, b.toNat % 8⟩
  else none

/-- Stands for bytes that are no character. -/
def replacement : Char := '\uFFFD'

/-- Reads on inside a character: `need` continuation bytes are missing, the next one lies between
`low` and `high`, and `value` is the code point so far. With `need = 0` no character is open. -/
def lossyFrom (need : Nat) (low high : UInt8) (value : Nat) : List UInt8 → List Char
  | [] => if need = 0 then [] else [replacement]
  | b :: bs =>
    if need = 0 ∨ b < low ∨ high < b then
      let rest := match leadByte? b with
        | none => replacement :: lossyFrom 0 0x80 0xBF 0 bs
        | some ⟨0, _, _, n⟩ => Char.ofNat n :: lossyFrom 0 0x80 0xBF 0 bs
        | some ⟨k + 1, l, h, n⟩ => lossyFrom (k + 1) l h n bs
      if need = 0 then rest else replacement :: rest
    else
      let value := value * 64 + b.toNat % 64
      if need = 1 then Char.ofNat value :: lossyFrom 0 0x80 0xBF 0 bs
      else lossyFrom (need - 1) 0x80 0xBF value bs

/-- The text that the bytes spell, with a replacement character for each broken part. -/
def ofBytesLossy (bytes : List UInt8) : String := String.ofList (lossyFrom 0 0x80 0xBF 0 bytes)

end Wordstack.Text
