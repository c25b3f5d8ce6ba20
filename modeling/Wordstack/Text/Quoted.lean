/-
Quoted texts, as diagnostics and listings show them. A few controls have short
escapes, every other character that would not show is written by its code point.
-/
import Wordstack.Text.Unprintable

namespace Wordstack.Text

/-- Digits of `n` in base 16, lower case, without leading zeros. -/
def hexDigits (n : Nat) : String := String.ofList (Nat.toDigits 16 n)

/-- One character of a text that stands between two `quote` characters. -/
def escape (quote c : Char) : String :=
  if c = '\x00' then "\\0"
  else if c = '\t' then "\\t"
  else if c = '\n' then "\\n"
  else if c = '\r' then "\\r"
  else if c = '\\' || c = quote then String.ofList ['\\', c]
  else if isUnprintable c then "\\u\x7b" ++ hexDigits c.toNat ++ "\x7d"
  else c.toString

/-- A character between single quotes. -/
def quoteChar (c : Char) : String := "'" ++ escape '\'' c ++ "'"

/-- A text between double quotes. -/
def quoteString (s : String) : String := "\"" ++ String.join (s.toList.map (escape '"')) ++ "\""

end Wordstack.Text
