/-
Functions that every program may call without declaring them.
-/

namespace Wordstack

inductive Builtin
  | putchar
deriving DecidableEq

namespace Builtin

def name : Builtin → String
  | .putchar => "putchar"

def params : Builtin → Nat
  | .putchar => 1

def returns : Builtin → Nat
  | .putchar => 0

def ofName? (s : String) : Option Builtin := [putchar].find? (·.name == s)

end Builtin
end Wordstack
