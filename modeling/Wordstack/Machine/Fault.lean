/-
What can stop a machine.
-/
import Wordstack.Instr
import Wordstack.Text.Quoted

namespace Wordstack

inductive Fault
  | stackUnderflow (function : String) (index : Nat)
  | trap (function : String) (index : Nat) (op : Opcode)
  | badAddress (address : UInt64)
  | badJump (function : String) (index : Nat)
  | stackOverflow
  | unknownFunction (name : String)
  | externalFunction (name : String)
  | divisionByZero (function : String) (index : Nat)
  | outOfFuel (steps : Nat)
deriving DecidableEq

def Fault.message : Fault → String
  | .stackUnderflow f i => s!"operand stack underflow in `{f}` at instruction {i}"
  | .trap f i op => "`" ++ op.text ++ s!"` trapped in `{f}` at instruction {i}"
  | .badAddress a => "bad memory access at 0x" ++ Text.hexDigits a.toNat
  | .badJump f i => s!"jump out of bounds in `{f}` at instruction {i}"
  | .stackOverflow => "native stack overflow"
  | .unknownFunction name => s!"unknown function `{name}`"
  | .externalFunction name => s!"external function `{name}` cannot be interpreted"
  | .divisionByZero f i => s!"division by zero in `{f}` at instruction {i}"
  | .outOfFuel n => s!"out of fuel after {n} instructions"

end Wordstack
