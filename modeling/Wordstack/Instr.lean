/-
Instructions of the stack machine. All values are 64-bit words. A binary operation
finds its left operand on top of the stack and the right one below it. A jump at index
`i` with operand `d` goes on at `i + 1 + d`.
-/
import Wordstack.Span

namespace Wordstack

inductive Opcode
  | nop
  | setupGlobal
  | pushSign
  | pushUnsign
  | pushStack
  | pushGlobal
  /-- Pushes an address among the globals, or that of a string or a function. -/
  | pushGea
  /-- Pushes an address below the base of the frame. -/
  | pushSea
  | pop
  | clone
  | framePush
  | framePop
  | alloc
  | free
  | load
  /-- Pops an address, then the value that is written there. -/
  | store
  | add | sub | mul | div | mod
  | neg
  | bitAnd | bitOr | bitXor | bitNot
  | shiftLeft | shiftRight
  | cmpEq | cmpNeq | cmpLt | cmpGt | cmpLte | cmpGte
  | logNot
  | jump
  | jumpIf
  | jumpIfNot
  | ret
  | call
  | brk
  | invalid
deriving DecidableEq

namespace Opcode

def text : Opcode → String
  | .nop => "NOP"
  | .setupGlobal => "SETUP_GLOBAL"
  | .pushSign => "PUSH_SIGN"
  | .pushUnsign => "PUSH_UNSIGN"
  | .pushStack => "PUSH_STACK"
  | .pushGlobal => "PUSH_GLOBAL"
  | .pushGea => "PUSH_GEA"
  | .pushSea => "PUSH_SEA"
  | .pop => "POP"
  | .clone => "CLONE"
  | .framePush => "STACK_FRAME_PUSH"
  | .framePop => "STACK_FRAME_POP"
  | .alloc => "ALLOC"
  | .free => "FREE"
  | .load => "LOAD"
  | .store => "STORE"
  | .add => "ADD"
  | .sub => "SUB"
  | .mul => "MUL"
  | .div => "DIV"
  | .mod => "MOD"
  | .neg => "NEG"
  | .bitAnd => "BIT_AND"
  | .bitOr => "BIT_OR"
  | .bitXor => "BIT_XOR"
  | .bitNot => "BIT_NOT"
  | .shiftLeft => "SHIFT_LEFT"
  | .shiftRight => "SHIFT_RIGHT"
  | .cmpEq => "CMP_EQ"
  | .cmpNeq => "CMP_NEQ"
  | .cmpLt => "CMP_LT"
  | .cmpGt => "CMP_GT"
  | .cmpLte => "CMP_LTE"
  | .cmpGte => "CMP_GTE"
  | .logNot => "LOG_NOT"
  | .jump => "JUMP"
  | .jumpIf => "JUMP_IF"
  | .jumpIfNot => "JUMP_IF_NOT"
  | .ret => "RET"
  | .call => "CALL"
  | .brk => "BRK"
  | .invalid => "INVALID"

def all : List Opcode :=
  [.nop, .setupGlobal, .pushSign, .pushUnsign, .pushStack, .pushGlobal, .pushGea, .pushSea,
   .pop, .clone, .framePush, .framePop, .alloc, .free, .load, .store,
   .add, .sub, .mul, .div, .mod, .neg, .bitAnd, .bitOr, .bitXor, .bitNot,
   .shiftLeft, .shiftRight, .cmpEq, .cmpNeq, .cmpLt, .cmpGt, .cmpLte, .cmpGte, .logNot,
   .jump, .jumpIf, .jumpIfNot, .ret, .call, .brk, .invalid]

def ofText? (s : String) : Option Opcode := all.find? (·.text == s)

def isJump : Opcode → Bool
  | .jump | .jumpIf | .jumpIfNot => true
  | _ => false

end Opcode

inductive Operand
  | none
  | signed (value : Int)
  | unsigned (value : UInt64)
  | label (name : String)
deriving DecidableEq

/-- A signed operand is always shown with its sign. -/
def Operand.text : Operand → String
  | .none => ""
  | .signed v => if v < 0 then toString v else "+" ++ toString v
  | .unsigned v => toString v
  | .label s => s

/-- An operation, and the part of the source that asks for it. -/
structure Command where
  op : Opcode
  operand : Operand := .none
  span : Span
deriving DecidableEq

/-- A command at its place in the code of a function. -/
structure Instr extends Command where
  index : Nat
deriving DecidableEq

/-! ## Places -/

/-- What is wanted of a place: its address, or that a value be written there. -/
inductive LvalueMode
  | address | store
deriving DecidableEq

/-- The operation that names the place from which `op` reads, and whether a `STORE` has to follow it.
Arrays and functions stand for their address already. -/
def Opcode.toLvalue? : Opcode → LvalueMode → Option (Opcode × Bool)
  | .pushStack, mode => some (.pushSea, mode = .store)
  | .pushGlobal, mode => some (.pushGea, mode = .store)
  | .load, .address => some (.nop, false)
  | .load, .store => some (.store, false)
  | .pushSea, .address => some (.pushSea, false)
  | .pushGea, .address => some (.pushGea, false)
  | _, _ => none

end Wordstack
