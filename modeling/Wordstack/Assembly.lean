/-
Assembly for x86-64: the part of its instruction set that programs are written in,
and the lines of a source file.
-/
import Wordstack.Text.Quoted

namespace Wordstack.Assembly

inductive Reg
  | rax | rcx | rdx | r8 | r9 | r12 | r14 | r15 | rbp | rsp
deriving DecidableEq

/-- The whole register. -/
def Reg.text : Reg → String
  | .rax => "rax" | .rcx => "rcx" | .rdx => "rdx" | .r8 => "r8" | .r9 => "r9"
  | .r12 => "r12" | .r14 => "r14" | .r15 => "r15" | .rbp => "rbp" | .rsp => "rsp"

/-- The lower half of a register. -/
def Reg.halfText : Reg → String
  | .rax => "eax" | .rcx => "ecx" | .rdx => "edx" | .r8 => "r8d" | .r9 => "r9d"
  | .r12 => "r12d" | .r14 => "r14d" | .r15 => "r15d" | .rbp => "ebp" | .rsp => "esp"

/-- The lowest byte of a register. -/
def Reg.byteText : Reg → String
  | .rax => "al" | .rcx => "cl" | .rdx => "dl" | .r8 => "r8b" | .r9 => "r9b"
  | .r12 => "r12b" | .r14 => "r14b" | .r15 => "r15b" | .rbp => "bpl" | .rsp => "spl"

inductive Address
  /-- What a register points to. -/
  | at (r : Reg)
  | above (r : Reg) (offset : Nat)
  | below (r : Reg) (offset : UInt64)
  /-- The first free entry of the operand stack, whose base is in `r15` and whose height in `r14`. -/
  | free
  /-- The top entry of the operand stack. -/
  | top
  | symbol (name : String)
  | inSymbol (name : String) (offset : UInt64)

def Address.text : Address → String
  | .at r => "[" ++ r.text ++ "]"
  | .above r o => "[" ++ r.text ++ " + " ++ toString o ++ "]"
  | .below r o => "[" ++ r.text ++ " - " ++ toString o ++ "]"
  | .free => "[r15 + r14*8]"
  | .top => "[r15 + r14*8 - 8]"
  | .symbol s => "[" ++ s ++ "]"
  | .inSymbol s o => "[" ++ s ++ " + " ++ toString o ++ "]"

inductive Source
  | reg (r : Reg)
  | half (r : Reg)
  | byte (r : Reg)
  | imm (value : Int)
  /-- A constant in base 16. -/
  | hex (value : UInt64)
  | mem (a : Address)
  /-- Eight bytes of memory, where nothing else tells their number. -/
  | qword (a : Address)

def Source.text : Source → String
  | .reg r => r.text
  | .half r => r.halfText
  | .byte r => r.byteText
  | .imm v => toString v
  | .hex v => "0x" ++ Text.hexDigits v.toNat
  | .mem a => a.text
  | .qword a => "qword " ++ a.text

/-- Operations with two operands, the first of which takes the result. -/
inductive Binary
  | mov | lea | add | sub | imul | and | or | xor | shl | shr | test | cmp
  | cmovz | cmove | cmovne | cmovl | cmovg | cmovle | cmovge
deriving DecidableEq

def Binary.text : Binary → String
  | .mov => "mov" | .lea => "lea" | .add => "add" | .sub => "sub" | .imul => "imul"
  | .and => "and" | .or => "or" | .xor => "xor" | .shl => "shl" | .shr => "shr"
  | .test => "test" | .cmp => "cmp"
  | .cmovz => "cmovz" | .cmove => "cmove" | .cmovne => "cmovne" | .cmovl => "cmovl"
  | .cmovg => "cmovg" | .cmovle => "cmovle" | .cmovge => "cmovge"

/-- Operations on one register. -/
inductive Unary
  | inc | dec | push | pop | neg | not | idiv
deriving DecidableEq

def Unary.text : Unary → String
  | .inc => "inc" | .dec => "dec" | .push => "push" | .pop => "pop"
  | .neg => "neg" | .not => "not" | .idiv => "idiv"

/-- Operations that go on at a label. -/
inductive Transfer
  | jmp | jz | jnz | jb | call
deriving DecidableEq

def Transfer.text : Transfer → String
  | .jmp => "jmp" | .jz => "jz" | .jnz => "jnz" | .jb => "jb" | .call => "call"

/-- Operations without operands. -/
inductive Plain
  | nop | ret | cqo | ud2 | int3
deriving DecidableEq

def Plain.text : Plain → String
  | .nop => "nop" | .ret => "ret" | .cqo => "cqo" | .ud2 => "ud2" | .int3 => "int3"

inductive Op
  | plain (op : Plain)
  | unary (op : Unary) (r : Reg)
  | binary (op : Binary) (target source : Source)
  | transfer (op : Transfer) (label : String)

def Op.text : Op → String
  | .plain op => op.text
  | .unary op r => op.text ++ " " ++ r.text
  | .binary op t s => op.text ++ " " ++ t.text ++ ", " ++ s.text
  | .transfer op l => op.text ++ " " ++ l

inductive Line
  | blank
  | label (name : String)
  | op (o : Op)
  /-- A word of the data section. -/
  | word (value : UInt64)
  /-- A piece of data with a name of its own. -/
  | item (name contents : String)
  /-- A name that is defined elsewhere. -/
  | external (name : String)
  /-- Anything else that the assembler is told about the file. -/
  | directive (text : String)
  | comment (text : String)

def Line.text : Line → String
  | .blank => "\n"
  | .label name => name ++ ":\n"
  | .op o => "    " ++ o.text ++ "\n"
  | .word v => "    dq " ++ toString v ++ "\n"
  | .item name contents => name ++ ": " ++ contents ++ "\n"
  | .external name => "extern " ++ name ++ "\n"
  | .directive s => s ++ "\n"
  | .comment s => "; " ++ s ++ "\n"

/-- The text of a source file. -/
def text (lines : List Line) : String := String.join (lines.map Line.text)

/-! ## Short forms -/

def plain (op : Plain) : Line := .op (.plain op)

def unary (op : Unary) (r : Reg) : Line := .op (.unary op r)

def binary (op : Binary) (target source : Source) : Line := .op (.binary op target source)

/-- An operation on two whole registers. -/
def regs (op : Binary) (target source : Reg) : Line := binary op (.reg target) (.reg source)

def transfer (op : Transfer) (label : String) : Line := .op (.transfer op label)

end Wordstack.Assembly
