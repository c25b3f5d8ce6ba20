/-
Programs of the stack machine as assembly. The operand stack is a region of its own,
with its base in `r15` and its height in `r14`; frames are frames of the processor's stack.
Every instruction has a label, so that a jump goes to a label.
-/
import Wordstack.Assembly
import Wordstack.Program

namespace Wordstack.Assembly

/-- The words that the operand stack can hold. -/
def operandStackWords : Nat := 65536

/-- A larger piece of stack than this is touched page by page before it is used. -/
def pageSize : UInt64 := 4096

def initLabel : String := "solum_init"

def putcharLabel : String := "solum_putchar"

def probeLabel : String := "solum_probe"

def functionLabel (name : String) : String := "fn_" ++ name

def indexLabel (i : Nat) : String := s!".IROP_{i}"

/-- Pushes `rax` to the operand stack. -/
def pushRax : List Line := [binary .mov (.mem .free) (.reg .rax), unary .inc .r14]

/-- Pops the operand stack to a register. -/
def popTo (r : Reg) : List Line := [unary .dec .r14, binary .mov (.reg r) (.mem .free)]

/-! ## Instructions -/

/-- Leaves one in `rax` if a comparison has the given outcome, and zero otherwise. -/
def compare (outcome : Binary) : List Line :=
  [binary .mov (.half .rdx) (.imm 1), regs .cmp .rax .rcx, binary .mov (.half .rax) (.imm 0),
   regs outcome .rax .rdx]

/-- Combines the left value in `rax` and the right one in `rcx`; the result is in `rax`. -/
def combine? : Opcode → Option (List Line)
  | .add => some [regs .add .rax .rcx]
  | .sub => some [regs .sub .rax .rcx]
  | .mul => some [regs .imul .rax .rcx]
  | .div => some [plain .cqo, unary .idiv .rcx]
  | .mod => some [plain .cqo, unary .idiv .rcx, regs .mov .rax .rdx]
  | .bitAnd => some [regs .and .rax .rcx]
  | .bitOr => some [regs .or .rax .rcx]
  | .bitXor => some [regs .xor .rax .rcx]
  | .shiftLeft => some [binary .shl (.reg .rax) (.byte .rcx)]
  | .shiftRight => some [binary .shr (.reg .rax) (.byte .rcx)]
  | .cmpEq => some (compare .cmove)
  | .cmpNeq => some (compare .cmovne)
  | .cmpLt => some (compare .cmovl)
  | .cmpGt => some (compare .cmovg)
  | .cmpLte => some (compare .cmovle)
  | .cmpGte => some (compare .cmovge)
  | _ => none

/-- Changes the value in `rax`. -/
def change? : Opcode → Option (List Line)
  | .neg => some [unary .neg .rax]
  | .bitNot => some [unary .not .rax]
  | .logNot =>
    some [regs .test .rax .rax, binary .mov (.half .rdx) (.imm 1),
      binary .mov (.half .rax) (.imm 0), regs .cmovz .rax .rdx]
  | _ => none

/-- The symbol that stands for a string, a function or a builtin. -/
def symbol? (p : Program) (name : String) : Option String :=
  if (p.strings.lookup? name).isSome then some name
  else
    match p.function? name with
    | some f => some (if f.external then f.name else functionLabel f.name)
    | none => (Builtin.ofName? name).map fun _ => putcharLabel

def argumentRegisters : List Reg := [.rcx, .rdx, .r8, .r9]

/-- The stack that a call of a function with so many stacked arguments reserves. -/
def callReserve (stacked : Nat) : Nat := (32 + 8 * stacked + 15) / 16 * 16

/-- Calls a function that is defined elsewhere: four arguments in registers, the others above 32 bytes
that belong to the callee, the stack aligned. -/
def externalCall (f : Function) : List Line :=
  let stacked := f.params - argumentRegisters.length
  (argumentRegisters.take f.params).flatMap popTo ++
  [regs .mov .r12 .rsp, binary .and (.reg .rsp) (.imm (-16)),
   binary .sub (.reg .rsp) (.imm (callReserve stacked))] ++
  (List.range stacked).flatMap (fun slot =>
    popTo .rax ++ [binary .mov (.mem (.above .rsp (32 + 8 * slot))) (.reg .rax)]) ++
  [transfer .call f.name, regs .mov .rsp .r12] ++
  (if f.returns > 0 then pushRax else [])

def callNamed (p : Program) (name : String) : List Line :=
  match p.function? name with
  | some f => if f.external then externalCall f else [transfer .call (functionLabel f.name)]
  | none =>
    match Builtin.ofName? name with
    | some .putchar => [transfer .call putcharLabel]
    | none => [plain .ud2]

/-- A jump to the label of its target; one that leaves the function does not execute. -/
def jumpLines (f : Function) (i : Instr) (op : Transfer) (lead : List Line) : List Line :=
  match (f.jumpTarget? i.index).filter (· ≤ f.length) with
  | some t => lead ++ [transfer op (indexLabel t)]
  | none => [plain .ud2]

/-- Pops a condition and tests it. -/
def testTop : List Line := popTo .rax ++ [regs .test .rax .rax]

/-- The lines of an instruction. What the machine would trap on does not execute here either. -/
def instrLines (p : Program) (f : Function) (i : Instr) : List Line :=
  match i.op, i.operand with
  | .nop, _ => [plain .nop]
  | .setupGlobal, _ => [binary .lea (.reg .r15) (.mem (.symbol "exec_stack")), regs .xor .r14 .r14]
  | .pushSign, .signed v => binary .mov (.reg .rax) (.imm v) :: pushRax
  | .pushUnsign, .unsigned v =>
    let source := if v < 0x8000000000000000 then Source.imm v.toNat else .hex v
    binary .mov (.reg .rax) source :: pushRax
  | .pushStack, .unsigned o => binary .mov (.reg .rax) (.mem (.below .rbp o)) :: pushRax
  | .pushGlobal, .unsigned o =>
    binary .mov (.reg .rax) (.mem (.inSymbol "globals" o)) :: pushRax
  | .pushGea, .unsigned o => binary .lea (.reg .rax) (.mem (.inSymbol "globals" o)) :: pushRax
  | .pushGea, .label name =>
    match symbol? p name with
    | some s => binary .lea (.reg .rax) (.mem (.symbol s)) :: pushRax
    | none => [plain .ud2]
  | .pushSea, .unsigned o => binary .lea (.reg .rax) (.mem (.below .rbp o)) :: pushRax
  | .pop, _ => [unary .dec .r14]
  | .clone, _ => binary .mov (.reg .rax) (.mem .top) :: pushRax
  | .framePush, _ => [unary .push .rbp, regs .mov .rbp .rsp]
  | .framePop, _ => [regs .mov .rsp .rbp, unary .pop .rbp]
  | .alloc, .unsigned n =>
    (if n > pageSize then
      [binary .mov (.reg .rax) (.imm n.toNat), transfer .call probeLabel] else []) ++
    [binary .sub (.reg .rsp) (.imm n.toNat)]
  | .free, .unsigned n => [binary .add (.reg .rsp) (.imm n.toNat)]
  | .load, _ => popTo .rax ++ [binary .mov (.reg .rax) (.mem (.at .rax))] ++ pushRax
  | .store, _ => popTo .rax ++ popTo .rcx ++ [binary .mov (.mem (.at .rax)) (.reg .rcx)]
  | .jump, _ => jumpLines f i .jmp []
  | .jumpIf, _ => jumpLines f i .jnz testTop
  | .jumpIfNot, _ => jumpLines f i .jz testTop
  | .ret, _ => [plain .ret]
  | .call, .label name => callNamed p name
  | .brk, _ => [plain .int3]
  | op, _ =>
    match change? op, combine? op with
    | some lines, _ => popTo .rax ++ lines ++ pushRax
    | none, some lines => popTo .rax ++ popTo .rcx ++ lines ++ pushRax
    | none, none => [plain .ud2]

/-- A function: its instructions, each behind its label, and a return at the end. -/
def functionLines (p : Program) (label : String) (f : Function) : List Line :=
  [.comment f.name, .label label] ++
  f.code.toList.flatMap (fun i => .label (indexLabel i.index) :: instrLines p f i) ++
  [.label (indexLabel f.length), plain .ret, .blank]

/-! ## Files -/

def header (p : Program) : List Line :=
  [.directive "bits 64", .directive "default rel", .blank,
   .external "GetStdHandle", .external "WriteConsoleA", .external "ExitProcess"] ++
  ((p.functions.filter (·.external)).map fun f => .external f.name) ++
  [.blank, .directive "global mainCRTStartup", .blank]

def data (p : Program) : List Line :=
  [.directive "section .bss", .item "exec_stack" s!"resq {operandStackWords}",
   .item "write_count" "resd 1", .item "char_buffer" "resb 8", .blank,
   .directive "section .data", .label "globals"] ++
  (if p.globals.isEmpty then [.word 0] else p.globals.map .word) ++
  (p.strings.entries.map fun (label, bytes) =>
    .item label ("db " ++ String.intercalate ", " (bytes.map toString))) ++
  [.blank]

/-- Where a program starts: it runs the code for the globals and then `main`, whose value, if it leaves
one, becomes the exit code. -/
def entryPoint (p : Program) : List Line :=
  [.label "mainCRTStartup", binary .and (.reg .rsp) (.imm (-16)), transfer .call initLabel,
   binary .xor (.half .rcx) (.half .rcx)] ++
  (if (p.function? "main").any (!·.external) then
    [transfer .call (functionLabel "main"), binary .xor (.half .rcx) (.half .rcx),
     regs .test .r14 .r14, transfer .jz ".exit"] ++ popTo .rcx ++ [.label ".exit"]
   else []) ++
  [binary .and (.reg .rsp) (.imm (-16)), binary .sub (.reg .rsp) (.imm 32),
   transfer .call "ExitProcess", .blank]

/-- Pops a value and writes its lowest byte. -/
def putcharRoutine : List Line :=
  [.label putcharLabel] ++ popTo .rax ++
  [binary .mov (.mem (.symbol "char_buffer")) (.byte .rax), unary .push .r12,
   regs .mov .r12 .rsp, binary .and (.reg .rsp) (.imm (-16)),
   binary .sub (.reg .rsp) (.imm 48), binary .mov (.half .rcx) (.imm (-11)),
   transfer .call "GetStdHandle", regs .mov .rcx .rax,
   binary .lea (.reg .rdx) (.mem (.symbol "char_buffer")), binary .mov (.half .r8) (.imm 1),
   binary .lea (.reg .r9) (.mem (.symbol "write_count")),
   binary .mov (.qword (.above .rsp 32)) (.imm 0), transfer .call "WriteConsoleA",
   regs .mov .rsp .r12, unary .pop .r12, plain .ret, .blank]

/-- Touches every page of the `rax` bytes below the stack pointer of the caller. -/
def probeRoutine : List Line :=
  [.label probeLabel, unary .push .rcx, unary .push .rdx,
   binary .lea (.reg .rcx) (.mem (.above .rsp 24)), regs .mov .rdx .rcx, regs .sub .rdx .rax,
   .label ".next_page", binary .sub (.reg .rcx) (.imm pageSize.toNat), regs .cmp .rcx .rdx,
   transfer .jb ".last_page", binary .test (.mem (.at .rcx)) (.reg .rcx),
   transfer .jmp ".next_page", .label ".last_page",
   binary .test (.mem (.at .rdx)) (.reg .rdx), unary .pop .rdx, unary .pop .rcx, plain .ret,
   .blank]

/-- All lines of a program. -/
def ofProgram (p : Program) : List Line :=
  header p ++ data p ++ [.directive "section .text"] ++ entryPoint p ++ putcharRoutine ++
  probeRoutine ++ functionLines p initLabel p.init ++
  (p.functions.filter (!·.external)).flatMap fun f => functionLines p (functionLabel f.name) f

end Wordstack.Assembly
