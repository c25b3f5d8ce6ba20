/-
The stack machine. Memory holds the globals, the string literals and, growing down
from its end, a stack of frames; values are computed on an operand stack of their own.
Every instruction costs one unit of fuel.
-/
import Wordstack.Machine.Fault
import Wordstack.Machine.Memory
import Wordstack.Machine.Word
import Wordstack.Program

namespace Wordstack

/-- A function that is being executed, and where. -/
structure Frame where
  function : Function
  pc : Nat

structure Machine where
  program : Program
  memory : Memory
  /-- The address of each string literal. -/
  strings : List UInt64
  /-- The lowest address that the stack of frames may reach. -/
  stackLimit : UInt64
  stackTop : UInt64
  rsp : UInt64
  rbp : UInt64
  /-- The operand stack, top first. -/
  stack : List UInt64 := []
  fuel : Nat
  steps : Nat := 0
  /-- Whether the globals have been given their first values, or at least it has been tried. -/
  initialized : Bool := false
  output : Array UInt8 := #[]

namespace Machine

/-- The bytes that the stack of frames may take. -/
def stackSize : Nat := 0x100000

/-- Functions have addresses outside of memory. -/
def functionBase : UInt64 := 0x7f0000000000

/-- Stands for the return address of a call. -/
def returnMarker : UInt64 := 0x5e1f000000000000

def defaultFuel : Nat := 10000000

/-- The addresses of texts that lie in memory one after the other. -/
def stringAddresses (start : UInt64) : List (List UInt8) → List UInt64
  | [] => []
  | b :: bs => start :: stringAddresses (start + b.length.toUInt64) bs

/-- The next multiple of 16. -/
def roundUp (n : Nat) : Nat := (n + 15) / 16 * 16

/-- A machine that is about to run a program. -/
def ofProgram (p : Program) (fuel : Nat := defaultFuel) : Machine :=
  let globals := p.globals.flatMap Memory.wordBytes
  let texts := p.strings.texts.map StringTable.bytes
  let data := globals ++ texts.flatten
  let limit := roundUp data.length
  let bytes := data.toArray ++ Array.replicate (limit - data.length + stackSize) 0
  let top := Memory.base + bytes.size.toUInt64
  { program := p
    memory := ⟨bytes⟩
    strings := stringAddresses (Memory.base + globals.length.toUInt64) texts
    stackLimit := Memory.base + limit.toUInt64
    stackTop := top
    rsp := top
    rbp := top
    fuel }

/-- Computations on a machine. A fault leaves the machine as it was at that time. -/
abbrev Exec := EStateM Fault Machine

/-! ## Memory and stacks -/

def load (address : UInt64) : Exec UInt64 := do
  match (← get).memory.load? address with
  | some w => return w
  | none => throw (.badAddress address)

def store (address value : UInt64) : Exec Unit := do
  match (← get).memory.offset? address with
  | some i => modify fun m => { m with memory := m.memory.setWordAt i value }
  | none => throw (.badAddress address)

/-- Lets the stack of frames grow down by some bytes. -/
def growStack (bytes : UInt64) : Exec UInt64 := do
  let m ← get
  if bytes ≤ m.rsp ∧ m.stackLimit ≤ m.rsp - bytes then return m.rsp - bytes
  else throw .stackOverflow

def setRsp (rsp : UInt64) : Exec Unit := modify fun m => { m with rsp }

def setRbp (rbp : UInt64) : Exec Unit := modify fun m => { m with rbp }

def pushNative (value : UInt64) : Exec Unit := do
  let rsp ← growStack 8
  setRsp rsp
  store rsp value

def popNative : Exec UInt64 := do
  let value ← load (← get).rsp
  modify fun m => { m with rsp := m.rsp + 8 }
  return value

def push (value : UInt64) : Exec Unit := modify fun m => { m with stack := value :: m.stack }

/-- Pops a value for the instruction `i` of `f`. -/
def pop (f : Function) (i : Instr) : Exec UInt64 := do
  match (← get).stack with
  | [] => throw (.stackUnderflow f.name i.index)
  | v :: rest =>
    modify fun m => { m with stack := rest }
    return v

def clearStack : Exec Unit := modify fun m => { m with stack := [] }

/-- What the name of a string, a function or a builtin stands for when it is used as a value. -/
def labelAddress (name : String) : Exec UInt64 := do
  let m ← get
  match m.program.strings.lookup? name with
  | some i => return m.strings.getD i 0
  | none =>
    match m.program.functions.findIdx? (·.name == name) with
    | some i => return functionBase + 16 * i.toUInt64
    | none =>
      match Builtin.ofName? name with
      | some _ => return functionBase - 16
      | none => throw (.unknownFunction name)

/-! ## Instructions -/

/-- Where execution goes on. -/
inductive Next
  | frame (f : Frame)
  | call (f : Function)
  | ret

/-- Executes the instruction `i` of the function that `frame` stands in; `frame` is past it. -/
def exec (frame : Frame) (i : Instr) : Exec Next := do
  let f := frame.function
  let pop := pop f i
  match i.op, i.operand with
  | .nop, _ => return .frame frame
  | .setupGlobal, _ => clearStack; return .frame frame
  | .pushSign, .signed v => push (UInt64.ofInt v); return .frame frame
  | .pushUnsign, .unsigned v => push v; return .frame frame
  | .pushStack, .unsigned o => push (← load ((← get).rbp - o)); return .frame frame
  | .pushGlobal, .unsigned o => push (← load (Memory.base + o)); return .frame frame
  | .pushGea, .unsigned o => push (Memory.base + o); return .frame frame
  | .pushGea, .label name => push (← labelAddress name); return .frame frame
  | .pushSea, .unsigned o => push ((← get).rbp - o); return .frame frame
  | .pop, _ => let _ ← pop; return .frame frame
  | .clone, _ =>
    let v ← pop
    push v
    push v
    return .frame frame
  | .framePush, _ =>
    pushNative (← get).rbp
    setRbp (← get).rsp
    return .frame frame
  | .framePop, _ =>
    setRsp (← get).rbp
    setRbp (← popNative)
    return .frame frame
  | .alloc, .unsigned n => setRsp (← growStack n); return .frame frame
  | .free, .unsigned n =>
    let m ← get
    if m.rsp.toNat + n.toNat ≤ m.stackTop.toNat then
      setRsp (m.rsp + n)
      return .frame frame
    else throw (.badAddress m.rsp)
  | .load, _ => push (← load (← pop)); return .frame frame
  | .store, _ =>
    let address ← pop
    let value ← pop
    store address value
    return .frame frame
  | .jump, _ => jump
  | .jumpIf, _ => if (← pop) ≠ 0 then jump else return .frame frame
  | .jumpIfNot, _ => if (← pop) = 0 then jump else return .frame frame
  | .ret, _ => return .ret
  | .call, .label name =>
    match (← get).program.function? name with
    | some g => if g.external then throw (.externalFunction name) else return .call g
    | none =>
      match Builtin.ofName? name with
      | some .putchar =>
        let v ← pop
        modify fun m => { m with output := m.output.push v.toUInt8 }
        return .frame frame
      | none => throw (.unknownFunction name)
  | op, _ =>
    match op.unary?, op.binary? with
    | some apply, _ => push (apply (← pop)); return .frame frame
    | none, some apply =>
      let left ← pop
      let right ← pop
      match apply left right with
      | some v => push v; return .frame frame
      | none => throw (.divisionByZero f.name i.index)
    | none, none => throw (.trap f.name i.index op)
where
  jump : Exec Next := do
    let f := frame.function
    match f.jumpTarget? i.index with
    | some t =>
      if t ≤ f.length then return .frame { frame with pc := t }
      else throw (.badJump f.name i.index)
    | none => throw (.badJump f.name i.index)

/-! ## Runs -/

/-- Leaves the frames that are at the end of their code, as a return would. Nothing is left if the
last of them is. -/
def unwind (frame : Frame) (callers : List Frame) : Exec (Option (Instr × Frame × List Frame)) :=
  match frame.function.code[frame.pc]? with
  | some i => return some (i, frame, callers)
  | none => do
    let _ ← popNative
    match callers with
    | [] => return none
    | caller :: rest => unwind caller rest

/-- Executes up to `fuel` instructions. -/
def runFrom : (fuel : Nat) → Frame → List Frame → Exec Unit
  | 0, _, _ => do throw (.outOfFuel (← get).steps)
  | n + 1, frame, callers => do
    match ← unwind frame callers with
    | none => return ()
    | some (i, frame, callers) =>
      modify fun m => { m with fuel := n, steps := m.steps + 1 }
      match ← exec { frame with pc := frame.pc + 1 } i with
      | .frame frame => runFrom n frame callers
      | .call g =>
        pushNative returnMarker
        runFrom n ⟨g, 0⟩ ({ frame with pc := frame.pc + 1 } :: callers)
      | .ret =>
        let _ ← popNative
        match callers with
        | [] => return ()
        | caller :: rest => runFrom n caller rest

/-- Runs a function from its start on an empty stack of frames. -/
def run (f : Function) : Exec Unit := do
  modify fun m => { m with rsp := m.stackTop, rbp := m.stackTop }
  pushNative returnMarker
  runFrom (← get).fuel ⟨f, 0⟩ []

/-- Runs the function `name` and takes what it leaves on the operand stack, the lowest value first.
The first call gives the globals their values before it does anything else. -/
def call (name : String) : Exec (List UInt64) := do
  if !(← get).initialized then
    modify fun m => { m with initialized := true }
    run (← get).program.init
  match (← get).program.function? name with
  | none => throw (.unknownFunction name)
  | some f =>
    if f.external then throw (.externalFunction name)
    else
      clearStack
      run f
      let values := (← get).stack
      clearStack
      return values.reverse

/-- The word at `offset` among the globals. -/
def global (offset : UInt64) : Exec UInt64 := load (Memory.base + offset)

end Machine
end Wordstack
