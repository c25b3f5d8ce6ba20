/-
Functions of the stack machine, and putting them together piece by piece.
-/
import Wordstack.Instr

namespace Wordstack

structure Function where
  name : String := ""
  params : Nat := 0
  returns : Nat := 0
  /-- Whether the function is defined elsewhere. It has no code then. -/
  external : Bool := false
  code : Array Instr := #[]
  /-- The bytes below the base of the frame that are in use. -/
  stackIndex : Nat := 0
  /-- The most bytes that were in use at a time. -/
  frameSize : Nat := 0

namespace Function

def length (f : Function) : Nat := f.code.size

def isEmpty (f : Function) : Bool := f.code.isEmpty

/-- Puts a command at the end of the code. -/
def emit (f : Function) (c : Command) : Function :=
  { f with code := f.code.push { c with index := f.code.size } }

/-- A function made of all the commands, in their order. -/
def emitAll (f : Function) (cs : List Command) : Function := cs.foldl emit f

/-- Takes `bytes` more into use. -/
def reserve (f : Function) (bytes : Nat) : Function :=
  let top := f.stackIndex + bytes
  { f with stackIndex := top, frameSize := max f.frameSize top }

/-- Asks the machine for `bytes` and takes them into use; they end at the new stack index. -/
def alloc (f : Function) (bytes : UInt64) (span : Span) : Function :=
  (f.emit { op := .alloc, operand := .unsigned bytes, span }).reserve bytes.toNat

/-- The index of the last instruction. -/
def last? (f : Function) : Option Nat := if f.code.isEmpty then none else some (f.code.size - 1)

/-- Changes the instruction at `index`. -/
def modifyAt (f : Function) (index : Nat) (change : Instr → Instr) : Function :=
  { f with code := f.code.modify index change }

/-! ## Jumps -/

/-- The operand with which a jump at `index` goes to `target`. -/
def jumpOffset (index target : Nat) : Int := (target : Int) - (index + 1)

/-- A jump whose target is not known yet. -/
def emitJump (f : Function) (op : Opcode) (span : Span) : Function :=
  f.emit { op, operand := .signed 0, span }

/-- Lets the jump at `index` go to `target`. -/
def patchJump (f : Function) (index target : Nat) : Function :=
  f.modifyAt index fun i => { i with operand := .signed (jumpOffset index target) }

/-- A jump to a known target. -/
def emitJumpTo (f : Function) (op : Opcode) (target : Nat) (span : Span) : Function :=
  (f.emitJump op span).patchJump f.length target

/-- Where the jump at `index` goes. -/
def jumpTarget? (f : Function) (index : Nat) : Option Nat :=
  match f.code[index]? with
  | some { op, operand := .signed d, .. } =>
    let target : Int := index + 1 + d
    if op.isJump && 0 ≤ target then some target.toNat else none
  | _ => none

/-! ## Places -/

/-- An operation that reads from no place. -/
structure NotAnLvalue where
  op : Opcode

def NotAnLvalue.message (e : NotAnLvalue) : String :=
  "`" ++ e.op.text ++ "` does not produce an lvalue"

/-- Turns the instruction at `index`, which reads from a place, into one that names the place. The
number says where the result stands: at `index`, or at the `STORE` that was added for it. -/
def toLvalue (f : Function) (index : Nat) (mode : LvalueMode) :
    Except NotAnLvalue (Function × Nat) :=
  match f.code[index]? with
  | none => .error ⟨.invalid⟩
  | some i =>
    match i.op.toLvalue? mode with
    | none => .error ⟨i.op⟩
    | some (op, needsStore) =>
      let f' := f.modifyAt index fun i => { i with op }
      if needsStore then .ok (f'.emit { op := .store, span := i.span }, f.length)
      else .ok (f', index)

/-! ## Listing -/

def padLeft (width : Nat) (s : String) : String :=
  String.ofList (List.replicate (width - s.length) ' ') ++ s

def listInstr (f : Function) (i : Instr) : String :=
  let operand := if i.operand = .none then "" else " " ++ i.operand.text
  let target := match f.jumpTarget? i.index with
    | some t => s!"  -> {t}"
    | none => ""
  padLeft 6 (toString i.index) ++ "  " ++ i.op.text ++ operand ++ target ++ "\n"

/-- A function on lines: its heading, then its instructions. -/
def listing (f : Function) : String :=
  if f.external then s!"extern {f.name} (params {f.params}, returns {f.returns})\n"
  else
    s!"fn {f.name} (params {f.params}, returns {f.returns}, frame {f.frameSize}):\n" ++
      String.join (f.code.toList.map f.listInstr)

end Function
end Wordstack
