/-
A processor that executes assembly: registers, the flags that comparisons leave, and a
memory of bytes. Only the operations that code is made of between its calls have a
meaning here. Code runs from line to line, and a jump goes on at its label.
-/
import Wordstack.Assembly
import Wordstack.Machine.Word
import Wordstack.Proofs.Memory

namespace Wordstack.Assembly

/-! ## States -/

/-- The flags that conditions read. -/
structure Flags where
  zero : Bool
  sign : Bool
  overflow : Bool

structure Processor where
  regs : Reg → UInt64
  /-- There are none after an operation that does not define all of them. -/
  flags : Option Flags
  memory : UInt64 → UInt8

/-- The number that a word stands for when it is read with a sign. -/
def signed (w : UInt64) : Int := w.toInt64.toInt

/-- Whether a number can be read back from a word with a sign. -/
def fitsSigned (n : Int) : Bool := -0x8000000000000000 ≤ n && n < 0x8000000000000000

namespace Flags

/-- The flags of a result; `exact` is what it would be if words had no end. -/
def ofResult (w : UInt64) (exact : Int) : Flags where
  zero := w = 0
  sign := signed w < 0
  overflow := !fitsSigned exact

/-- The flags of a difference, which a comparison leaves too. -/
def ofSub (a b : UInt64) : Flags := .ofResult (a - b) (signed a - signed b)

/-- The flags of a bitwise operation, which never overflows. -/
def ofBits (w : UInt64) : Flags := .ofResult w 0

end Flags

/-- The condition under which a move takes place. -/
def Binary.condition? : Binary → Option (Flags → Bool)
  | .cmovz | .cmove => some fun f => f.zero
  | .cmovne => some fun f => !f.zero
  | .cmovl => some fun f => f.sign != f.overflow
  | .cmovg => some fun f => !f.zero && f.sign == f.overflow
  | .cmovle => some fun f => f.zero || f.sign != f.overflow
  | .cmovge => some fun f => f.sign == f.overflow
  | _ => none

namespace Processor

/-- The word at an address, its lowest byte first. Addresses wrap around. -/
def readWord (memory : UInt64 → UInt8) (a : UInt64) : UInt64 :=
  let byte (k : UInt64) : UInt64 := (memory (a + k)).toUInt64
  byte 0 + 256 * (byte 1 + 256 * (byte 2 + 256 * (byte 3 + 256 * (byte 4 + 256 * (byte 5 +
    256 * (byte 6 + 256 * byte 7))))))

def writeWord (memory : UInt64 → UInt8) (a w : UInt64) : UInt64 → UInt8 := fun x =>
  if x - a < 8 then (Memory.wordBytes w).getD (x - a).toNat 0 else memory x

def set (s : Processor) (r : Reg) (w : UInt64) : Processor :=
  { s with regs := fun r' => if r' = r then w else s.regs r' }

def write (s : Processor) (a w : UInt64) : Processor := { s with memory := writeWord s.memory a w }

def setFlags (s : Processor) (flags : Option Flags) : Processor := { s with flags }

variable (place : String → UInt64)

/-- The address that an operand names; `place` tells where the symbols are. -/
def address (s : Processor) : Address → UInt64
  | .at r => s.regs r
  | .above r o => s.regs r + o.toUInt64
  | .below r o => s.regs r - o
  | .free => s.regs .r15 + s.regs .r14 * 8
  | .top => s.regs .r15 + s.regs .r14 * 8 - 8
  | .symbol name => place name
  | .inSymbol name o => place name + o

/-- The word that an operand stands for. -/
def value? (s : Processor) : Source → Option UInt64
  | .reg r => some (s.regs r)
  | .imm v => some (.ofInt v)
  | .hex v => some v
  | .mem a | .qword a => some (readWord s.memory (s.address place a))
  | .half _ | .byte _ => none

/-! ## Operations -/

/-- Operations that put their result into a register. -/
def calculate (s : Processor) (op : Binary) (r : Reg) (w : UInt64) : Option Processor :=
  let v := s.regs r
  match op with
  | .add => some ((s.set r (v + w)).setFlags (some (.ofResult (v + w) (signed v + signed w))))
  | .sub => some ((s.set r (v - w)).setFlags (some (.ofSub v w)))
  | .imul => some ((s.set r (v * w)).setFlags none)
  | .and => some ((s.set r (v &&& w)).setFlags (some (.ofBits (v &&& w))))
  | .or => some ((s.set r (v ||| w)).setFlags (some (.ofBits (v ||| w))))
  | .xor => some ((s.set r (v ^^^ w)).setFlags (some (.ofBits (v ^^^ w))))
  | .test => some (s.setFlags (some (.ofBits (v &&& w))))
  | .cmp => some (s.setFlags (some (.ofSub v w)))
  | op =>
    match op.condition?, s.flags with
    | some condition, some flags => some (if condition flags then s.set r w else s)
    | _, _ => none

/-- Shifts by the low six bits of a count. The flags stay only if nothing is shifted. -/
def shift (s : Processor) (r : Reg) (count result : UInt64) : Processor :=
  if count &&& 63 = 0 then s else (s.set r result).setFlags none

def binary (s : Processor) : Binary → Source → Source → Option Processor
  | .mov, .reg r, source => (s.value? place source).map (s.set r)
  -- the upper half of the register becomes zero
  | .mov, .half r, .imm v => some (s.set r (UInt64.ofInt v &&& 0xffffffff))
  | .mov, .mem a, .reg r => some (s.write (s.address place a) (s.regs r))
  | .lea, .reg r, .mem a => some (s.set r (s.address place a))
  | .shl, .reg r, .byte c => some (s.shift r (s.regs c) (s.regs r <<< (s.regs c &&& 63)))
  | .shr, .reg r, .byte c => some (s.shift r (s.regs c) (s.regs r >>> (s.regs c &&& 63)))
  | op, .reg r, source => (s.value? place source).bind (s.calculate op r)
  | _, _, _ => none

def unary (s : Processor) (op : Unary) (r : Reg) : Option Processor :=
  let v := s.regs r
  match op with
  | .inc => some ((s.set r (v + 1)).setFlags (some (.ofResult (v + 1) (signed v + 1))))
  | .dec => some ((s.set r (v - 1)).setFlags (some (.ofResult (v - 1) (signed v - 1))))
  | .push =>
    let top := s.regs .rsp - 8
    some ((s.set .rsp top).write top v)
  | .pop =>
    let top := s.regs .rsp
    some ((s.set .rsp (top + 8)).set r (readWord s.memory top))
  | .neg => some ((s.set r (-v)).setFlags (some (.ofSub 0 v)))
  | .not => some (s.set r (~~~v))
  | .idiv => none

/-- What an operation does, and the label at which execution goes on if it is not the next line. -/
def exec (s : Processor) : Op → Option (Processor × Option String)
  | .plain .nop => some (s, none)
  | .plain _ => none
  | .unary op r => (s.unary op r).map (·, none)
  | .binary op target source => (s.binary place op target source).map (·, none)
  | .transfer .jmp l => some (s, some l)
  | .transfer .jz l => s.flags.map fun f => (s, if f.zero then some l else none)
  | .transfer .jnz l => s.flags.map fun f => (s, if f.zero then none else some l)
  | .transfer _ _ => none

/-! ## Runs -/

/-- One line of code. Lines that are no operations do nothing. -/
inductive Step (lines : List Line) : Nat × Processor → Nat × Processor → Prop
  | skip {n : Nat} {s : Processor} {line : Line} (hn : lines[n]? = some line) (hline : ∀ o, line ≠ .op o) :
    Step lines (n, s) (n + 1, s)
  | next {n : Nat} {s s' : Processor} {o : Op} (hn : lines[n]? = some (.op o)) (ho : s.exec place o = some (s', none)) :
    Step lines (n, s) (n + 1, s')
  | jump {n t : Nat} {s s' : Processor} {o : Op} {l : String} (hn : lines[n]? = some (.op o))
    (ho : s.exec place o = some (s', some l)) (ht : lines[t]? = some (.label l)) : Step lines (n, s) (t, s')

/-- Zero or more lines. -/
inductive Runs (lines : List Line) : Nat × Processor → Nat × Processor → Prop
  | refl {a : Nat × Processor} : Runs lines a a
  | step {a b c : Nat × Processor} (h : Step place lines a b) (hs : Runs lines b c) : Runs lines a c

/-- Operations that are executed one after the other, up to the first jump that is taken. -/
def row (s : Processor) : List Line → Option (Processor × Option String)
  | [] => some (s, none)
  | .op o :: rest =>
    match s.exec place o with
    | some (s', none) => row s' rest
    | r => r
  | _ => none

variable {place}

theorem row_append {s s' : Processor} {a b : List Line} {r : Option (Processor × Option String)}
    (ha : s.row place a = some (s', none)) (hb : s'.row place b = r) : s.row place (a ++ b) = r := by
  induction a generalizing s with
  | nil =>
    cases ha
    exact hb
  | cons line a ih =>
    cases line with
    | op o =>
      rw [List.cons_append]
      unfold row at ha ⊢
      split at ha
      · exact ih ha
      next hne => exact absurd ha (hne s')
    | _ => cases ha

theorem row_single (s : Processor) (o : Op) : s.row place [.op o] = s.exec place o := by
  unfold row
  split
  next heq => exact heq.symm
  · rfl

/-- Lines in a row are run where they stand in the code, up to the line behind them. -/
theorem runs_row {lines ls : List Line} {n : Nat} (hat : ∀ k, k < ls.length → lines[n + k]? = ls[k]?) {s s' : Processor}
    (h : s.row place ls = some (s', none)) : Runs place lines (n, s) (n + ls.length, s') := by
  induction ls generalizing n s with
  | nil =>
    cases h
    exact .refl
  | cons line ls ih =>
    cases line with
    | op o =>
      unfold row at h
      split at h
      next s₁ heq =>
        have hrest := ih (n := n + 1) (fun k hk => by
          have := hat (k + 1) (Nat.succ_lt_succ hk)
          rwa [← Nat.add_assoc, Nat.add_right_comm] at this) h
        rw [List.length_cons, Nat.add_comm ls.length, ← Nat.add_assoc]
        exact .step (.next (hat 0 (Nat.succ_pos _)) heq) hrest
      next hne => exact absurd h (hne s')
    | _ => cases h

/-- Or up to the label of a jump. -/
theorem runs_row_jump {lines ls : List Line} {n t : Nat} (hat : ∀ k, k < ls.length → lines[n + k]? = ls[k]?)
    {s s' : Processor} {l : String} (h : s.row place ls = some (s', some l)) (ht : lines[t]? = some (.label l)) :
    Runs place lines (n, s) (t, s') := by
  induction ls generalizing n s with
  | nil => cases h
  | cons line ls ih =>
    cases line with
    | op o =>
      unfold row at h
      split at h
      next s₁ heq =>
        have hrest := ih (n := n + 1) (fun k hk => by
          have := hat (k + 1) (Nat.succ_lt_succ hk)
          rwa [← Nat.add_assoc, Nat.add_right_comm] at this) h
        exact .step (.next (hat 0 (Nat.succ_pos _)) heq) hrest
      · exact .step (.jump (hat 0 (Nat.succ_pos _)) h ht) .refl
    | _ => cases h

/-! ## Registers and memory -/

section

variable (s : Processor) (r : Reg) (a w : UInt64) (flags : Option Flags)

@[simp] theorem regs_set_self : (s.set r w).regs r = w := if_pos rfl

@[simp] theorem regs_set_of_ne {r r' : Reg} (h : r' ≠ r) : (s.set r w).regs r' = s.regs r' := if_neg h

@[simp] theorem memory_set : (s.set r w).memory = s.memory := rfl

@[simp] theorem flags_set : (s.set r w).flags = s.flags := rfl

@[simp] theorem regs_setFlags : (s.setFlags flags).regs = s.regs := rfl

@[simp] theorem memory_setFlags : (s.setFlags flags).memory = s.memory := rfl

@[simp] theorem flags_setFlags : (s.setFlags flags).flags = flags := rfl

@[simp] theorem regs_write : (s.write a w).regs = s.regs := rfl

@[simp] theorem memory_write : (s.write a w).memory = writeWord s.memory a w := rfl

end

theorem writeWord_of_apart {memory : UInt64 → UInt8} {a x : UInt64} (w : UInt64) (h : ∀ j, j < 8 → a + j ≠ x) :
    writeWord memory a w x = memory x := by
  refine if_neg fun hlt => h (x - a) hlt ?_
  rw [UInt64.add_comm, UInt64.sub_add_cancel]

theorem writeWord_add (memory : UInt64 → UInt8) (a w : UInt64) {k : UInt64} (hk : k < 8) :
    writeWord memory a w (a + k) = (Memory.wordBytes w).getD k.toNat 0 := by
  have hsub : a + k - a = k := by rw [UInt64.add_comm, UInt64.add_sub_cancel]
  unfold writeWord
  rw [hsub, if_pos hk]

/-- A word that is written is read back. -/
theorem readWord_writeWord_self (memory : UInt64 → UInt8) (a w : UInt64) : readWord (writeWord memory a w) a = w := by
  have hbyte : ∀ k : UInt64, k < 8 → writeWord memory a w (a + k) = (Memory.wordBytes w).getD k.toNat 0 := fun _ =>
    writeWord_add memory a w
  unfold readWord
  simp only [hbyte 0 (by decide), hbyte 1 (by decide), hbyte 2 (by decide), hbyte 3 (by decide), hbyte 4 (by decide),
    hbyte 5 (by decide), hbyte 6 (by decide), hbyte 7 (by decide)]
  simp [Memory.wordBytes, Memory.word_of_bytes]

theorem readWord_congr {memory memory' : UInt64 → UInt8} {a : UInt64}
    (h : ∀ k, k < 8 → memory (a + k) = memory' (a + k)) : readWord memory a = readWord memory' a := by
  unfold readWord
  dsimp only
  rw [h 0 (by decide), h 1 (by decide), h 2 (by decide), h 3 (by decide), h 4 (by decide), h 5 (by decide),
    h 6 (by decide), h 7 (by decide)]

/-! ## Flags -/

theorem signed_lt (w : UInt64) : signed w < 0x8000000000000000 := w.toInt64.toInt_lt

theorem le_signed (w : UInt64) : -0x8000000000000000 ≤ signed w := w.toInt64.le_toInt

/-- A difference that does not fit has the wrong sign. -/
theorem ofSub_less (a b : UInt64) : ((Flags.ofSub a b).sign != (Flags.ofSub a b).overflow) = Word.less a b := by
  have hsub : signed (a - b) = (signed a - signed b).bmod (2 ^ 64) := by
    unfold signed
    rw [UInt64.toInt64_sub, Int64.toInt_sub]
  have hless : Word.less a b = decide (signed a < signed b) := by
    unfold Word.less
    exact decide_eq_decide.mpr Int64.lt_iff_toInt_lt
  have ha := signed_lt a
  have ha' := le_signed a
  have hb := signed_lt b
  have hb' := le_signed b
  have hsign : signed (a - b) < 0 ↔ (signed a < signed b ↔ fitsSigned (signed a - signed b) = true) := by
    simp only [hsub, Int.bmod_def, fitsSigned, Bool.and_eq_true, decide_eq_true_eq]
    split <;> omega
  rw [hless]
  simp only [Flags.ofSub, Flags.ofResult]
  by_cases hlt : signed a < signed b <;> by_cases hfits : fitsSigned (signed a - signed b) = true <;>
    simp [hsign, hlt, hfits]

theorem ofSub_zero (a b : UInt64) : (Flags.ofSub a b).zero = decide (a = b) := by
  have hiff : a - b = 0 ↔ a = b := by
    constructor
    · intro h
      rw [← UInt64.sub_add_cancel a b, h, UInt64.zero_add]
    · rintro rfl
      exact UInt64.sub_self a
  exact decide_eq_decide.mpr hiff

end Processor
end Wordstack.Assembly
