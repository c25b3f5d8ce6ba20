/-
Division on the processor and in the machine. Both divide words with a sign and truncate toward zero. There is one
quotient that no word holds: the machine lets it wrap around, the processor stops.
-/
import Wordstack.Assembly.Emit
import Wordstack.Proofs.Processor
import Wordstack.Proofs.Run

namespace Wordstack.Assembly

/-- Why lines do not come to their end. -/
inductive Halt
  /-- A quotient does not exist, or it does not fit a register. -/
  | divideError
  /-- A line goes on elsewhere, or it has no meaning here. -/
  | other

namespace Processor

/-- The number that a register holds with another one in front of it. -/
def double (high low : UInt64) : Int := signed high * 0x10000000000000000 + low.toNat

/-- Fills `rdx` with the sign of `rax`. -/
def extend (s : Processor) : Processor := s.set .rdx (if signed (s.regs .rax) < 0 then -1 else 0)

/-- Divides what `rdx` and `rax` hold together, toward zero. The quotient goes to `rax`, the remainder to `rdx`, and no
flag is defined behind it. -/
def divide (s : Processor) (r : Reg) : Except Halt Processor :=
  let n := double (s.regs .rdx) (s.regs .rax)
  let d := signed (s.regs r)
  if d ≠ 0 ∧ fitsSigned (n.tdiv d) then
    .ok (((s.set .rax (.ofInt (n.tdiv d))).set .rdx (.ofInt (n.tmod d))).setFlags none)
  else .error .divideError

/-- Executes lines one after the other, divisions among them. -/
def complete (place : String → UInt64) (s : Processor) : List Line → Except Halt Processor
  | [] => .ok s
  | .op (.plain .cqo) :: rest => complete place s.extend rest
  | .op (.unary .idiv r) :: rest =>
    match s.divide r with
    | .ok s' => complete place s' rest
    | .error halt => .error halt
  | .op o :: rest =>
    match s.exec place o with
    | some (s', none) => complete place s' rest
    | _ => .error .other
  | _ => .error .other

variable {s : Processor} {l r : UInt64}

/-! ## Signs -/

theorem ofInt_eq (n : Int) : UInt64.ofInt n = (Int64.ofInt n).toUInt64 := by
  refine UInt64.toNat_inj.mp ?_
  have hlt : (n % 2 ^ 64).toNat < 2 ^ 64 := by omega
  show (n % 2 ^ 64).toNat % 2 ^ 64 = (BitVec.ofInt 64 n).toNat
  rw [BitVec.toNat_ofInt, Nat.mod_eq_of_lt hlt]
  rfl

theorem toNat_of_signed (w : UInt64) : (w.toNat : Int) = if signed w < 0 then signed w + 0x10000000000000000 else signed w := by
  have hlt := w.toNat_lt
  have hsigned : signed w = (w.toNat : Int).bmod (2 ^ 64) := BitVec.toInt_eq_toNat_bmod w.toBitVec
  rw [Int.bmod_def] at hsigned
  split at hsigned <;> split <;> omega

/-- A word that is extended is the same number. -/
theorem double_extend (s : Processor) : double (s.extend.regs .rdx) (s.extend.regs .rax) = signed (s.regs .rax) := by
  have hrax : s.extend.regs .rax = s.regs .rax := regs_set_of_ne _ _ (by decide)
  have hrdx : s.extend.regs .rdx = if signed (s.regs .rax) < 0 then -1 else 0 := regs_set_self ..
  rw [double, hrax, hrdx, toNat_of_signed]
  have hone : signed (-1) = -1 := rfl
  have hzero : signed 0 = 0 := rfl
  split
  · rw [hone]
    omega
  · rw [hzero]
    omega

theorem signed_eq_zero : signed r = 0 ↔ r = 0 := by
  refine ⟨fun h => ?_, fun h => h ▸ rfl⟩
  have hnat := toNat_of_signed r
  rw [h] at hnat
  exact UInt64.toNat_inj.mp (by simpa using hnat)

/-! ## Quotients -/

/-- The quotient fits, but for that of the least number and minus one. -/
theorem fitsSigned_tdiv (hr : r ≠ 0) :
    fitsSigned ((signed l).tdiv (signed r)) = true ↔ ¬ (l = 0x8000000000000000 ∧ r = -1) := by
  have hl := toNat_of_signed l
  have hr' := toNat_of_signed r
  have hle := le_signed l
  have hlt := signed_lt l
  have hne : signed r ≠ 0 := fun h => hr (signed_eq_zero.mp h)
  have habs : ((signed l).tdiv (signed r)).natAbs = (signed l).natAbs / (signed r).natAbs := Int.natAbs_tdiv ..
  have hleast : l = 0x8000000000000000 ↔ signed l = -0x8000000000000000 := by
    refine ⟨fun h => h ▸ rfl, fun h => UInt64.toNat_inj.mp ?_⟩
    rw [h] at hl
    exact Int.ofNat.inj hl
  have hminus : r = -1 ↔ signed r = -1 := by
    refine ⟨fun h => h ▸ rfl, fun h => UInt64.toNat_inj.mp ?_⟩
    rw [h] at hr'
    exact Int.ofNat.inj hr'
  have hfits (n : Int) : fitsSigned n = true ↔ -0x8000000000000000 ≤ n ∧ n < 0x8000000000000000 := by
    simp [fitsSigned]
  rw [hfits, hleast, hminus]
  by_cases hone : (signed r).natAbs = 1
  · -- the quotient is the dividend or its negative
    rcases (show signed r = 1 ∨ signed r = -1 by omega) with h | h
    · rw [h, Int.tdiv_one]
      omega
    · rw [h, Int.tdiv_neg, Int.tdiv_one]
      omega
  · -- the quotient is at most half of the dividend
    have hhalf : (signed l).natAbs / (signed r).natAbs ≤ (signed l).natAbs / 2 :=
      Nat.div_le_div_left (by omega) (by decide)
    omega

theorem word_div (l r : UInt64) : Word.div l r = .ofInt ((signed l).tdiv (signed r)) := by
  have hrange (w : UInt64) : Int64.minValue.toInt ≤ signed w ∧ signed w ≤ Int64.maxValue.toInt :=
    ⟨le_signed w, Int.le_of_lt_add_one (signed_lt w)⟩
  rw [ofInt_eq, Int64.ofInt_tdiv (hrange l).1 (hrange l).2 (hrange r).1 (hrange r).2]
  simp only [signed, Int64.ofInt_toInt, Word.div]

theorem word_mod (l r : UInt64) : Word.mod l r = .ofInt ((signed l).tmod (signed r)) := by
  have hrange (w : UInt64) : Int64.minValue.toInt ≤ signed w ∧ signed w ≤ Int64.maxValue.toInt :=
    ⟨le_signed w, Int.le_of_lt_add_one (signed_lt w)⟩
  rw [ofInt_eq, Int64.ofInt_tmod (hrange l).1 (hrange l).2 (hrange r).1 (hrange r).2]
  simp only [signed, Int64.ofInt_toInt, Word.mod]

/-- The registers behind a division that goes through. -/
def divided (s : Processor) : Processor :=
  ((s.extend.set .rax (Word.div (s.regs .rax) (s.regs .rcx))).set .rdx (Word.mod (s.regs .rax) (s.regs .rcx))).setFlags none

theorem regs_divided (s : Processor) {q : Reg} (hq : q ≠ .rax) (hq' : q ≠ .rdx) : s.divided.regs q = s.regs q := by
  rw [divided, regs_setFlags, regs_set_of_ne _ _ hq', regs_set_of_ne _ _ hq, extend, regs_set_of_ne _ _ hq']

/-- A word is extended and divided if its quotient fits. -/
theorem complete_divide (place : String → UInt64) (hr : s.regs .rcx ≠ 0) (rest : List Line) :
    s.complete place (Assembly.plain .cqo :: Assembly.unary .idiv .rcx :: rest) =
      if s.regs .rax = 0x8000000000000000 ∧ s.regs .rcx = -1 then .error .divideError
      else s.divided.complete place rest := by
  have hrcx : s.extend.regs .rcx = s.regs .rcx := regs_set_of_ne _ _ (by decide)
  have hdivide : s.extend.divide .rcx =
      if s.regs .rax = 0x8000000000000000 ∧ s.regs .rcx = -1 then .error .divideError else .ok s.divided := by
    unfold divide divided
    rw [double_extend, hrcx, word_div, word_mod]
    by_cases hleast : s.regs .rax = 0x8000000000000000 ∧ s.regs .rcx = -1
    · rw [if_pos hleast]
      exact if_neg fun h => (fitsSigned_tdiv hr).mp h.2 hleast
    · rw [if_neg hleast]
      exact if_pos ⟨fun h => hr (signed_eq_zero.mp h), (fitsSigned_tdiv hr).mpr hleast⟩
  rw [Assembly.plain, Assembly.unary, complete, complete, hdivide]
  split
  next heq =>
    split at heq
    · cases heq
    next hfits =>
      cases heq
      rw [if_neg hfits]
  next heq =>
    split at heq
    next hleast =>
      cases heq
      rw [if_pos hleast]
    · cases heq

/-- **The code for a quotient or a remainder leaves what the machine pushes, or the processor stops.** It stops for exactly
one pair of words: the least number divided by minus one has a quotient that does not fit, and the remainder is computed
together with it. The machine pushes the least number and zero there. -/
theorem quotients_agree (place : String → UInt64) {op : Opcode} (hop : op = .div ∨ op = .mod) (hr : r ≠ 0)
    (hrax : s.regs .rax = l) (hrcx : s.regs .rcx = r) : ∃ lines w, combine? op = some lines ∧
      op.binary?.bind (· l r) = some w ∧ (∀ (frame : Frame) (span : Span) (j : Nat) (m : Machine) (st : List UInt64), m.stack = l :: r :: st →
        Machine.exec frame ⟨⟨op, .none, span⟩, j⟩ m = .ok (.frame frame) { m with stack := w :: st }) ∧
      (¬ (l = 0x8000000000000000 ∧ r = -1) → ∃ s', s.complete place lines = .ok s' ∧ s'.regs .rax = w ∧
        s'.memory = s.memory ∧ ∀ q, q ≠ .rax → q ≠ .rdx → s'.regs q = s.regs q) ∧
      (l = 0x8000000000000000 ∧ r = -1 → s.complete place lines = .error .divideError) := by
  subst hrax hrcx
  have hpush (apply : UInt64 → UInt64 → Option UInt64) (ha : op.binary? = some apply) (w : UInt64)
      (hw : apply (s.regs .rax) (s.regs .rcx) = some w) (frame : Frame) (span : Span) (j : Nat) (m : Machine)
      (st : List UInt64) (hs : m.stack = s.regs .rax :: s.regs .rcx :: st) :
      Machine.exec frame ⟨⟨op, .none, span⟩, j⟩ m = .ok (.frame frame) { m with stack := w :: st } := by
    rw [Machine.exec_binary ha hs, hw]
  rcases hop with rfl | rfl
  · refine ⟨_, _, rfl, if_neg hr, hpush _ rfl _ (if_neg hr), fun hfits =>
      ⟨s.divided, ?_, rfl, rfl, fun q => s.regs_divided⟩, fun hleast => ?_⟩
    · rw [complete_divide place hr, if_neg hfits]
      rfl
    · rw [complete_divide place hr, if_pos hleast]
  · refine ⟨_, _, rfl, if_neg hr, hpush _ rfl _ (if_neg hr), fun hfits =>
      ⟨s.divided.set .rax (s.divided.regs .rdx), ?_, rfl, rfl, fun q hq hq' => ?_⟩, fun hleast => ?_⟩
    · rw [complete_divide place hr, if_neg hfits]
      rfl
    · rw [regs_set_of_ne _ _ hq, s.regs_divided hq hq']
    · rw [complete_divide place hr, if_pos hleast]

/-- A processor with a number in `rax` and another one everywhere else. -/
def holding (l r : UInt64) : Processor := ⟨fun q => if q = .rax then l else r, none, fun _ => 0⟩

/-- The remainder of minus seven and two has the sign of minus seven. -/
theorem quotients_agree_minus_seven : ∃ lines s', combine? .mod = some lines ∧
    (holding (-7) 2).complete (fun _ => 0) lines = .ok s' ∧ s'.regs .rax = -1 := by
  obtain ⟨lines, w, hlines, hw, -, hfits, -⟩ := quotients_agree (s := holding (-7) 2) (l := -7) (r := 2) (fun _ => 0)
    (.inr rfl) (by decide) rfl rfl
  obtain ⟨s', hrun, hrax, -⟩ := hfits (by decide)
  refine ⟨lines, s', hlines, hrun, hrax.trans (Option.some.inj (hw.symm.trans ?_))⟩
  decide

/-- The least number divided by minus one: the machine goes on, the processor stops. -/
theorem least_by_minus_one : ∃ lines, combine? .div = some lines ∧
    (holding 0x8000000000000000 (-1)).complete (fun _ => 0) lines = .error .divideError ∧
    Opcode.div.binary?.bind (· 0x8000000000000000 (-1)) = some 0x8000000000000000 := by
  refine ⟨_, rfl, ?_, by decide⟩
  rw [complete_divide (fun _ => 0) (s := holding 0x8000000000000000 (-1)) (by decide), if_pos (by decide)]

end Processor
end Wordstack.Assembly
