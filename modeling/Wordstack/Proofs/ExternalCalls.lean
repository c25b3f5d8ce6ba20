/-
Calls of functions that are defined elsewhere. The code of such a call takes from the operand stack the arguments that
the function was declared with, the first from its top, and passes them in registers and in an area of the processor's
stack; behind the call it puts what the function returns on the operand stack, but never more than one word.
-/
import Wordstack.Assembly.Emit
import Wordstack.Proofs.Points
import Wordstack.Proofs.Processor

namespace Wordstack

/-! ## What is written for a call -/

open Lower in
/-- A call is one of a function by its name, with the arguments and the values that the program gives it. -/
theorem accepted_call (arity : Arities) (env : Env) (t : Token) {callee : Expr} (hw : callee.Whole) {args : List Expr}
    (hargs : Expr.WholeAll args) : Ensures accepted ((Expr.call t callee args).lower env) fun p => env.AritiesOK arity →
      ∃ front name span, p.code = front ++ [{ op := .call, operand := .label name, span }] ∧
        arity name = some (args.length, p.values) := by
  refine (hargs.accepted_codedArgs env).bind fun front => accepted_value hw (hw.accepted_coded env) fun target =>
    (accepted_lowerCall env t hw args front target).mono fun p hp hf hargs ha => ?_
  obtain ⟨code, values⟩ := p
  cases hp (hf ha.valid) (hargs ha.valid) with
  | call _ _ hf => exact ⟨_, _, _, rfl, ha.calls hf⟩

namespace Assembly

open Processor

variable (place : String → UInt64)

/-! ## Operands -/

/-- Where the word of the operand stack with `k` words above it is. -/
def Processor.operandAt (s : Processor) (k : Nat) : UInt64 := s.regs .r15 + (s.regs .r14 - 1 - k.toUInt64) * 8

def Processor.operand (s : Processor) (k : Nat) : UInt64 := readWord s.memory (s.operandAt k)

/-- The words at the two addresses have no byte in common. -/
def Apart (a b : UInt64) : Prop := 8 ≤ (a - b).toNat ∧ 8 ≤ (b - a).toNat

instance (a b : UInt64) : Decidable (Apart a b) := inferInstanceAs (Decidable (_ ∧ _))

theorem readWord_of_apart {memory : UInt64 → UInt8} {a b : UInt64} (w : UInt64) (h : Apart a b) :
    readWord (writeWord memory b w) a = readWord memory a := by
  refine readWord_congr fun x hx => writeWord_of_apart w fun y hy heq => ?_
  have hx : x.toNat < 8 := hx
  have hy : y.toNat < 8 := hy
  have ha := a.toNat_lt
  have hb := b.toNat_lt
  have heq := congrArg UInt64.toNat heq
  simp only [Apart, UInt64.toNat_sub, UInt64.toNat_add] at h heq
  omega

theorem row_popTo (s : Processor) {r : Reg} (hr : r ≠ .r14) :
    ∃ s', s.row place (popTo r) = some (s', none) ∧ s'.memory = s.memory ∧ s'.regs .r14 = s.regs .r14 - 1 ∧
      s'.regs r = s.operand 0 ∧ ∀ r', r' ≠ r → r' ≠ .r14 → s'.regs r' = s.regs r' := by
  refine ⟨_, rfl, rfl, ?_, ?_, fun r' h h' => ?_⟩
  · simp [hr.symm]
  · simp [operand, operandAt, address]
  · simp [h, h']

theorem operandAt_add {s s' : Processor} {n : Nat} (h14 : s'.regs .r14 = s.regs .r14 - n.toUInt64)
    (h15 : s'.regs .r15 = s.regs .r15) (k : Nat) : s'.operandAt k = s.operandAt (k + n) := by
  have hk : (k + n).toUInt64 = k.toUInt64 + n.toUInt64 := UInt64.ofNat_add k n
  rw [operandAt, operandAt, h14, h15, hk]
  grind

/-- Registers take the words of the operand stack one after the other. -/
theorem row_pops (rs : List Reg) (hd : rs.Nodup) (h14 : .r14 ∉ rs) (h15 : .r15 ∉ rs) (s : Processor) :
    ∃ s', s.row place (rs.flatMap popTo) = some (s', none) ∧ s'.memory = s.memory ∧
      s'.regs .r14 = s.regs .r14 - rs.length.toUInt64 ∧ (∀ k r, rs[k]? = some r → s'.regs r = s.operand k) ∧
      ∀ r, r ∉ rs → r ≠ .r14 → s'.regs r = s.regs r := by
  induction rs generalizing s with
  | nil => exact ⟨s, rfl, rfl, by simp, by simp, fun _ _ _ => rfl⟩
  | cons r rs ih =>
    simp only [List.nodup_cons, List.mem_cons, not_or] at hd h14 h15
    obtain ⟨s₁, hrow, hmem, hheight, hword, hother⟩ := row_popTo place s (Ne.symm h14.1)
    obtain ⟨s', hrow', hmem', hheight', hwords, hothers⟩ := ih hd.2 h14.2 h15.2 s₁
    refine ⟨s', row_append hrow hrow', hmem'.trans hmem, ?_, fun k r' hk => ?_, fun r' hr' hne => ?_⟩
    · rw [hheight', hheight, List.length_cons, show (rs.length + 1).toUInt64 = rs.length.toUInt64 + 1 from UInt64.ofNat_add ..]
      grind
    · cases k with
      | zero =>
        obtain rfl : r = r' := by simpa using hk
        rw [hothers r hd.1 (Ne.symm h14.1), hword]
      | succ k =>
        rw [hwords k r' (by simpa using hk), operand, operand, hmem, operandAt_add (n := 1) hheight (hother _ h15.1 (by decide))]
    · simp only [List.mem_cons, not_or] at hr'
      rw [hothers r' hr'.2 hne, hother r' hr'.1 hne]

/-! ## Arguments in registers and on the stack -/

/-- Where the argument in a slot of the area at `base` is. -/
def slot (base : UInt64) (j : Nat) : UInt64 := base + (32 + 8 * j).toUInt64

theorem slot_apart (base : UInt64) {i j : Nat} (hi : i < operandStackWords) (hj : j < operandStackWords) (hne : i ≠ j) :
    Apart (slot base i) (slot base j) := by
  have hwords : operandStackWords = 65536 := rfl
  simp only [Apart, slot, UInt64.toNat_sub, UInt64.toNat_add, Nat.toUInt64, UInt64.toNat_ofNat']
  omega

def stackLines (n : Nat) : List Line :=
  (List.range n).flatMap fun j => popTo .rax ++ [Assembly.binary .mov (.mem (.above .rsp (32 + 8 * j))) (.reg .rax)]

/-- The words of the operand stack go into the slots one after the other. -/
theorem row_stackLines (s : Processor) (n : Nat) (hn : n ≤ operandStackWords)
    (hapart : ∀ k j, k < n → j < n → Apart (s.operandAt k) (slot (s.regs .rsp) j)) :
    ∃ s', s.row place (stackLines n) = some (s', none) ∧ s'.regs .r14 = s.regs .r14 - n.toUInt64 ∧
      (∀ j, j < n → readWord s'.memory (slot (s.regs .rsp) j) = s.operand j) ∧
      (∀ a, (∀ j, j < n → Apart a (slot (s.regs .rsp) j)) → readWord s'.memory a = readWord s.memory a) ∧
      ∀ r, r ≠ .rax → r ≠ .r14 → s'.regs r = s.regs r := by
  induction n with
  | zero => exact ⟨s, rfl, by simp, by simp, fun _ _ => rfl, fun _ _ _ => rfl⟩
  | succ n ih =>
    obtain ⟨s₁, hrow, hheight, hwords, hframe, hother⟩ :=
      ih (by omega) fun k j hk hj => hapart k j (by omega) (by omega)
    obtain ⟨s₂, hrow₂, hmem, hheight₂, hword, hother₂⟩ := row_popTo place s₁ (show Reg.rax ≠ .r14 by decide)
    have hrsp : s₂.regs .rsp = s.regs .rsp :=
      (hother₂ _ (by decide) (by decide)).trans (hother _ (by decide) (by decide))
    have hoperand : s₁.operand 0 = s.operand n := by
      rw [operand, operandAt_add hheight (hother _ (by decide) (by decide)), Nat.zero_add]
      exact hframe _ fun j hj => hapart n j (by omega) (by omega)
    refine ⟨s₂.write (slot (s.regs .rsp) n) (s.operand n), ?_, ?_, fun j hj => ?_, fun a ha => ?_, fun r hr hr' => ?_⟩
    · rw [stackLines, List.range_succ, List.flatMap_append, List.flatMap_singleton, ← hoperand, ← hword, ← hrsp]
      exact row_append hrow (row_append hrow₂ rfl)
    · rw [regs_write, hheight₂, hheight, show (n + 1).toUInt64 = n.toUInt64 + 1 from UInt64.ofNat_add ..]
      grind
    · rw [memory_write]
      rcases Nat.lt_succ_iff_lt_or_eq.mp hj with hj | rfl
      · rw [readWord_of_apart _ (slot_apart _ (by omega) (by omega) (by omega)), hmem, hwords j hj]
      · exact readWord_writeWord_self ..
    · rw [memory_write, readWord_of_apart _ (ha n (by omega)), hmem, hframe a fun j hj => ha j (by omega)]
    · exact (hother₂ r hr hr').trans (hother r hr hr')

/-- The area that a call takes, aligned for the callee. -/
def Processor.area (s : Processor) (f : Function) : UInt64 :=
  (s.regs .rsp &&& UInt64.ofInt (-16)) - UInt64.ofInt (callReserve (f.params - argumentRegisters.length))

/-- The arguments are where the callee looks for them, and no longer on the operand stack. -/
structure Passes (f : Function) (s s' : Processor) : Prop where
  popped : s'.regs .r14 = s.regs .r14 - f.params.toUInt64
  base : s'.regs .r15 = s.regs .r15
  saved : s'.regs .r12 = s.regs .rsp
  area : s'.regs .rsp = s.area f
  inRegister : ∀ k r, k < f.params → argumentRegisters[k]? = some r → s'.regs r = s.operand k
  onStack : ∀ k, 4 ≤ k → k < f.params →
    32 + 8 * (k - 4) + 8 ≤ callReserve (f.params - 4) ∧ readWord s'.memory (slot (s.area f) (k - 4)) = s.operand k

/-- What is executed before an external function is called. -/
def enterLines (f : Function) : List Line :=
  (argumentRegisters.take f.params).flatMap popTo ++
    [regs .mov .r12 .rsp, Assembly.binary .and (.reg .rsp) (.imm (-16)),
      Assembly.binary .sub (.reg .rsp) (.imm (callReserve (f.params - argumentRegisters.length)))] ++
    stackLines (f.params - argumentRegisters.length)

/-- And after it. -/
def leaveLines (f : Function) : List Line := regs .mov .rsp .r12 :: if f.returns > 0 then pushRax else []

theorem externalCall_eq (f : Function) : externalCall f = enterLines f ++ [transfer .call f.name] ++ leaveLines f := by
  simp [externalCall, enterLines, leaveLines, stackLines]

theorem row_enterLines (f : Function) (hf : f.params ≤ operandStackWords) (s : Processor)
    (hapart : ∀ k j, k < f.params → j < f.params - 4 → Apart (s.operandAt k) (slot (s.area f) j)) :
    ∃ s', s.row place (enterLines f) = some (s', none) ∧ Passes f s s' := by
  have hargs (r : Reg) (h : r ∈ argumentRegisters) : r ∉ [Reg.r12, .rsp, .rax, .r14] := by
    revert r
    decide
  have htake {r : Reg} (h : r ∉ argumentRegisters) : r ∉ argumentRegisters.take f.params := fun hr => h (List.mem_of_mem_take hr)
  obtain ⟨s₁, hrow₁, hmem₁, hheight₁, hwords₁, hother₁⟩ := row_pops place (argumentRegisters.take f.params)
    ((List.take_sublist ..).nodup (by decide)) (htake (by decide)) (htake (by decide)) s
  have hrsp₁ : s₁.regs .rsp = s.regs .rsp := hother₁ _ (htake (by decide)) (by decide)
  obtain ⟨s₂, hrow₂, hmem₂, hr12, hrsp, hother₂⟩ : ∃ s₂, s₁.row place
      [regs .mov .r12 .rsp, Assembly.binary .and (.reg .rsp) (.imm (-16)),
        Assembly.binary .sub (.reg .rsp) (.imm (callReserve (f.params - argumentRegisters.length)))] = some (s₂, none) ∧
      s₂.memory = s₁.memory ∧ s₂.regs .r12 = s.regs .rsp ∧ s₂.regs .rsp = s.area f ∧
      ∀ r, r ≠ .r12 → r ≠ .rsp → s₂.regs r = s₁.regs r :=
    ⟨_, rfl, rfl, by simp [hrsp₁], by simp [Processor.area, hrsp₁], fun r h h' => by simp [h, h']⟩
  have hcount : argumentRegisters.length = 4 := rfl
  have h14 : s₂.regs .r14 = s.regs .r14 - (min f.params 4).toUInt64 := by
    rw [hother₂ _ (by decide) (by decide), hheight₁, List.length_take, hcount]
  have h15 : s₂.regs .r15 = s.regs .r15 :=
    (hother₂ _ (by decide) (by decide)).trans (hother₁ _ (htake (by decide)) (by decide))
  obtain ⟨s', hrow', hheight', hwords', -, hother'⟩ := row_stackLines place s₂ (f.params - argumentRegisters.length)
    (by omega) fun k j hk hj => by
      rw [operandAt_add h14 h15, hrsp]
      exact hapart _ j (by omega) hj
  refine ⟨s', row_append (row_append hrow₁ hrow₂) hrow', ⟨?_, ?_, ?_, ?_, fun k r hk hr => ?_, fun k h4 hk => ⟨?_, ?_⟩⟩⟩
  · have hsum : (min f.params 4 + (f.params - 4)).toUInt64 = (min f.params 4).toUInt64 + (f.params - 4).toUInt64 :=
      UInt64.ofNat_add ..
    rw [show min f.params 4 + (f.params - 4) = f.params by omega] at hsum
    rw [hheight', h14, hcount, hsum]
    grind
  · rw [hother' _ (by decide) (by decide), h15]
  · rw [hother' _ (by decide) (by decide), hr12]
  · rw [hother' _ (by decide) (by decide), hrsp]
  · have hr' := hargs r (List.mem_of_getElem? hr)
    simp only [List.mem_cons, List.not_mem_nil, or_false, not_or] at hr'
    rw [hother' r hr'.2.2.1 hr'.2.2.2, hother₂ r hr'.1 hr'.2.1, hwords₁ k r (by rwa [List.getElem?_take_of_lt hk])]
  · unfold callReserve
    omega
  · rw [← hrsp, hwords' (k - 4) (by omega), operand, operand, hmem₂, hmem₁, operandAt_add h14 h15,
      show k - 4 + min f.params 4 = k by omega]

/-- What a processor has taken over from a function that returned. -/
structure Takes (f : Function) (s s' : Processor) : Prop where
  restored : s'.regs .rsp = s.regs .r12
  base : s'.regs .r15 = s.regs .r15
  pushed : s'.regs .r14 = s.regs .r14 + (min f.returns 1).toUInt64
  result : 0 < f.returns → s'.operand 0 = s.regs .rax
  kept : ∀ a, Apart a (s.regs .r15 + s.regs .r14 * 8) → readWord s'.memory a = readWord s.memory a

theorem row_leaveLines (f : Function) (s : Processor) :
    ∃ s', s.row place (leaveLines f) = some (s', none) ∧ Takes f s s' := by
  unfold leaveLines
  by_cases hf : 0 < f.returns
  · rw [if_pos hf]
    have hone : min f.returns 1 = 1 := by omega
    refine ⟨_, rfl, ⟨?_, ?_, ?_, fun _ => ?_, fun a ha => ?_⟩⟩
    · simp
    · simp
    · simp [hone]
    · simp [operand, operandAt, address, readWord_writeWord_self]
    · simp [readWord_of_apart, address, ha]
  · rw [if_neg hf]
    have hzero : min f.returns 1 = 0 := by omega
    exact ⟨_, rfl, ⟨by simp, by simp, by simp [hzero], fun h => absurd h hf, fun _ _ => rfl⟩⟩

theorem instrLines_call {p : Program} {g : Function} {i : Instr} {name : String} {f : Function} (hop : i.op = .call)
    (hname : i.operand = .label name) (hf : p.function? name = some f) (hext : f.external = true) :
    instrLines p g i = enterLines f ++ [transfer .call f.name] ++ leaveLines f := by
  unfold instrLines
  rw [hop, hname]
  simp only [callNamed, hf, hext, if_true, externalCall_eq]

/-- In a program that compiles a call has as many arguments as its function was declared with and leaves as many values;
and where it is external, these arguments are passed, in an aligned area, and one word is taken as the result of any
function that returns some. -/
theorem external_calls_pass {file source : String} {c : Compilation} (h : compile file source = .ok c) :
    (∀ (env : Env) (t : Token) (callee : Expr) (args : List Expr) (notes : Notes), env.Occurs source → callee.Whole →
      Expr.WholeAll args → ((Expr.call t callee args).lower env notes).2.Accepted → ∃ front name span,
        ((Expr.call t callee args).lower env notes).1.code = front ++ [{ op := .call, operand := .label name, span }] ∧
        ∀ f, c.program.function? name = some f →
          f.params = args.length ∧ f.returns = ((Expr.call t callee args).lower env notes).1.values) ∧
    ∀ (g : Function) (i : Instr) (name : String) (f : Function), i.op = .call → i.operand = .label name →
      c.program.function? name = some f → f.external = true →
        ∃ enter leave, instrLines c.program g i = enter ++ [transfer .call f.name] ++ leave ∧
          16 ∣ callReserve (f.params - argumentRegisters.length) ∧
          (∀ (place : String → UInt64) (s : Processor), f.params ≤ operandStackWords →
            (∀ k j, k < f.params → j < f.params - 4 → Apart (s.operandAt k) (slot (s.area f) j)) →
            ∃ s', s.row place enter = some (s', none) ∧ Passes f s s') ∧
          ∀ (place : String → UInt64) (s : Processor), ∃ s', s.row place leave = some (s', none) ∧ Takes f s s' := by
  refine ⟨fun env t callee args notes henv hw hargs hok => ?_, fun g i name f hop hname hf hext => ?_⟩
  · obtain ⟨hs, harities⟩ := arities_of_compile h
    have hready := henv.aritiesOK hs
    rw [← harities] at hready
    obtain ⟨front, name, span, hcode, harity⟩ := ((accepted_call _ env t hw hargs).clean notes trivial hok).2 hready
    refine ⟨front, name, span, hcode, fun f hf => ?_⟩
    simpa [Program.arities, hf] using harity
  · refine ⟨enterLines f, leaveLines f, instrLines_call hop hname hf hext, ?_, fun place s hwords hapart =>
      row_enterLines place f hwords s hapart, fun place s => row_leaveLines place f s⟩
    unfold callReserve
    omega

/-- The globals of the program are initialized with a call of an external function with so many parameters and results. -/
def Program.initCalls (p : Program) (name : String) (params returns : Nat) : Bool :=
  (p.function? name).any (fun f => f.external && f.params == params && f.returns == returns) &&
    p.init.code.toList.any fun i => i.op == .call && i.operand == .label name

theorem compile_initCalls {source name : String} {params returns : Nat}
    (h : (SourceUnit.ofSource source).errors.any CompileError.isFatal = false ∧
      Program.initCalls (SourceUnit.ofSource source).lowered.program name params returns = true) :
    ∃ c f i, compile "" source = .ok c ∧ i ∈ c.program.init.code.toList ∧ i.op = .call ∧ i.operand = .label name ∧
      c.program.function? name = some f ∧ f.external = true ∧ f.params = params ∧ f.returns = returns := by
  obtain ⟨c, hc, hprogram⟩ := compile_of_errors "" h.1
  rw [← hprogram, Program.initCalls, Bool.and_eq_true, Option.any_eq_true, List.any_eq_true] at h
  obtain ⟨-, ⟨f, hf, hcounts⟩, i, hi, hop⟩ := h
  simp only [Bool.and_eq_true, beq_iff_eq] at hcounts hop
  exact ⟨c, f, i, hc, hi, hop.1, hop.2, hf, hcounts.1.1, hcounts.1.2, hcounts.2⟩

def fiveSource : String :=
  "five : extern (a : u64, b : u64, c : u64, d : u64, e : u64) -> u64; x : u64 = five(1, 2, 3, 4, 5);"

def fiveOperands : Processor where
  regs r := if r = .r15 then 4096 else if r = .r14 then 5 else if r = .rsp then 1048576 else 0
  flags := none
  memory _ := 0

theorem external_calls_pass_five : ∃ c f i enter leave s', compile "" fiveSource = .ok c ∧
    i ∈ c.program.init.code.toList ∧ f.params = 5 ∧
    instrLines c.program c.program.init i = enter ++ [transfer .call f.name] ++ leave ∧
    fiveOperands.row (fun _ => 0) enter = some (s', none) ∧ Passes f fiveOperands s' := by
  obtain ⟨c, f, i, h, hi, hop, hname, hf, hext, hparams, -⟩ :=
    compile_initCalls (show _ ∧ Program.initCalls (SourceUnit.ofSource fiveSource).lowered.program "five" 5 1 = true by
      decide +kernel)
  obtain ⟨enter, leave, hlines, -, henter, -⟩ := (external_calls_pass h).2 c.program.init i "five" f hop hname hf hext
  obtain ⟨s', hrow, hpasses⟩ := henter (fun _ => 0) fiveOperands (by rw [hparams]; decide) (by
    rw [Processor.area, hparams]
    intro k j hk hj
    interval_cases k <;> interval_cases j <;> decide)
  exact ⟨c, f, i, enter, leave, s', h, hi, hparams, hlines, hrow, hpasses⟩

def pairSource : String := "two : extern () -> u64, u64; a, b : u64 = two();"

/-- A declaration of an external function with two results is accepted, but a call of the function leaves only one. -/
theorem second_result_missing : ∃ c f i, compile "" pairSource = .ok c ∧ i ∈ c.program.init.code.toList ∧ f.returns = 2 ∧
    instrLines c.program c.program.init i = enterLines f ++ [transfer .call f.name] ++ leaveLines f ∧
    ∀ (place : String → UInt64) (s : Processor), ∃ s', s.row place (leaveLines f) = some (s', none) ∧
      s'.regs .r14 ≠ s.regs .r14 + f.returns.toUInt64 := by
  obtain ⟨c, f, i, h, hi, hop, hname, hf, hext, -, hreturns⟩ :=
    compile_initCalls (show _ ∧ Program.initCalls (SourceUnit.ofSource pairSource).lowered.program "two" 0 2 = true by
      decide +kernel)
  refine ⟨c, f, i, h, hi, hreturns, instrLines_call hop hname hf hext, fun place s => ?_⟩
  obtain ⟨s', hrow, htakes⟩ := row_leaveLines place f s
  refine ⟨s', hrow, ?_⟩
  rw [htakes.pushed, hreturns]
  simp

end Assembly
end Wordstack
