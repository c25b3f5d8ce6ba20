/-
Places. The code that reads a place and the code that takes its address differ in the last
instruction, which reads the word at the address or leaves the address as it is; an
assignment computes the value, then that address, and writes the word there.
-/
import Wordstack.Proofs.Points

namespace Wordstack

open Lower

variable {e : Expr} {env : Env} {notes : Notes}

/-! ## Places that hold a word -/

/-- A place that holds a word: a variable that is not an array, an element, or what a pointer points to. -/
def Expr.namesWord (env : Env) : Expr → Bool
  | .atom t => t.isIdent && (env.lookup? t.text).any fun s => s.kind = .var && !s.isArray
  | .unary .deref _ _ | .index .. => true
  | .cast _ _ e | .unclosed e => e.namesWord env
  | _ => false

theorem Expr.isPlace_of_namesWord (h : e.namesWord env = true) : e.isPlace = true := by
  fun_induction Expr.namesWord env e with
  | case1 => exact (Bool.and_eq_true_iff.mp h).1
  | case2 | case3 => rfl
  | case4 _ _ _ ih | case5 _ ih => exact ih h
  | case6 => cases h

/-- The code that reads a place, takes its address, and writes to it. -/
inductive WordCode (arity : Arities) : List Command → List Command → List Command → Prop
  | named (o : Storage) (span : Span) :
    WordCode arity (readVariable o false span) [o.addressCommand span] ([o.addressCommand span] ++ [{ op := .store, span }])
  | pointed {front : List Command} (hs : Shifts arity 0 0 1 front) (span : Span) :
    WordCode arity (front ++ [{ op := .load, span }]) (front ++ [{ op := .nop, span }]) (front ++ [{ op := .store, span }])

section

variable {arity : Arities} {env : Env} {e : Expr} {read address write : List Command}

theorem asLvalue_word (hw : e.Whole) (hp : e.isPlace = true) (h : WordCode arity read address write) :
    asLvalue e .address read = pure address ∧ asLvalue e .store read = pure write := by
  cases h with
  | named o span => cases o <;> simp [asLvalue, hw.isError, readVariable, hp, Opcode.toLvalue?, Storage.addressCommand]
  | pointed => simp [asLvalue, hw.isError, hp, Opcode.toLvalue?]

theorem PlaceCode.front {returns : Nat} {front : List Command} {span : Span}
    (h : PlaceCode arity returns (front ++ [{ op := .load, span }])) : Shifts arity returns 0 1 front := by
  rcases h with ⟨c, heq, hpush⟩ | ⟨front', c, heq, -, hs⟩
  · obtain rfl : { op := .load, span } = c := by simpa using congrArg List.getLast? heq
    cases hpush
  · rw [(List.append_inj' heq rfl).1]
    exact hs

theorem AtomCode.word {t : Token} {cs : List Command} (h : AtomCode env t cs) (hn : (Expr.atom t).namesWord env = true) :
    ∃ o, cs = readVariable o false t.span := by
  obtain ⟨hident, hvar⟩ := Bool.and_eq_true_iff.mp hn
  obtain ⟨s, hs, hs'⟩ := (Option.any_eq_true ..).mp hvar
  obtain ⟨hk, harray⟩ : s.kind = .var ∧ s.isArray = false := by simpa using hs'
  cases h with
  | @«variable» _ o _ hs' =>
    obtain rfl := Option.some.inj (hs'.symm.trans hs)
    exact ⟨o, by rw [harray]⟩
  | function _ h =>
    rcases h with ⟨s', hs', hk'⟩ | ⟨hnone, -⟩
    · obtain rfl := Option.some.inj (hs'.symm.trans hs)
      rw [hk] at hk'
      rcases hk' with hk' | hk' <;> cases hk'
    · cases hnone.symm.trans hs
  | text hid | number hid => exact absurd (hid.symm.trans hident) (by decide)

/-- The code of a place that holds a word. -/
theorem Expr.Coded.word {cs : List Command} {n : Nat} (h : e.Coded env cs n) (ha : env.AritiesOK arity)
    (hn : e.namesWord env = true) : n = 1 ∧ ∃ address write, WordCode arity cs address write := by
  induction h using Expr.Coded.rec (motive_2 := fun _ _ _ => True) with
  | atom h =>
    obtain ⟨o, rfl⟩ := h.word hn
    exact ⟨rfl, _, _, .named o _⟩
  | @unary op t _ _ _ he =>
    cases op with
    | deref => exact ⟨rfl, _, _, .pointed (he.heights ha).1 t.span⟩
    | _ => cases hn
  | @index t _ _ _ _ hi hb => exact ⟨rfl, _, _, .pointed (((Expr.Coded.index hi hb).heights ha).2 rfl).front t.span⟩
  | cast _ ih => exact ih hn
  | nil | cons => trivial
  | _ => cases hn

end

/-! ## Executing the code of a place -/

/-- `m'` is `m` but for the eight bytes from `a` on, which hold `v`. -/
structure Memory.WrittenAt (m : Memory) (a v : UInt64) (m' : Memory) : Prop where
  word : m'.load? a = some v
  size : m'.bytes.size = m.bytes.size
  other : ∀ i, Memory.base.toNat + i < a.toNat ∨ a.toNat + 8 ≤ Memory.base.toNat + i → m'.bytes[i]? = m.bytes[i]?

theorem Memory.writtenAt {m m' : Memory} {a v : UInt64} (h : m.store? a v = some m') : m.WrittenAt a v m' := by
  unfold store? at h
  split at h
  next i hi =>
    obtain rfl := Option.some.inj h
    refine ⟨load?_setWordAt_self v hi, size_setWordAt .., fun j hj => getElem?_setWordAt_of_apart m v ?_⟩
    obtain ⟨⟨hlo, -⟩, hi⟩ := offset?_eq_some.mp hi
    omega
  · cases h

namespace Machine

/-- Executes commands that go on to the next one, one after the other. -/
def execEach (frame : Frame) (pc : Nat) : List Command → Exec Unit
  | [] => pure ()
  | c :: cs => do
    let _ ← exec frame ⟨c, pc⟩
    execEach frame pc cs

/-- The word at `a` on top of `rest`. -/
def fetched (a : UInt64) (rest : List UInt64) (m : Machine) : EStateM.Result Fault Machine Unit :=
  match m.memory.load? a with
  | some w => .ok () { m with stack := w :: rest }
  | none => .error (.badAddress a) { m with stack := rest }

/-- The word `v` at `a`, and `rest` on the stack. -/
def written (a v : UInt64) (rest : List UInt64) (m : Machine) : EStateM.Result Fault Machine Unit :=
  match m.memory.store? a v with
  | some memory => .ok () { m with memory, stack := rest }
  | none => .error (.badAddress a) { m with stack := rest }

theorem push_load (a : UInt64) (m : Machine) : (do push (← load a) : Exec Unit) m = fetched a m.stack m := by
  simp only [load, bind, EStateM.bind, get_eq, fetched]
  cases m.memory.load? a <;> rfl

theorem store_written (a v : UInt64) (m : Machine) : store a v m = written a v m.stack m := by
  simp only [store, bind, EStateM.bind, get_eq, written, Memory.store?]
  cases m.memory.offset? a <;> rfl

section

variable {m : Machine} {a v : UInt64} {rest : List UInt64} (frame : Frame) (pc : Nat) (span : Span)

theorem pop_bind {α : Type} (f : Function) (i : Instr) (x : UInt64 → Exec α) (h : m.stack = v :: rest) :
    (pop f i >>= x) m = x v { m with stack := rest } := by
  simp only [bind, EStateM.bind, pop_eq f i h]

theorem execEach_one {c : Command} {x : Exec Unit} (hx : exec frame ⟨c, pc⟩ = (do x; return .frame frame)) :
    execEach frame pc [c] = x := by
  simp only [execEach, hx, bind_assoc, pure_bind]
  exact bind_pure x

theorem execEach_load (hst : m.stack = a :: rest) : execEach frame pc [{ op := .load, span }] m = fetched a rest m := by
  rw [@execEach_one frame pc _ (do push (← load (← pop frame.function ⟨{ op := .load, span }, pc⟩)))
    (by simp only [bind_assoc]; rfl)]
  exact (pop_bind _ _ _ hst).trans (push_load a _)

theorem execEach_store (hst : m.stack = a :: v :: rest) :
    execEach frame pc [{ op := .store, span }] m = written a v rest m := by
  rw [@execEach_one frame pc _ (do
    let a ← pop frame.function ⟨{ op := .store, span }, pc⟩
    let v ← pop frame.function ⟨{ op := .store, span }, pc⟩
    store a v) (by simp only [bind_assoc]; rfl)]
  exact (pop_bind _ _ _ hst).trans ((pop_bind _ _ _ rfl).trans (store_written a v _))

theorem execEach_address (o : Storage) :
    execEach frame pc [o.addressCommand span] m = .ok () { m with stack := o.address m.rbp :: m.stack } := by
  cases o <;> rfl

theorem execEach_read (o : Storage) :
    execEach frame pc (readVariable o false span) m = fetched (o.address m.rbp) m.stack m := by
  cases o with
  | stack n =>
    show execEach frame pc [_] m = _
    rw [@execEach_one frame pc _ (do push (← load ((← get).rbp - n.toUInt64))) (by simp only [bind_assoc]; rfl)]
    exact push_load ..
  | static n =>
    show execEach frame pc [_] m = _
    rw [@execEach_one frame pc _ (do push (← load (Memory.base + n.toUInt64))) (by simp only [bind_assoc]; rfl)]
    exact push_load ..

end

/-- Code for a place. The ways to take its address, to read it and to write to it have the same beginning, which leaves a number
of values and does whatever else there is to do. From there, the address is put on the stack, or the word at the address, or a
value is written to it. -/
def Accesses (arity : Arities) (address read write : List Command) : Prop :=
  ∃ front a r w k, Shifts arity 0 0 k front ∧ address = front ++ a ∧ read = front ++ r ∧ write = front ++ w ∧
    ∀ (frame : Frame) (pc : Nat) (m : Machine) (top rest : List UInt64), top.length = k → m.stack = top ++ rest →
      ∃ x, execEach frame pc a m = .ok () { m with stack := x :: rest } ∧ execEach frame pc r m = fetched x rest m ∧
        ∀ v rest', rest = v :: rest' → execEach frame pc w m = written x v rest' m

theorem accesses {arity : Arities} {read address write : List Command} (h : WordCode arity read address write) :
    Accesses arity address read write := by
  cases h with
  | named o span =>
    refine ⟨[], _, _, _, 0, .nil, rfl, rfl, rfl, fun frame pc m top rest htop hst => ?_⟩
    obtain rfl := List.eq_nil_of_length_eq_zero htop
    obtain rfl : m.stack = rest := hst
    refine ⟨_, execEach_address .., execEach_read .., fun v rest hv => ?_⟩
    have hst : ({ m with stack := o.address m.rbp :: m.stack } : Machine).stack = o.address m.rbp :: v :: rest :=
      congrArg _ hv
    cases o <;> exact execEach_store frame pc span hst
  | @pointed front hs span =>
    refine ⟨front, _, _, _, 1, hs, rfl, rfl, rfl, fun frame pc m top rest htop hst => ?_⟩
    obtain ⟨x, rfl⟩ := List.length_eq_one_iff.mp htop
    refine ⟨x, congrArg (EStateM.Result.ok ()) ?_, execEach_load frame pc span hst, fun v rest' hv => ?_⟩
    · rw [← show m.stack = x :: rest from hst]
    · exact execEach_store frame pc span (hv ▸ hst)

end Machine

/-! ## Places in a text -/

section

variable {e : Expr}

theorem Expr.CodedStores.places {targets : List Expr} {cs : List Command} (h : Expr.CodedStores env targets cs) :
    ∀ e ∈ targets, e.isPlace = true := by
  induction h with
  | nil => exact fun e he => by cases he
  | cons _ hp _ _ ih => exact List.forall_mem_cons.mpr ⟨hp, ih⟩

theorem single_of_one {p : Produced} (h : p.values = 1) : single e p = pure p.code := by
  unfold single
  rw [h]
  rfl

theorem lower_addressOf {address : List Command} (hv : (e.lower env notes).1.values = 1)
    (ha : asLvalue e .address (e.lower env notes).1.code = pure address) (t : Token) :
    ((Expr.unary .addressOf t e).lower env notes).1.code = address := by
  show (((single e (e.lower env notes).1 >>= fun cs => asLvalue e .address cs >>= fun cs => pure (⟨cs, 1⟩ : Produced)) :
    Lower Produced) _).1.code = address
  rw [single_of_one hv, pure_bind, ha]
  rfl

theorem lower_assign {v : Expr} {write : List Command} (hone : (v.lower env notes).1.values = 1)
    (hv : (e.lower env (v.lower env notes).2).1.values = 1)
    (ha : asLvalue e .store (e.lower env (v.lower env notes).2).1.code = pure write) (t : Token) :
    ((Expr.binary .assign t e v).lower env notes).1.code = (v.lower env notes).1.code ++ write := by
  show (((single v (v.lower env notes).1 >>= fun value => e.lower env >>= fun p => single e p >>= fun cs =>
    asLvalue e .store cs >>= fun cs => pure (⟨value ++ cs, 0⟩ : Produced)) : Lower Produced) _).1.code = _
  rw [single_of_one hone, pure_bind]
  show (((single e (e.lower env (v.lower env notes).2).1 >>= fun cs => asLvalue e .store cs >>= fun cs =>
    pure (⟨(v.lower env notes).1.code ++ cs, 0⟩ : Produced)) : Lower Produced) _).1.code = _
  rw [single_of_one hv, pure_bind, ha]
  rfl

/-- In an assignment that nothing is wrong with, nothing is wrong with the value and with the place. -/
theorem accepted_assign {v : Expr} (he : e.Whole) (hv : v.Whole) {t : Token}
    (ha : ((Expr.binary .assign t e v).lower env notes).2.Accepted) :
    (v.lower env notes).2.Accepted ∧ (v.lower env notes).1.values = 1 ∧ (e.lower env (v.lower env notes).2).2.Accepted := by
  have hstore : ∀ value p, Ensures accepted (single e p >>= fun cs => asLvalue e .store cs >>= fun cs =>
      pure (⟨value ++ cs, 0⟩ : Produced)) fun _ => True := fun value p =>
    (accepted_single he.isError p).bind fun _ => (@accepted_asLvalue env _ he .store _).bind fun _ => .pure fun _ _ => trivial
  have hvalue : Ensures accepted (single v (v.lower env notes).1 >>= fun value => e.lower env >>= fun p => single e p >>=
      fun cs => asLvalue e .store cs >>= fun cs => pure (⟨value ++ cs, 0⟩ : Produced)) fun _ => (v.lower env notes).1.values = 1 :=
    (accepted_single hv.isError _).bind fun value => (he.accepted_coded env).bind fun p =>
      (hstore value p).mono fun _ _ _ h => h.2
  obtain ⟨haccepted, hone⟩ := hvalue.clean (v.lower env notes).2 trivial ha
  refine ⟨haccepted, hone, ((hstore (v.lower env notes).1.code (e.lower env (v.lower env notes).2).1).clean _ trivial ?_).1⟩
  have ha' : ((single v (v.lower env notes).1 >>= fun value => e.lower env >>= fun p => single e p >>= fun cs =>
    asLvalue e .store cs >>= fun cs => pure (⟨value ++ cs, 0⟩ : Produced)) (v.lower env notes).2).2.Accepted := ha
  rw [single_of_one hone, pure_bind] at ha'
  exact ha'

end

theorem Notes.exists_error (h : ¬notes.Accepted) : ∃ error ∈ notes.errors, error.diagnostic.isWarning = false := by
  simpa [Notes.Accepted] using h

def pointingSource : String := "p : ^u64;"

def pointer : Token := { kind := .ident, text := "p", span := .nowhere }

def star : Token := { kind := .symbol .caret, text := "^", span := .nowhere }

end Wordstack
