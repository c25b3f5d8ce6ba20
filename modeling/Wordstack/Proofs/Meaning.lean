/-
What a program of words means, said without a machine: blocks of variables, globals, the
bytes written so far, and functions that call each other by name. Only the part of the
language that works on words by their names has a meaning here; pointers, arrays, casts,
members and functions from elsewhere have none.
-/
import Wordstack.Proofs.TypeFacts
import Wordstack.Machine.Word

namespace Wordstack

/-! ## Words -/

namespace Word

/-- The signed number that a word stands for. -/
def signed (w : UInt64) : Int := (w.toNat : Int).bmod UInt64.size

/-- How many places a shift by `w` moves. -/
def places (w : UInt64) : Nat := w.toNat % 64

end Word

/-- What an operator in front of a word comes to. -/
def UnaryOp.apply : UnaryOp → UInt64 → Option UInt64
  | .neg, v => some (0 - v)
  | .not, v => some (if v = 0 then 1 else 0)
  | .bitNot, v => some (~~~v)
  | .deref, _ | .addressOf, _ => none

/-- What an operator between two words comes to. Sums, differences and products wrap around, and so does
the one quotient that is too large; nothing is divided by zero. -/
def BinaryOp.apply : BinaryOp → UInt64 → UInt64 → Option UInt64
  | .add, l, r => some (l + r)
  | .sub, l, r => some (l - r)
  | .mul, l, r => some (l * r)
  | .div, l, r => if r = 0 then none else some (UInt64.ofInt ((Word.signed l).tdiv (Word.signed r)))
  | .mod, l, r => if r = 0 then none else some (UInt64.ofInt ((Word.signed l).tmod (Word.signed r)))
  | .shiftLeft, l, r => some (UInt64.ofNat (l.toNat * Nat.pow 2 (Word.places r)))
  | .shiftRight, l, r => some (UInt64.ofNat (l.toNat / Nat.pow 2 (Word.places r)))
  | .bitAnd, l, r => some (l &&& r)
  | .bitOr, l, r => some (l ||| r)
  | .bitXor, l, r => some (l ^^^ r)
  | .equals, l, r => some (if l = r then 1 else 0)
  | .notEquals, l, r => some (if l = r then 0 else 1)
  | .less, l, r => some (if Word.signed l < Word.signed r then 1 else 0)
  | .greater, l, r => some (if Word.signed r < Word.signed l then 1 else 0)
  | .lessEq, l, r => some (if Word.signed l ≤ Word.signed r then 1 else 0)
  | .greaterEq, l, r => some (if Word.signed r ≤ Word.signed l then 1 else 0)
  | .assign, _, _ | .and, _, _ | .or, _, _ | .member, _, _ => none

/-! ## The operations of the machine -/

namespace Word

theorem toInt_toInt64 (w : UInt64) : w.toInt64.toInt = signed w := by
  rw [← Int64.toInt_toBitVec, BitVec.toInt_eq_toNat_bmod]
  rfl

theorem toUInt64_ofInt (i : Int) : (Int64.ofInt i).toUInt64 = UInt64.ofInt i := by
  apply UInt64.toNat_inj.mp
  have h : (Int64.ofInt i).toUInt64.toNat = (BitVec.ofInt 64 i).toNat := rfl
  rw [h, BitVec.toNat_ofInt]
  simp only [UInt64.ofInt, UInt64.toNat_ofNat']
  have := Int.emod_lt_of_pos i (show (0 : Int) < 2 ^ 64 by decide)
  have := Int.emod_nonneg i (show (2 ^ 64 : Int) ≠ 0 by decide)
  omega

theorem div_eq (l r : UInt64) : div l r = UInt64.ofInt ((signed l).tdiv (signed r)) := by
  have h : l.toInt64 / r.toInt64 = Int64.ofInt ((signed l).tdiv (signed r)) := by
    apply Int64.toInt_inj.mp
    rw [Int64.toInt_div, Int64.toInt_ofInt, toInt_toInt64, toInt_toInt64]
  rw [div, h, toUInt64_ofInt]

theorem mod_eq (l r : UInt64) : mod l r = UInt64.ofInt ((signed l).tmod (signed r)) := by
  have h : l.toInt64 % r.toInt64 = Int64.ofInt ((signed l).tmod (signed r)) := by
    apply Int64.toInt_inj.mp
    rw [← toInt_toInt64, ← toInt_toInt64, ← Int64.toInt_mod, Int64.ofInt_toInt]
  rw [mod, h, toUInt64_ofInt]

theorem less_eq (l r : UInt64) : less l r = decide (signed l < signed r) := by
  unfold less
  rw [← toInt_toInt64, ← toInt_toInt64]
  exact decide_eq_decide.mpr Int64.lt_iff_toInt_lt

theorem lessEq_eq (l r : UInt64) : lessEq l r = decide (signed l ≤ signed r) := by
  unfold lessEq
  rw [← toInt_toInt64, ← toInt_toInt64]
  exact decide_eq_decide.mpr Int64.le_iff_toInt_le

theorem toNat_and_63 (w : UInt64) : (w &&& 63).toNat = places w := by
  rw [UInt64.toNat_and, show (63 : UInt64).toNat = 2 ^ 6 - 1 from rfl, Nat.and_two_pow_sub_one_eq_mod]
  rfl

theorem shiftLeft_eq (l r : UInt64) : l <<< (r &&& 63) = UInt64.ofNat (l.toNat * Nat.pow 2 (places r)) := by
  apply UInt64.toNat_inj.mp
  rw [UInt64.toNat_shiftLeft, UInt64.toNat_ofNat', toNat_and_63, Nat.shiftLeft_eq, places, Nat.mod_mod]
  rfl

theorem shiftRight_eq (l r : UInt64) : l >>> (r &&& 63) = UInt64.ofNat (l.toNat / Nat.pow 2 (places r)) := by
  apply UInt64.toNat_inj.mp
  rw [UInt64.toNat_shiftRight, UInt64.toNat_ofNat', toNat_and_63, Nat.shiftRight_eq_div_pow, places, Nat.mod_mod]
  exact (Nat.mod_eq_of_lt (Nat.lt_of_le_of_lt (Nat.div_le_self _ _) l.toNat_lt)).symm

end Word

theorem UnaryOp.opcode_apply {op : UnaryOp} {v w : UInt64} (h : op.apply v = some w) :
    ∃ f, op.opcode.unary? = some f ∧ op.apply = fun v => some (f v) := by
  cases op with
  | neg => exact ⟨_, rfl, funext fun v => congrArg some (UInt64.zero_sub v)⟩
  | not =>
    refine ⟨_, rfl, funext fun v => ?_⟩
    simp [apply, Word.ofBool]
  | bitNot => exact ⟨_, rfl, rfl⟩
  | deref | addressOf => cases h

/-- Every operator that is computed by one instruction is computed as it is meant. -/
theorem BinaryOp.opcode_apply {op : BinaryOp} (h : op.opcode ≠ .invalid) :
    ∃ f, op.opcode.binary? = some f ∧ ∀ l r, f l r = op.apply l r := by
  cases op
  case assign | and | or | member => exact absurd rfl h
  all_goals
    refine ⟨_, rfl, fun l r => ?_⟩
    simp only [BinaryOp.apply, Word.div_eq, Word.mod_eq, Word.less_eq, Word.lessEq_eq, Word.shiftLeft_eq,
      Word.shiftRight_eq, Word.ofBool, decide_eq_true_eq, ne_eq, ite_not]

/-! ## Stores -/

/-- What all functions share: the globals, and the bytes written so far. -/
structure World where
  globals : NameTable UInt64 := []
  output : Array UInt8 := #[]

/-- What a statement works on: the variables of the blocks around it, the innermost first, and the world. -/
structure Store extends World where
  locals : List (NameTable UInt64) := []

namespace Store

/-- The value of the innermost variable of that name. A global that is `hidden` does not count. -/
def read (hidden : Option String) (x : String) (σ : Store) : Option UInt64 :=
  match σ.locals.findSome? (NameTable.get? x) with
  | some v => some v
  | none => if hidden = some x then none else σ.globals.get? x

/-- Changes the innermost variable of that name. -/
def assign (x : String) (v : UInt64) : List (NameTable UInt64) → Option (List (NameTable UInt64))
  | [] => none
  | block :: blocks =>
    if (block.get? x).isSome then some (block.set x v :: blocks) else (assign x v blocks).map (block :: ·)

def write (hidden : Option String) (x : String) (v : UInt64) (σ : Store) : Option Store :=
  match assign x v σ.locals with
  | some locals => some { σ with locals }
  | none =>
    if hidden = some x ∨ σ.globals.get? x = none then none
    else some { σ with globals := σ.globals.set x v }

def openBlock (σ : Store) : Store := { σ with locals := [] :: σ.locals }

def closeBlock (σ : Store) : Store := { σ with locals := σ.locals.tail }

/-- Enters a variable into the innermost block. -/
def declare (x : String) (v : UInt64) (σ : Store) : Store :=
  match σ.locals with
  | [] => σ
  | block :: blocks => { σ with locals := block.set x v :: blocks }

end Store

/-! ## Expressions -/

/-- What a call by name comes to, if it comes back. -/
abbrev Caller := String → List UInt64 → World → Option (Option UInt64 × World)

/-- The name that an expression consists of. -/
def Expr.name? : Expr → Option String
  | .atom t => if t.isIdent then some t.text else none
  | _ => none

/-- The value of a literal. -/
def Token.value? (t : Token) : Option UInt64 :=
  match t.kind, t.literal with
  | .integer, .unsigned v | .keyword .trueWord, .unsigned v | .keyword .falseWord, .unsigned v => some v
  | _, _ => none

/-- Where a value is asked for, there has to be one. -/
def valueOf? : Option UInt64 × Store → Option (UInt64 × Store)
  | (some v, σ) => some (v, σ)
  | (none, _) => none

mutual

/-- The value of an expression, if it has one. The right operand is computed before the left one; the
operators that may leave out an operand start with the left one and come to the one that decides. -/
def Expr.eval (call : Caller) (hidden : Option String) : Expr → Store → Option (Option UInt64 × Store)
  | .atom t, σ => (if t.isIdent then σ.read hidden t.text else t.value?).map fun v => (some v, σ)
  | .unary op _ e, σ => do
    let (v, σ) ← (e.eval call hidden σ).bind valueOf?
    return (some (← op.apply v), σ)
  | .binary .assign _ target value, σ => do
    let x ← target.name?
    let (v, σ) ← (value.eval call hidden σ).bind valueOf?
    return (none, ← σ.write hidden x v)
  | .binary .and _ l r, σ => do
    let (v, σ) ← (l.eval call hidden σ).bind valueOf?
    if v = 0 then return (some v, σ)
    else
      let (v, σ) ← (r.eval call hidden σ).bind valueOf?
      return (some v, σ)
  | .binary .or _ l r, σ => do
    let (v, σ) ← (l.eval call hidden σ).bind valueOf?
    if v ≠ 0 then return (some v, σ)
    else
      let (v, σ) ← (r.eval call hidden σ).bind valueOf?
      return (some v, σ)
  | .binary op _ l r, σ => do
    let (b, σ) ← (r.eval call hidden σ).bind valueOf?
    let (a, σ) ← (l.eval call hidden σ).bind valueOf?
    return (some (← op.apply a b), σ)
  | .call _ f args, σ => do
    let name ← f.name?
    let (values, σ) ← Expr.evalArgs call hidden args σ
    let (v?, world) ← call name values σ.toWorld
    return (v?, { σ with toWorld := world })
  | _, _ => none

/-- The arguments of a call, computed from the last to the first. -/
def Expr.evalArgs (call : Caller) (hidden : Option String) :
    List Expr → Store → Option (List UInt64 × Store)
  | [], σ => some ([], σ)
  | e :: es, σ => do
    let (vs, σ) ← Expr.evalArgs call hidden es σ
    let (v, σ) ← (e.eval call hidden σ).bind valueOf?
    return (v :: vs, σ)

end

/-! ## Statements -/

/-- How a statement ends. -/
inductive Signal
  | next
  | exit (e : LoopExit)
  | returned (v? : Option UInt64)

/-- A loop that comes to its end in less than `bound` rounds. -/
def iterate (condition : Store → Option (UInt64 × Store)) (body : Store → Option (Signal × Store)) :
    (bound : Nat) → Store → Option (Signal × Store)
  | 0, _ => none
  | n + 1, σ => do
    let (v, σ) ← condition σ
    if v = 0 then return (.next, σ)
    else
      let (s, σ) ← body σ
      match s with
      | .next | .exit .again => iterate condition body n σ
      | .exit .leave => return (.next, σ)
      | .returned v? => return (.returned v?, σ)

/-- A statement with a block of its own around it. -/
def inBlock (run : Store → Option (Signal × Store)) (σ : Store) : Option (Signal × Store) := do
  let (s, σ) ← run σ.openBlock
  return (s, σ.closeBlock)

mutual

def Stmt.exec (call : Caller) (bound : Nat) : Stmt → Store → Option (Signal × Store)
  | .block _ body, σ => inBlock (Stmt.execAll call bound body) σ
  | .ifThen _ c yes, σ => do
    let (v, σ) ← (c.eval call none σ).bind valueOf?
    if v = 0 then return (.next, σ) else Stmt.execBranch call bound yes σ
  | .ifElse _ c yes no, σ => do
    let (v, σ) ← (c.eval call none σ).bind valueOf?
    if v = 0 then Stmt.execBranch call bound no σ else Stmt.execBranch call bound yes σ
  | .while _ c body, σ =>
    iterate (fun σ => (c.eval call none σ).bind valueOf?) (fun σ => Stmt.execBranch call bound body σ) bound σ
  | .return _, σ => some (.returned none, σ)
  | .returnWith _ values, σ =>
    match values.items with
    | [e] => do
      let (v, σ) ← (e.eval call none σ).bind valueOf?
      return (.returned (some v), σ)
    | _ => none
  | .exit e _, σ => some (.exit e, σ)
  | .expr _ e, σ => do
    let (_, σ) ← e.eval call none σ
    return (.next, σ)
  | .declareAs name _ e, σ => do
    let (v, σ) ← (e.eval call none σ).bind valueOf?
    return (.next, σ.declare name.text v)
  | _, _ => none
termination_by s => 2 * sizeOf s

/-- A branch or the body of a loop, which is a block even if it has no braces. -/
def Stmt.execBranch (call : Caller) (bound : Nat) : Stmt → Store → Option (Signal × Store)
  | .block t body, σ => (Stmt.block t body).exec call bound σ
  | s, σ => inBlock (s.exec call bound) σ
termination_by s => 2 * sizeOf s + 1

def Stmt.execAll (call : Caller) (bound : Nat) : List Stmt → Store → Option (Signal × Store)
  | [], σ => some (.next, σ)
  | s :: rest, σ => do
    let (signal, σ) ← s.exec call bound σ
    match signal with
    | .next => Stmt.execAll call bound rest σ
    | signal => return (signal, σ)
termination_by ss => 2 * sizeOf ss

end

/-! ## Calls -/

/-- A function as it stands in the text. -/
structure Routine where
  params : List String
  returns : Nat
  body : List Stmt

def Stmt.routine? (name : String) : Stmt → Option Routine
  | .define t ty _ body =>
    if t.text = name then some ⟨ty.paramTokens.map Token.text, ty.returnCount, body⟩ else none
  | _ => none

/-- The parameters have a block of their own around the body. Behind its last statement a function returns
if it has no value to return. -/
def Routine.run (r : Routine) (call : Caller) (bound : Nat) (args : List UInt64) (world : World) :
    Option (Option UInt64 × World) :=
  if args.length = r.params.length then do
    let params := (r.params.zip args).foldl (fun block (x, v) => NameTable.set x v block) []
    let (signal, σ) ← Stmt.execAll call bound r.body { world with locals := [[], params] }
    match signal with
    | .returned v? => return (v?, σ.toWorld)
    | .next => if r.returns = 0 then return (none, σ.toWorld) else none
    | .exit _ => none
  else none

def Builtin.run : Builtin → List UInt64 → World → Option (Option UInt64 × World)
  | .putchar, [v], world => some (none, { world with output := world.output.push v.toUInt8 })
  | _, _, _ => none

/-- Calls that are nested at most `depth` deep. What a name stands for is its first definition in the
text; a name without one may be that of a builtin. -/
def calls (items : List Stmt) (bound : Nat) : (depth : Nat) → Caller
  | 0, name, args, world =>
    match items.findSome? (Stmt.routine? name) with
    | some _ => none
    | none => (Builtin.ofName? name).bind fun b => b.run args world
  | depth + 1, name, args, world =>
    match items.findSome? (Stmt.routine? name) with
    | some r => r.run (calls items bound depth) bound args world
    | none => (Builtin.ofName? name).bind fun b => b.run args world

/-! ## Programs -/

/-- Items that have a meaning here: functions, their prototypes, and variables of one word. -/
def Stmt.isScalarItem : Stmt → Bool
  | .define .. => true
  | .declare _ ty | .declareAs _ ty _ => !ty.isArray
  | _ => false

/-- The variable that an item declares. -/
def Stmt.variableName? : Stmt → Option String
  | .declare t ty | .declareAs t ty _ => if ty.isFunction then none else some t.text
  | _ => none

/-- The first value that an item gives to a variable. -/
def Stmt.initial? (x : String) : Stmt → Option Expr
  | .declareAs t _ e => if t.text = x then some e else none
  | _ => none

/-- What a variable holds before anything is computed: its literal, or zero. -/
def literalOf (items : List Stmt) (x : String) : UInt64 :=
  ((items.findSome? (Stmt.initial? x)).bind fun e => e.atom?.bind Token.value?).getD 0

def initialGlobals (items : List Stmt) : NameTable UInt64 :=
  (items.filterMap Stmt.variableName?).map fun x => (x, literalOf items x)

/-- Gives the globals their first values in the order of the text, those that have literals aside. If a
variable is declared again with its value, nothing is computed again. In its own first value a variable
does not count. -/
def initGlobals (call : Caller) : (seen : List String) → List Stmt → World → Option World
  | _, [], world => some world
  | seen, .declareAs t _ e :: items, world =>
    if t.text ∈ seen ∨ (e.atom?.bind Token.value?).isSome then initGlobals call (t.text :: seen) items world
    else do
      let (v, σ) ← (e.eval call (some t.text) { world with locals := [] }).bind valueOf?
      let σ ← σ.write none t.text v
      initGlobals call (t.text :: seen) items σ.toWorld
  | seen, _ :: items, world => initGlobals call seen items world

/-- What the function `main` returns, and the world that it leaves, if calls are nested at most `depth` deep
and loops make less than `bound` rounds. -/
def meaning (items : List Stmt) (depth bound : Nat) : Option (Option UInt64 × World) :=
  if items.all Stmt.isScalarItem then do
    let world ← initGlobals (calls items bound depth) [] items { globals := initialGlobals items }
    calls items bound depth "main" [] world
  else none

end Wordstack
