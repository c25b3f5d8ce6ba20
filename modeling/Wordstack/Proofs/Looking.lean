/-
Code that only looks. Whatever lies on the stack, one value comes on top of it and nothing else changes, or the run ends in
a fault. Such code goes forward, so that a run takes no more steps than there are instructions.
-/
import Wordstack.Proofs.Evaluation

namespace Wordstack

open Lower Machine

theorem Does.weaken {F F' : Faults} {cs : List Command} {m : Machine} {Q : Machine → Prop} (h : Does F cs m Q)
    (hf : ∀ e n, F e n → F' e n) : Does F' cs m Q := by
  intro f callers pc hcode
  rcases h f callers pc hcode with hgoes | ⟨k, e, he, hs⟩
  · exact .inl hgoes
  · exact .inr ⟨k, e, hf _ _ he, hs⟩

namespace Machine

/-- Wherever `cs` stands, it makes `stack'?` of `stack`, or ends in one of the faults if that is none. Nothing else changes,
and each of its instructions is executed at most once. -/
def Turns (F : Fault → Prop) (m : Machine) (cs : List Command) (stack : List UInt64) (stack'? : Option (List UInt64)) : Prop :=
  ∀ steps, Does (fun e n => stack'? = none ∧ F e ∧ n ≤ steps + cs.length) cs { m with steps, stack } fun m' =>
    ∃ stack' steps', stack'? = some stack' ∧ steps' ≤ steps + cs.length ∧ m' = { m with steps := steps', stack := stack' }

/-- The code `cs` puts a value on top of whatever lies on the stack, if there is one. -/
def Leaves (F : Fault → Prop) (m : Machine) (cs : List Command) (v? : Option UInt64) : Prop :=
  ∀ stack, m.Turns F cs stack (v?.map (· :: stack))

variable {F : Fault → Prop} {m : Machine} {cs ds : List Command} {stack : List UInt64} {span : Span} {v? l? r? : Option UInt64}

namespace Turns

theorem one {c : Command} {stack' : List UInt64}
    (h : ∀ frame pc fuel steps, exec frame ⟨c, pc⟩ { m with fuel, steps, stack } =
      .ok (.frame frame) { m with fuel, steps, stack := stack' }) : m.Turns F [c] stack (some stack') :=
  fun _ => .command (fun _ _ _ hi => .exec hi rfl fun _ => h ..) ⟨_, _, rfl, Nat.le_refl _, rfl⟩

theorem fault {c : Command} (h : ∀ frame pc, ∃ e, F e ∧ ∀ fuel steps, ∃ m',
    exec frame ⟨c, pc⟩ { m with fuel, steps, stack } = .error e m') : m.Turns F [c] stack none := by
  intro steps f callers pc hcode
  obtain ⟨e, he, h⟩ := h ⟨f, pc + 1⟩ pc
  exact .fault hcode.head ⟨rfl, he, Nat.le_refl _⟩ fun n => h n (steps + 1)

theorem bind {stack'? : Option (List UInt64)} {g : List UInt64 → Option (List UInt64)} (h : m.Turns F cs stack stack'?)
    (h' : ∀ stack' ∈ stack'?, m.Turns F ds stack' (g stack')) : m.Turns F (cs ++ ds) stack (stack'?.bind g) := by
  intro steps
  rw [List.length_append]
  refine ((h steps).weaken ?_).append ?_
  · rintro e n ⟨rfl, he, hn⟩
    exact ⟨rfl, he, by omega⟩
  · rintro _ ⟨stack', steps', rfl, hle, rfl⟩
    refine ((h' stack' rfl steps').weaken ?_).mono ?_
    · rintro e n ⟨hnone, he, hn⟩
      exact ⟨hnone, he, by omega⟩
    · rintro _ ⟨stack'', steps'', hsome, hle', rfl⟩
      exact ⟨stack'', steps'', hsome, by omega, rfl⟩

end Turns

namespace Leaves

/-- A piece that goes on with the value on top of the stack. -/
theorem turns {g : UInt64 → Option (List UInt64)} (h : m.Leaves F cs v?) (h' : ∀ v, m.Turns F ds (v :: stack) (g v)) :
    m.Turns F (cs ++ ds) stack (v?.bind g) := by
  cases v? with
  | none => exact (h stack).bind (g := fun _ => none) fun _ hnone => by cases hnone
  | some v =>
    refine (h stack).bind (g := fun _ => g v) fun stack' hstack' => ?_
    obtain rfl : v :: stack = stack' := Option.some.inj hstack'
    exact h' v

/-- A piece that puts another value in the place of the one on top of the stack. -/
theorem bind {g : UInt64 → Option UInt64} (h : m.Leaves F cs v?)
    (h' : ∀ v stack, m.Turns F ds (v :: stack) ((g v).map (· :: stack))) : m.Leaves F (cs ++ ds) (v?.bind g) := by
  intro stack
  rw [Option.map_bind]
  exact h.turns fun v => h' v stack

theorem unary {op : Opcode} {apply : UInt64 → UInt64} (hop : op.unary? = some apply) (h : m.Leaves F cs v?) :
    m.Leaves F (cs ++ [({ op, span } : Command)]) (v?.bind fun v => some (apply v)) :=
  h.bind fun _ _ _ => .unary hop rfl ⟨_, _, rfl, Nat.le_refl _, rfl⟩

/-- The left operand ends up on top of the right one. -/
theorem binary {op : Opcode} {apply : UInt64 → UInt64 → Option UInt64} (hop : op.binary? = some apply)
    (hF : ∀ name i, F (.divisionByZero name i)) (hr : m.Leaves F cs r?) (hl : m.Leaves F ds l?) :
    m.Leaves F (cs ++ ds ++ [({ op, span } : Command)]) (r?.bind fun r => l?.bind fun l => apply l r) := by
  rw [List.append_assoc]
  refine hr.bind fun r stack => ?_
  have hlast : ∀ l, m.Turns F [({ op, span } : Command)] (l :: r :: stack) ((apply l r).map (· :: stack)) := by
    intro l
    cases hv : apply l r with
    | some v => exact fun _ => .binary hop rfl hv ⟨_, _, rfl, Nat.le_refl _, rfl⟩
    | none =>
      refine .fault fun frame pc => ⟨_, hF frame.function.name pc, fun fuel steps => ⟨{ m with fuel, steps, stack }, ?_⟩⟩
      rw [exec_binary hop rfl, hv]
  rw [Option.map_bind]
  exact hl.turns hlast

/-- The right operand is left out if the left one decides. -/
theorem shortCircuit {skip : Opcode} {taken : UInt64 → Prop} [DecidablePred taken]
    (hskip : skip = .jumpIf ∧ (∀ v, taken v ↔ v ≠ 0) ∨ skip = .jumpIfNot ∧ ∀ v, taken v ↔ v = 0) (hl : m.Leaves F cs l?)
    (hr : m.Leaves F ds r?) :
    m.Leaves F (Wordstack.shortCircuit skip span cs ds) (l?.bind fun v => if taken v then some v else r?) := by
  rw [show Wordstack.shortCircuit skip span cs ds = cs ++ Wordstack.shortCircuit skip span [] ds by
    simp [Wordstack.shortCircuit]]
  refine hl.bind fun v stack steps => .shortCircuit hskip (.nil ⟨rfl, ?_⟩)
  have hlength : (Wordstack.shortCircuit skip span [] ds).length = ds.length + 3 := rfl
  rw [hlength]
  by_cases ht : taken v
  · rw [if_pos ht]
    exact ⟨_, steps + 2, by rw [if_pos ht]; rfl, by omega, rfl⟩
  · rw [if_neg ht]
    refine ((hr stack (steps + 3)).weaken ?_).mono ?_
    · rintro e n ⟨hnone, he, hn⟩
      exact ⟨by rw [if_neg ht, hnone], he, by omega⟩
    · rintro _ ⟨stack', steps', hsome, hle, rfl⟩
      exact ⟨stack', steps', by rw [if_neg ht, hsome], by omega, rfl⟩

end Leaves
end Machine
end Wordstack
