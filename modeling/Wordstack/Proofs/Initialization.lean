/-
How the globals get their first values: the code for it runs in the first call, before the function that is called,
and never again. A failure of it is not remembered, so that later calls go on with what it has left.
-/
import Wordstack.Proofs.Fuel

namespace Wordstack.Machine

variable {m : Machine}

/-- Runs the function `name`, and nothing else, and takes what it leaves on the operand stack. -/
def serve (name : String) : Exec (List UInt64) := do
  match (← get).program.function? name with
  | none => throw (.unknownFunction name)
  | some f =>
    if f.external then throw (.externalFunction name)
    else
      clearStack
      run f
      let values := (← get).stack
      clearStack
      return values.reverse

/-- `session`, but without the code for the globals. -/
def served : List String → Machine → List (EStateM.Result Fault Machine (List UInt64))
  | [], _ => []
  | name :: names, m => serve name m :: served names (final (serve name m))

/-- The machine on which the code for the globals runs. -/
def fresh (m : Machine) : Machine := { m with initialized := true }

theorem call_first (name : String) (h : m.initialized = false) :
    call name m = match run m.program.init m.fresh with
      | .ok _ m' => serve name m'
      | .error e m' => .error e m' := by
  simp only [call, bind, EStateM.bind, get_eq, h, Bool.not_false, if_true, modify_eq, fresh]
  cases run m.program.init { m with initialized := true } <;> rfl

theorem call_later (name : String) (h : m.initialized = true) : call name m = serve name m := by
  simp only [call, bind, EStateM.bind, get_eq, h]
  rfl

theorem kept_run (f : Function) (m : Machine) : Kept m (final (run f m)) := by
  have hp : Kept m _ := (plain_pushNative returnMarker).kept { m with rsp := m.stackTop, rbp := m.stackTop }
  simp only [run, bind, EStateM.bind, modify_eq]
  cases hm : pushNative returnMarker { m with rsp := m.stackTop, rbp := m.stackTop } with
  | error e m' =>
    rw [hm] at hp
    exact hp
  | ok u m' =>
    rw [hm] at hp
    obtain ⟨k, -, hover⟩ := over_finish ⟨⟨f, 0⟩, [], m'⟩
    exact hp.trans hover.counts.2

theorem kept_serve (name : String) (m : Machine) : Kept m (final (serve name m)) := by
  simp only [serve, bind, EStateM.bind, get_eq]
  cases m.program.function? name with
  | none => exact .refl m
  | some f =>
    dsimp only
    split
    · exact .refl m
    · have hrun : Kept m _ := kept_run f { m with stack := [] }
      simp only [clearStack, modify_eq, get_eq, EStateM.bind]
      cases hr : run f { m with stack := [] } with
      | ok u m' | error e m' =>
        rw [hr] at hrun
        exact hrun

theorem session_later (names : List String) (h : m.initialized = true) : session names m = served names m := by
  induction names generalizing m with
  | nil => rfl
  | cons name names ih =>
    rw [session, served, call_later name h, ih ((kept_serve name m).2.1.trans h)]

/-- The code for the globals runs first of all, on the machine as it was made, and never again. If it comes to its end
the calls are served one after the other by the machine that it leaves. If it fails, the first call fails with its fault
and no function runs; but the calls after that are served, by the machine that it has left. -/
theorem globals_set_up_once (p : Program) (fuel : Nat) (name : String) (names : List String) :
    session (name :: names) (ofProgram p fuel) = match run p.init (ofProgram p fuel).fresh with
      | .ok _ m => served (name :: names) m
      | .error e m => .error e m :: served names m := by
  have hfirst := call_first (m := ofProgram p fuel) name rfl
  have hkept := kept_run p.init (ofProgram p fuel).fresh
  rw [show (ofProgram p fuel).program = p from rfl] at hfirst
  cases hrun : run p.init (ofProgram p fuel).fresh with
  | ok u m =>
    rw [hrun] at hfirst hkept
    have hflag : m.initialized = true := hkept.2.1
    rw [session, hfirst]
    exact congrArg _ (session_later names ((kept_serve name m).2.1.trans hflag))
  | error e m =>
    rw [hrun] at hfirst hkept
    have hflag : m.initialized = true := hkept.2.1
    rw [session, hfirst]
    exact congrArg _ (session_later names hflag)

/-! ## Calls after a failure -/

/-- A function that does nothing, and some code for the globals. -/
def starting (code : Array Instr) : Program where
  functions := [{ name := "main" }]
  init := { code }

theorem run_idle {p : Program} {size : Nat} (hm : m.Idle p size) (hfuel : 0 < m.fuel) (f : Function) (hf : f.code = #[]) :
    ∃ m', run f m = .ok () m' ∧ m'.stack = m.stack := by
  obtain ⟨hlimit, -, i, hi⟩ := hm.entry
  have hreturn := load?_entered hi
  have hrun := run_eq f hlimit hi
  have hstack := entered_stack i m
  generalize m.entered i = m₁ at hreturn hrun hstack
  obtain ⟨n, hn⟩ : ∃ n, m.fuel = n + 1 := ⟨m.fuel - 1, by omega⟩
  have hcode : f.code[0]? = none := by simp [hf]
  refine ⟨{ m₁ with rsp := m₁.rsp + 8 }, ?_, hstack⟩
  rw [hrun, hn]
  simp only [runFrom, unwind, hcode, bind, EStateM.bind, popNative_eq hreturn, pure, EStateM.pure]

theorem call_idle {code : Array Instr} {size : Nat} (hm : m.Idle (starting code) size) (hfuel : 0 < m.fuel)
    (hinit : m.initialized = true) : ∃ m', call "main" m = .ok [] m' := by
  have hf : m.program.function? "main" = some { name := "main" } := by rw [hm.program]; rfl
  obtain ⟨m', hrun, hstack⟩ := run_idle (m := { m with stack := [] }) (hm.update _ _ _ _ _) hfuel
    { name := "main" } rfl
  refine ⟨{ m' with stack := [] }, ?_⟩
  have hvalues : m'.stack.reverse = [] := by rw [hstack]; rfl
  simp only [call, bind, EStateM.bind, get_eq, hinit, Bool.not_true, Bool.false_eq_true, if_false, hf, clearStack,
    modify_eq]
  rw [hinit] at hrun
  simp only [hrun, pure, EStateM.pure, hvalues]

/-- The code for the globals fails at once. -/
def failing : Program := starting #[⟨{ op := .invalid, span := .nowhere }, 0⟩]

theorem session_failing : ∃ m m',
    run failing.init (ofProgram failing 2).fresh = .error (.trap "" 0 .invalid) m ∧
      session ["main", "main"] (ofProgram failing 2) = [.error (.trap "" 0 .invalid) m, .ok [] m'] := by
  have hm₀ := idle_ofProgram (show failing.Fits by decide) 2
  obtain ⟨hnew, hfuel⟩ : (ofProgram failing 2).initialized = false ∧ (ofProgram failing 2).fuel = 2 := ⟨rfl, rfl⟩
  generalize ofProgram failing 2 = m₀ at hm₀ hnew hfuel ⊢
  have hfresh : m₀.fresh.Idle failing _ := hm₀.update ..
  obtain ⟨hlimit, -, i, hi⟩ := hfresh.entry
  have hrun := run_eq failing.init hlimit hi
  have hm₁ := (hfresh.entered i).1
  have hready : (entered i m₀.fresh).initialized = true := by simp only [entered, fresh]
  generalize entered i m₀.fresh = m₁ at hrun hm₁ hready
  have hcode : failing.init.code[0]? = some ⟨{ op := .invalid, span := .nowhere }, 0⟩ := rfl
  have hexec (m : Machine) : exec ⟨failing.init, 0 + 1⟩ ⟨{ op := .invalid, span := .nowhere }, 0⟩ m =
    .error (.trap "" 0 .invalid) m := rfl
  have hfail : runFrom m₀.fuel ⟨failing.init, 0⟩ [] m₁ =
      .error (.trap "" 0 .invalid) { m₁ with fuel := 1, steps := m₁.steps + 1 } := by
    rw [hfuel, runFrom_succ hcode, hexec]
  have hinit : m₀.program.init = failing.init := by rw [hm₀.program]
  obtain ⟨m', hcall⟩ := call_idle (m := { m₁ with fuel := 1, steps := m₁.steps + 1 }) (hm₁.update ..) Nat.one_pos hready
  have hstopped := hrun.trans hfail
  have hfirst : call "main" m₀ = _ := call_eq_error hnew (by rw [hinit]; exact hstopped)
  refine ⟨_, m', hstopped, ?_⟩
  show [call "main" m₀, call "main" (final (call "main" m₀))] = _
  rw [hfirst]
  exact congrArg (fun r => [_, r]) hcall

/-- Some call returns although the globals never got their values. -/
theorem served_after_failure : ¬ ∀ (p : Program) (fuel : Nat) (names : List String) (values : List UInt64) (m : Machine),
    .ok values m ∈ session names (ofProgram p fuel) → ∃ m', run p.init (ofProgram p fuel).fresh = .ok () m' := by
  intro h
  obtain ⟨m, m', hrun, hsession⟩ := session_failing
  obtain ⟨m'', hok⟩ := h failing 2 ["main", "main"] [] m' (by rw [hsession]; simp)
  rw [hrun] at hok
  cases hok

end Wordstack.Machine
