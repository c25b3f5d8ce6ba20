/-
Fuel only cuts a run short. Instructions do not look at the fuel, so that a machine with
more of it goes through the same turns; a turn that costs nothing leaves a frame, so that
the turns of a run are bounded all the same.
-/
import Wordstack.Proofs.Likeness

namespace Wordstack.Machine

variable {e : Fault} {m m' : Machine}

variable {α β : Type}

/-! ## Computations that do not look at the fuel -/

/-- The machine with another count of instructions to go and done. -/
def counting (fuel steps : Nat) (m : Machine) : Machine := { m with fuel, steps }

/-- `x` neither reads nor changes what counts instructions, and output is only added to. -/
structure Plain (x : Exec α) : Prop where
  blind (m : Machine) (fuel steps : Nat) : x (m.counting fuel steps) = onFinal (counting fuel steps) (x m)
  fault (m : Machine) : ¬ OutOfFuel (x m)
  kept (m : Machine) : Kept m (final (x m))

namespace Plain

variable {x : Exec α}

theorem counts (h : Plain x) (m : Machine) : (final (x m)).fuel = m.fuel ∧ (final (x m)).steps = m.steps := by
  have hm : x m = onFinal (counting m.fuel m.steps) (x m) := h.blind m m.fuel m.steps
  rw [hm, final_onFinal]
  exact ⟨rfl, rfl⟩

theorem ok (h : Plain x) {a : α} (hm : x m = .ok a m') : m'.fuel = m.fuel ∧ m'.steps = m.steps ∧ Kept m m' := by
  have hc := h.counts m
  have hk := h.kept m
  rw [hm] at hc hk
  exact ⟨hc.1, hc.2, hk⟩

theorem error (h : Plain x) (hm : x m = .error e m') :
    (∀ k, e ≠ .outOfFuel k) ∧ m'.fuel = m.fuel ∧ m'.steps = m.steps ∧ Kept m m' := by
  have hc := h.counts m
  have hk := h.kept m
  rw [hm] at hc hk
  refine ⟨fun k hk => h.fault m ⟨k, m', ?_⟩, hc.1, hc.2, hk⟩
  rw [hm, hk]

/-- What does the same whatever the count of instructions is. -/
theorem of_matches (h : ∀ p, Matches p p (· = ·) x x) : Plain x := by
  have hm (m : Machine) (fuel steps : Nat) := h m.program m fuel steps rfl
  refine ⟨fun m fuel steps => ?_, fun m => ?_, fun m => ?_⟩
  · have hm := hm m fuel steps
    rw [show m.counting fuel steps = m.under m.program fuel steps from rfl]
    generalize x m = r, x (m.under m.program fuel steps) = r' at hm
    cases hm with
    | ok heq hkept => rw [heq, ← hkept.1]; rfl
    | error _ hkept => rw [← hkept.1]; rfl
  all_goals
    have hm := hm m 0 0
    generalize x m = r, x (m.under m.program 0 0) = r' at hm
  · cases hm with
    | ok => exact not_outOfFuel_ok _ _
    | error he =>
      rintro ⟨k, m', h⟩
      cases h
      exact he k rfl
  · cases hm with
    | ok _ hkept | error _ hkept => exact hkept

end Plain

theorem plain_pushNative (value : UInt64) : Plain (pushNative value) := .of_matches fun _ => matches_pushNative value

theorem plain_popNative : Plain popNative := .of_matches fun _ => matches_popNative

theorem plain_clearStack : Plain clearStack := .of_matches fun _ => matches_clearStack

theorem plain_exec (frame : Frame) (i : Instr) : Plain (exec frame i) :=
  .of_matches fun p m fuel steps hp => (matches_exec i (Program.alike_self p) ⟨rfl, rfl⟩ m fuel steps hp).eq

/-! ## Turns -/

/-- How a turn comes out: the run goes on, or it is over. -/
inductive Turn
  | goes (c : Config)
  | ends (r : EStateM.Result Fault Machine Unit)

/-- Leaves the frame that is executed. -/
def leave (callers : List Frame) (m : Machine) : Turn :=
  match popNative m with
  | .ok _ m =>
    match callers with
    | [] => .ends (.ok () m)
    | caller :: rest => .goes ⟨caller, rest, m⟩
  | .error e m => .ends (.error e m)

/-- One turn of a run. Code that is over is left as by a return, which costs nothing; an instruction
costs one unit of fuel. -/
def turn (c : Config) : Turn :=
  match c.machine.fuel with
  | 0 => .ends (.error (.outOfFuel c.machine.steps) c.machine)
  | n + 1 =>
    match c.frame.function.code[c.frame.pc]? with
    | none => leave c.callers c.machine
    | some i =>
      let frame := { c.frame with pc := c.frame.pc + 1 }
      match exec frame i (c.machine.counting n (c.machine.steps + 1)) with
      | .ok (.frame frame) m => .goes ⟨frame, c.callers, m⟩
      | .ok (.call g) m =>
        match pushNative returnMarker m with
        | .ok _ m => .goes ⟨⟨g, 0⟩, frame :: c.callers, m⟩
        | .error e m => .ends (.error e m)
      | .ok .ret m => leave c.callers m
      | .error e m => .ends (.error e m)

/-- The run from a configuration is over after `k` turns and comes out as `r`. -/
inductive Over : Nat → Config → EStateM.Result Fault Machine Unit → Prop
  | last {c r} (h : turn c = .ends r) : Over 1 c r
  | goes {k c c' r} (h : turn c = .goes c') (hr : Over k c' r) : Over (k + 1) c r

/-- Each turn makes this less: a call takes an instruction, and a return takes away a caller. -/
def Config.measure (c : Config) : Nat := 2 * c.machine.fuel + c.callers.length

/-- What a turn from `c` can be. -/
def Turn.From (c : Config) : Turn → Prop
  | .goes c' => 0 < c.machine.fuel ∧ c'.measure < c.measure ∧
      c'.machine.fuel + c'.machine.steps = c.machine.fuel + c.machine.steps ∧ Kept c.machine c'.machine
  | .ends r => (OutOfFuel r → r = .error (.outOfFuel c.machine.steps) c.machine ∧ c.machine.fuel = 0) ∧
      (final r).fuel + (final r).steps = c.machine.fuel + c.machine.steps ∧ Kept c.machine (final r)

theorem Turn.From.error {c : Config} (he : ∀ k, e ≠ .outOfFuel k)
    (hsum : m.fuel + m.steps = c.machine.fuel + c.machine.steps) (hout : Kept c.machine m) :
    (Turn.ends (.error e m)).From c := by
  refine ⟨fun ⟨k, m', h⟩ => ?_, hsum, hout⟩
  cases h
  exact absurd rfl (he k)

theorem leave_from {callers : List Frame} {c : Config} (hpos : 0 < c.machine.fuel)
    (hlen : 2 * m.fuel + callers.length ≤ c.measure) (hsum : m.fuel + m.steps = c.machine.fuel + c.machine.steps)
    (hout : Kept c.machine m) : (leave callers m).From c := by
  unfold leave
  cases hp : popNative m with
  | error e m' =>
    obtain ⟨he, hfuel, hsteps, hext⟩ := plain_popNative.error hp
    exact .error he (by omega) (hout.trans hext)
  | ok v m' =>
    obtain ⟨hfuel, hsteps, hext⟩ := plain_popNative.ok hp
    cases callers with
    | nil => exact ⟨fun h => absurd h (not_outOfFuel_ok _ _), by simp only [final]; omega, hout.trans hext⟩
    | cons caller rest =>
      simp only [List.length_cons] at hlen
      refine ⟨hpos, ?_, ?_, hout.trans hext⟩ <;> simp only [Config.measure] at hlen ⊢ <;> omega

theorem turn_from (c : Config) : (turn c).From c := by
  unfold turn
  split
  next hzero => exact ⟨fun _ => ⟨rfl, hzero⟩, rfl, Kept.refl _⟩
  next n hn =>
    have hpos : 0 < c.machine.fuel := by omega
    split
    · exact leave_from hpos (Nat.le_refl _) rfl (Kept.refl _)
    next i hi =>
      have hx := plain_exec { c.frame with pc := c.frame.pc + 1 } i
      dsimp only
      split
      next frame m he =>
        obtain ⟨hfuel, hsteps, hext⟩ := hx.ok he
        simp only [counting] at hfuel hsteps
        refine ⟨hpos, ?_, ?_, hext⟩ <;> simp only [Config.measure] <;> omega
      next g m he =>
        obtain ⟨hfuel, hsteps, hext⟩ := hx.ok he
        simp only [counting] at hfuel hsteps
        split
        next m' hp =>
          obtain ⟨hfuel', hsteps', hext'⟩ := (plain_pushNative _).ok hp
          refine ⟨hpos, ?_, ?_, Kept.trans hext hext'⟩ <;>
            simp only [Config.measure, List.length_cons] <;> omega
        next e m' hp =>
          obtain ⟨hfault, hfuel', hsteps', hext'⟩ := (plain_pushNative _).error hp
          exact .error hfault (by omega) (Kept.trans hext hext')
      next m he =>
        obtain ⟨hfuel, hsteps, hext⟩ := hx.ok he
        simp only [counting] at hfuel hsteps
        refine leave_from hpos ?_ (by omega) hext
        simp only [Config.measure]
        omega
      next e m he =>
        obtain ⟨hfault, hfuel, hsteps, hext⟩ := hx.error he
        simp only [counting] at hfuel hsteps
        exact .error hfault (by omega) hext

/-! ## Whole runs -/

/-- The rest of a run. -/
def finish (c : Config) : EStateM.Result Fault Machine Unit := runFrom c.machine.fuel c.frame c.callers c.machine

theorem finish_eq (c : Config) : finish c = match turn c with
      | .goes c' => finish c'
      | .ends r => r := by
  obtain ⟨⟨f, pc⟩, callers, m⟩ := c
  unfold finish turn
  dsimp only
  cases hn : m.fuel with
  | zero => rfl
  | succ n =>
    dsimp only
    cases hi : f.code[pc]? with
    | none =>
      have hu : unwind ⟨f, pc⟩ callers = popNative >>= fun _ =>
          match callers with
          | [] => pure none
          | caller :: rest => unwind caller rest := by
        cases callers <;> (rw [unwind]; simp only [hi]) 
      rw [runFrom, hu]
      simp only [bind, EStateM.bind, leave]
      cases hp : popNative m with
      | error e m' => rfl
      | ok v m' =>
        have hfuel : m'.fuel = n + 1 := (plain_popNative.ok hp).1.trans hn
        cases callers with
        | nil => rfl
        | cons caller rest =>
          simp only [hfuel, runFrom, bind, EStateM.bind]
    | some i =>
      rw [runFrom_succ hi]
      have hx := plain_exec ⟨f, pc + 1⟩ i
      dsimp only [counting]
      cases he : exec ⟨f, pc + 1⟩ i (m.ticked n) with
      | error e m' => rfl
      | ok next m' =>
        have hfuel : m'.fuel = n := (hx.ok he).1
        cases next with
        | frame frame => simp only [hfuel]
        | call g =>
          dsimp only
          cases hp : pushNative returnMarker m' with
          | error e m'' => rfl
          | ok u m'' =>
            have hfuel' : m''.fuel = n := ((plain_pushNative _).ok hp).1.trans hfuel
            simp only [hfuel']
        | ret =>
          simp only [leave]
          cases hp : popNative m' with
          | error e m'' => rfl
          | ok v m'' =>
            have hfuel' : m''.fuel = n := (plain_popNative.ok hp).1.trans hfuel
            cases callers with
            | nil => rfl
            | cons caller rest => simp only [hfuel']

/-- Every run is over after a bounded number of turns. -/
theorem over_finish (c : Config) : ∃ k, k ≤ c.measure + 1 ∧ Over k c (finish c) := by
  have hfrom := turn_from c
  have heq := finish_eq c
  cases ht : turn c with
  | ends r =>
    rw [ht] at heq
    exact ⟨1, by omega, .last (by rw [ht, heq])⟩
  | goes c' =>
    rw [ht] at heq hfrom
    have hlt : c'.measure < c.measure := hfrom.2.1
    obtain ⟨k, hk, hover⟩ := over_finish c'
    exact ⟨k + 1, by omega, .goes ht (heq ▸ hover)⟩
termination_by c.measure

theorem Over.eq_finish {k : Nat} {c : Config} {r : EStateM.Result Fault Machine Unit} (h : Over k c r) : r = finish c := by
  induction h with
  | last h => rw [finish_eq, h]
  | goes h _ ih => rw [finish_eq, h, ih]

/-! ## More fuel -/

/-- The machine with `d` more units of fuel. -/
def more (d : Nat) (m : Machine) : Machine := { m with fuel := m.fuel + d }

def Config.more (d : Nat) (c : Config) : Config := { c with machine := c.machine.more d }

def Turn.more (d : Nat) : Turn → Turn
  | .goes c => .goes (c.more d)
  | .ends r => .ends (onFinal (Machine.more d) r)

theorem Plain.more {x : Exec α} (h : Plain x) (d : Nat) (m : Machine) : x (m.more d) = onFinal (more d) (x m) := by
  have hm : x (m.more d) = onFinal (counting (m.fuel + d) m.steps) (x m) := h.blind m (m.fuel + d) m.steps
  have hc := h.counts m
  rw [hm]
  cases hx : x m with
  | ok a m' | error e m' =>
    rw [hx] at hc
    simp only [onFinal, counting, Machine.more, ← hc.1, ← hc.2, final]

theorem leave_more (callers : List Frame) (d : Nat) (m : Machine) : leave callers (m.more d) = (leave callers m).more d := by
  unfold leave
  rw [plain_popNative.more]
  cases popNative m with
  | error e m' => rfl
  | ok v m' => cases callers <;> rfl

/-- A turn that has fuel is the same turn with more of it. -/
theorem turn_more {c : Config} (hpos : 0 < c.machine.fuel) (d : Nat) : turn (c.more d) = (turn c).more d := by
  obtain ⟨⟨f, pc⟩, callers, m⟩ := c
  obtain ⟨n, hn⟩ : ∃ n, m.fuel = n + 1 := ⟨m.fuel - 1, by dsimp only at hpos; omega⟩
  have hn' : (m.more d).fuel = n + d + 1 := by simp only [more]; omega
  unfold turn
  simp only [Config.more, hn, hn']
  cases hi : f.code[pc]? with
  | none => exact leave_more callers d m
  | some i =>
    have hx : exec ⟨f, pc + 1⟩ i ((m.more d).counting (n + d) ((m.more d).steps + 1)) =
        onFinal (more d) (exec ⟨f, pc + 1⟩ i (m.counting n (m.steps + 1))) :=
      (plain_exec ⟨f, pc + 1⟩ i).more d (m.counting n (m.steps + 1))
    simp only [hx]
    cases exec ⟨f, pc + 1⟩ i (m.counting n (m.steps + 1)) with
    | error e m' => rfl
    | ok next m' =>
      cases next with
      | frame frame => rfl
      | ret => exact leave_more callers d m'
      | call g =>
        simp only [onFinal, (plain_pushNative returnMarker).more]
        cases pushNative returnMarker m' <;> rfl

/-- Fuel only cuts `x` short. -/
structure Cuts (x : Exec α) : Prop where
  sum (m : Machine) : (final (x m)).fuel + (final (x m)).steps = m.fuel + m.steps
  output (m : Machine) : Extends m (final (x m))
  spent {m m' : Machine} {k : Nat} (h : x m = .error (.outOfFuel k) m') : k = m'.steps ∧ m'.fuel = 0
  more {m : Machine} (h : ¬ OutOfFuel (x m)) (d : Nat) : x (m.more d) = onFinal (more d) (x m)
  short {m : Machine} (h : OutOfFuel (x m)) (d : Nat) : Extends (final (x m)) (final (x (m.more d)))

/-- A run that runs out has no fuel left, and tells how many instructions there have been. -/
theorem Over.spent {j k : Nat} {c : Config} {r : EStateM.Result Fault Machine Unit} (h : Over j c r)
    (hr : r = .error (.outOfFuel k) m) : k = m.steps ∧ m.fuel = 0 := by
  induction h with
  | @last c r h =>
    have hfrom := turn_from c
    rw [h] at hfrom
    obtain ⟨hspent, hzero⟩ := hfrom.1 ⟨k, m, hr⟩
    rw [hr] at hspent
    cases hspent
    exact ⟨rfl, hzero⟩
  | goes h _ ih => exact ih hr

theorem Over.counts {k : Nat} {c : Config} {r : EStateM.Result Fault Machine Unit} (h : Over k c r) :
    (final r).fuel + (final r).steps = c.machine.fuel + c.machine.steps ∧ Kept c.machine (final r) := by
  induction h with
  | @last c r h =>
    have hfrom := turn_from c
    rw [h] at hfrom
    exact hfrom.2
  | @goes k c c' r h _ ih =>
    have hfrom := turn_from c
    rw [h] at hfrom
    obtain ⟨-, -, hsum, hext⟩ := hfrom
    exact ⟨ih.1.trans hsum, hext.trans ih.2⟩

/-- A run that does not run out comes out the same with more fuel. -/
theorem Over.more {k : Nat} {c : Config} {r : EStateM.Result Fault Machine Unit} (h : Over k c r) (hr : ¬ OutOfFuel r)
    (d : Nat) : Over k (c.more d) (onFinal (Machine.more d) r) := by
  induction h with
  | @last c r h =>
    refine .last ?_
    rw [turn_more _ d, h]
    · rfl
    · refine Nat.pos_of_ne_zero fun hzero => hr ⟨c.machine.steps, c.machine, ?_⟩
      unfold turn at h
      rw [hzero] at h
      cases h
      rfl
  | @goes k c c' r h _ ih =>
    have hfrom := turn_from c
    rw [h] at hfrom
    refine .goes ?_ (ih hr)
    rw [turn_more hfrom.1 d, h]
    rfl

/-- Where a run runs out, the run with more fuel goes on. -/
theorem Over.short {k : Nat} {c : Config} {r : EStateM.Result Fault Machine Unit} (h : Over k c r) (hr : OutOfFuel r)
    (d : Nat) : Extends (final r) (final (finish (c.more d))) := by
  induction h with
  | @last c r h =>
    have hfrom := turn_from c
    rw [h] at hfrom
    obtain ⟨hr, -⟩ := hfrom.1 hr
    subst hr
    obtain ⟨k, -, hover⟩ := over_finish (c.more d)
    exact hover.counts.2.2.2
  | @goes k c c' r h _ ih =>
    have hfrom := turn_from c
    rw [h] at hfrom
    rw [finish_eq, turn_more hfrom.1 d, h]
    exact ih hr

theorem cuts_finish (frame : Frame) (callers : List Frame) : Cuts fun m => finish ⟨frame, callers, m⟩ := by
  refine ⟨fun m => ?_, fun m => ?_, fun {m _ _} h => ?_, fun {m} h d => ?_, fun {m} h d => ?_⟩
  all_goals obtain ⟨k, -, hover⟩ := over_finish ⟨frame, callers, m⟩
  · exact hover.counts.1
  · exact hover.counts.2.2.2
  · exact hover.spent h
  · exact (hover.more h d).eq_finish.symm
  · exact hover.short h d

namespace Cuts

variable {x : Exec α} {f : α → Exec β}

theorem of_plain (h : Plain x) : Cuts x where
  sum m := by rw [(h.counts m).1, (h.counts m).2]
  output m := (h.kept m).2.2
  spent {m m' k} hm := absurd ⟨k, m', hm⟩ (h.fault m)
  more _ d := h.more d _
  short hm _ := absurd hm (h.fault _)

theorem modify {g : Machine → Machine} (hg : ∀ m d, g (m.more d) = (g m).more d)
    (hcount : ∀ m, (g m).fuel + (g m).steps = m.fuel + m.steps) (ho : ∀ m, Extends m (g m)) : Cuts (modify g) where
  sum := hcount
  output := ho
  spent hm := nomatch hm
  more {m} _ d := congrArg (EStateM.Result.ok ()) (hg m d)
  short {m} hm _ := absurd hm (not_outOfFuel_ok () (g m))

theorem bind (hx : Cuts x) (hf : ∀ a, Cuts (f a)) : Cuts (x >>= f) := by
  have hok {m m' : Machine} {a : α} (h : x m = .ok a m') : (x >>= f) m = f a m' := by
    simp only [Bind.bind, EStateM.bind, h]
  have herror {m m' : Machine} {e : Fault} (h : x m = .error e m') : (x >>= f) m = .error e m' := by
    simp only [Bind.bind, EStateM.bind, h]
  have hext (m : Machine) : Extends (final (x m)) (final ((x >>= f) m)) := by
    cases hm : x m with
    | ok a m' => rw [hok hm]; exact (hf a).output m'
    | error e m' => rw [herror hm]; exact Extends.refl _
  refine ⟨fun m => ?_, fun m => (hx.output m).trans (hext m), fun {m _ k} h => ?_, fun {m} h d => ?_,
    fun {m} h d => ?_⟩
  · have hsum := hx.sum m
    cases hm : x m with
    | ok a m' =>
      rw [hm] at hsum
      rw [hok hm]
      exact ((hf a).sum m').trans hsum
    | error e m' =>
      rw [hm] at hsum
      rw [herror hm]
      exact hsum
  · cases hm : x m with
    | ok a m' =>
      rw [hok hm] at h
      exact (hf a).spent h
    | error e m' =>
      rw [herror hm] at h
      cases h
      exact hx.spent hm
  · cases hm : x m with
    | ok a m' =>
      rw [hok hm] at h ⊢
      have hmore := hx.more (m := m) (by rw [hm]; exact not_outOfFuel_ok a m') d
      rw [hm] at hmore
      rw [hok hmore]
      exact (hf a).more h d
    | error e m' =>
      rw [herror hm] at h ⊢
      have hmore := hx.more (m := m) (by rw [hm]; intro ⟨k, m'', he⟩; cases he; exact h ⟨k, m', rfl⟩) d
      rw [hm] at hmore
      rw [herror hmore]
      rfl
  · cases hm : x m with
    | ok a m' =>
      rw [hok hm] at h ⊢
      have hmore := hx.more (m := m) (by rw [hm]; exact not_outOfFuel_ok a m') d
      rw [hm] at hmore
      rw [hok hmore]
      exact (hf a).short h d
    | error e m' =>
      have hfinal : final ((x >>= f) m) = final (x m) := by rw [herror hm, hm]; rfl
      rw [herror hm] at h
      obtain ⟨k, m'', he⟩ := h
      cases he
      rw [hfinal]
      exact (hx.short ⟨k, m', hm⟩ d).trans (hext (m.more d))

theorem get {f : Machine → Exec β} (hf : ∀ m, Cuts (f m)) (h : ∀ d m, f (m.more d) = f m) : Cuts (MonadState.get >>= f) where
  sum m := (hf m).sum m
  output m := (hf m).output m
  spent {m _ _} hm := (hf m).spent hm
  more {m} hm d := by
    show f (m.more d) (m.more d) = _
    rw [h]
    exact (hf m).more hm d
  short {m} hm d := by
    show Extends _ (final (f (m.more d) (m.more d)))
    rw [h]
    exact (hf m).short hm d

end Cuts

theorem cuts_run (f : Function) : Cuts (run f) := by
  refine .bind (.modify (fun _ _ => rfl) (fun _ => rfl) fun _ => List.prefix_rfl) fun _ => ?_
  exact .bind (.of_plain (plain_pushNative _)) fun _ => cuts_finish ⟨f, 0⟩ []

theorem cuts_call (name : String) : Cuts (call name) := by
  refine .get (fun m => ?_) fun _ _ => rfl
  dsimp only
  split
  on_goal 1 =>
    refine .bind (.modify (fun _ _ => rfl) (fun _ => rfl) fun _ => List.prefix_rfl) fun _ => ?_
    refine .get (fun _ => .bind (cuts_run _) fun _ => ?_) fun _ _ => rfl
  -- the globals have their values, now or from before
  all_goals
    refine .get (fun m => ?_) fun _ _ => rfl
    split
    · exact .of_plain (.of_matches fun _ => .throw nofun)
    split
    · exact .of_plain (.of_matches fun _ => .throw nofun)
    · refine .bind (.of_plain plain_clearStack) fun _ => .bind (cuts_run _) fun _ => .get (fun _ => ?_) fun _ _ => rfl
      exact .bind (.of_plain plain_clearStack) fun _ => .of_plain (.of_matches fun _ => .pure rfl)

/-! ## Calls one after the other -/

/-- How calls of some functions come out, one after the other on the same machine, also after one that failed. -/
def session : List String → Machine → List (EStateM.Result Fault Machine (List UInt64))
  | [], _ => []
  | name :: names, m => call name m :: session names (final (call name m))

theorem session_more (names : List String) (d : Nat) (h : ∀ r ∈ session names m, ¬ OutOfFuel r) :
    session names (m.more d) = (session names m).map (onFinal (more d)) := by
  induction names generalizing m with
  | nil => rfl
  | cons name names ih =>
    simp only [session, List.mem_cons, forall_eq_or_imp] at h
    have hcall := (cuts_call name).more h.1 d
    simp only [session, List.map_cons, hcall, final_onFinal]
    rw [ih h.2]

theorem session_short (names : List String) (d : Nat) {i : Nat}
    {r : EStateM.Result Fault Machine (List UInt64)} (hi : (session names m)[i]? = some r) (hr : OutOfFuel r)
    (hbefore : ∀ j < i, ∀ r', (session names m)[j]? = some r' → ¬ OutOfFuel r') :
    ∃ r', (session names (m.more d))[i]? = some r' ∧ Extends (final r) (final r') := by
  induction names generalizing m i with
  | nil => simp [session] at hi
  | cons name names ih =>
    cases i with
    | zero =>
      simp only [session, List.getElem?_cons_zero, Option.some.injEq] at hi
      subst hi
      exact ⟨_, rfl, (cuts_call name).short hr d⟩
    | succ i =>
      have hcall := (cuts_call name).more (hbefore 0 (Nat.succ_pos i) _ rfl) d
      simp only [session, List.getElem?_cons_succ] at hi ⊢
      rw [hcall, final_onFinal]
      exact ih hi fun j hj r' hr' => hbefore (j + 1) (Nat.succ_lt_succ hj) r' hr'

theorem session_spent (names : List String) {k : Nat} (h : .error (.outOfFuel k) m' ∈ session names m) :
    k = m.fuel + m.steps ∧ m'.steps = k ∧ m'.fuel = 0 := by
  induction names generalizing m with
  | nil => cases h
  | cons name names ih =>
    have hsum := (cuts_call name).sum m
    rcases List.mem_cons.mp h with hcall | hlater
    · rw [← hcall] at hsum
      obtain ⟨hk, hzero⟩ := (cuts_call name).spent hcall.symm
      simp only [final] at hsum
      omega
    · rw [← hsum]
      exact ih hlater

/-- A run gets to its end whatever fuel there is. -/
theorem over_run (f : Function) (h : pushNative returnMarker { m with rsp := m.stackTop, rbp := m.stackTop } = .ok () m') :
    ∃ k, k ≤ 2 * m.fuel + 1 ∧ Over k ⟨⟨f, 0⟩, [], m'⟩ (run f m) := by
  have hrun : run f m = finish ⟨⟨f, 0⟩, [], m'⟩ := by
    simp only [run, bind, EStateM.bind, modify_eq, h, get_eq]
    rfl
  have hfuel : m'.fuel = m.fuel := ((plain_pushNative _).ok h).1
  obtain ⟨k, hk, hover⟩ := over_finish ⟨⟨f, 0⟩, [], m'⟩
  simp only [Config.measure, List.length_nil, hfuel] at hk
  exact ⟨k, hk, hrun ▸ hover⟩

theorem ofProgram_more (p : Program) {n m : Nat} (h : n ≤ m) : ofProgram p m = (ofProgram p n).more (m - n) := by
  simp only [ofProgram, more]
  rw [Nat.add_sub_cancel' h]

/-- Fuel only cuts runs short: what does not run out is the same with more fuel, what runs out has done as
many instructions as there was fuel, and its output is where that of more fuel begins. Every run ends. -/
theorem fuel_cuts_short (p : Program) (names : List String) {n m : Nat} (h : n ≤ m) :
    ((∀ r ∈ session names (ofProgram p n), ¬ OutOfFuel r) →
        session names (ofProgram p m) = (session names (ofProgram p n)).map (onFinal (more (m - n)))) ∧
      (∀ (i : Nat) r, (session names (ofProgram p n))[i]? = some r → OutOfFuel r →
        (∀ j < i, ∀ r', (session names (ofProgram p n))[j]? = some r' → ¬ OutOfFuel r') →
        ∃ r', (session names (ofProgram p m))[i]? = some r' ∧
          (final r).output.toList <+: (final r').output.toList) ∧
      (∀ k m', .error (.outOfFuel k) m' ∈ session names (ofProgram p n) → k = n ∧ m'.steps = n ∧ m'.fuel = 0) ∧
      ∀ (f : Function) (m m' : Machine),
        pushNative returnMarker { m with rsp := m.stackTop, rbp := m.stackTop } = .ok () m' →
        ∃ k, k ≤ 2 * m.fuel + 1 ∧ Over k ⟨⟨f, 0⟩, [], m'⟩ (run f m) := by
  rw [ofProgram_more p h]
  refine ⟨fun hout => session_more names (m - n) hout, fun i r hi hr hbefore => session_short names (m - n) hi hr hbefore,
    fun k m' hk => ?_, fun f m m' hp => over_run f hp⟩
  obtain ⟨hspent, hsteps, hzero⟩ := session_spent names hk
  have hn : k = n := hspent
  exact ⟨hn, hsteps.trans hn, hzero⟩

/-- The setup of the globals never ends. -/
def spinning : Program where
  init := { code := #[⟨{ op := .jump, operand := .signed (-1), span := .nowhere }, 0⟩] }

theorem runFrom_spinning (n : Nat) (m : Machine) :
    ∃ m', runFrom n ⟨spinning.init, 0⟩ [] m = .error (.outOfFuel (m.steps + n)) m' := by
  induction n generalizing m with
  | zero => exact ⟨m, rfl⟩
  | succ n ih =>
    let i : Instr := ⟨{ op := .jump, operand := .signed (-1), span := .nowhere }, 0⟩
    have hi : spinning.init.code[0]? = some i := rfl
    have hexec (m : Machine) : exec ⟨spinning.init, 0 + 1⟩ i m = .ok (.frame ⟨spinning.init, 0⟩) m := by
      have htarget : spinning.init.jumpTarget? 0 = some 0 := rfl
      simp only [i, exec, exec.jump, htarget, Nat.zero_le, if_true]
      rfl
    obtain ⟨m', hm'⟩ := ih (m.ticked n)
    refine ⟨m', ?_⟩
    rw [runFrom_succ hi, hexec]
    simp only [hm', Nat.add_assoc, Nat.add_comm 1 n]

theorem call_spinning {size : Nat} (hm : m.Idle spinning size) (hinit : m.initialized = false) :
    ∃ m', call "main" m = .error (.outOfFuel (m.steps + m.fuel)) m' := by
  obtain ⟨hlimit, -, i, hi⟩ := hm.entry
  have hrun := run_eq (m := { m with initialized := true }) spinning.init hlimit hi
  obtain ⟨m', hm'⟩ := runFrom_spinning m.fuel (entered i { m with initialized := true })
  rw [hm'] at hrun
  refine ⟨m', ?_⟩
  simp only [call, bind, EStateM.bind, get_eq, hinit, Bool.not_false, if_true, modify_eq, hm.program]
  rw [hm.program] at hrun
  rw [hrun]
  simp only [entered]

theorem fuel_cuts_short_spinning :
    ∃ m, session ["main"] (ofProgram spinning 3) = [.error (.outOfFuel 3) m] ∧ m.steps = 3 ∧ m.fuel = 0 ∧
      ∃ r, (session ["main"] (ofProgram spinning 5))[0]? = some r ∧
        m.output.toList <+: (final r).output.toList := by
  have hcuts := fuel_cuts_short spinning ["main"] (show 3 ≤ 5 by decide)
  obtain ⟨m, hm⟩ := call_spinning (idle_ofProgram (p := spinning) (by decide) 3) rfl
  have hsession : session ["main"] (ofProgram spinning 3) = [.error (.outOfFuel 3) m] := congrArg (· :: []) hm
  rw [hsession] at hcuts
  obtain ⟨-, hshort, hspent, -⟩ := hcuts
  obtain ⟨-, hsteps, hzero⟩ := hspent 3 m (List.mem_singleton_self _)
  exact ⟨m, hsession, hsteps, hzero, hshort 0 _ rfl ⟨3, m, rfl⟩ fun j hj => absurd hj (Nat.not_lt_zero j)⟩

end Wordstack.Machine
