/-
Falling off the end is a return. A program with a return at the end of its code makes the same turns: where the
code is over, one of them costs a unit of fuel more.
-/
import Wordstack.Proofs.Initialization

namespace Wordstack

/-- The function with a return at its end. -/
def Function.returning (f : Function) : Function := f.emit { op := .ret, span := .nowhere }

/-- The program with a return at the end of all its code. -/
def Program.returning (p : Program) : Program where
  init := p.init.returning
  functions := p.functions.map fun f => if f.external then f else f.returning
  globals := p.globals
  strings := p.strings

/-- No jump goes out of the code, but it may go to its end. -/
def Function.JumpsInside (f : Function) : Prop := ∀ i t, f.jumpTarget? i = some t → t ≤ f.length

/-- A function and the same one with a return at its end. -/
def Function.Returning (f f' : Function) : Prop := f.JumpsInside ∧ f' = f.returning

namespace Function

variable {f : Function} {pc : Nat}

theorem returning_code : f.returning.code = f.code.push ⟨{ op := .ret, span := .nowhere }, f.length⟩ := rfl

theorem jumpTarget?_returning (i : Nat) : f.returning.jumpTarget? i = f.jumpTarget? i := by
  unfold jumpTarget?
  rw [returning_code, Array.getElem?_push]
  by_cases h : i = f.code.size
  · have hnone : f.code[i]? = none := by simp [h]
    rw [if_pos h, hnone]
  · rw [if_neg h]

theorem returning_alike (h : f.JumpsInside) : f.Alike f.returning := by
  refine ⟨rfl, fun i t => ?_⟩
  rw [jumpTarget?_returning]
  have hlength : f.returning.length = f.length + 1 := by simp [length, returning_code]
  constructor
  · rintro ⟨ht, -⟩
    exact ⟨ht, h i t ht⟩
  · rintro ⟨ht, hle⟩
    exact ⟨ht, by omega⟩

end Function

theorem Program.returning_alike {p : Program} (h : ∀ f ∈ p.functions, f.JumpsInside) :
    p.Alike Function.Returning p.returning := by
  have hname (name : String) : ((fun f : Function => f.name == name) ∘ fun f : Function => if f.external then f else f.returning) =
      fun f => f.name == name := by
    funext f
    simp only [Function.comp]
    split <;> rfl
  refine ⟨rfl, fun name => ?_, fun name => ?_, fun h => h.2 ▸ Function.returning_alike h.1⟩
  · rw [returning, List.findIdx?_map, hname]
  · rw [function?, function?, returning, List.find?_map, hname]
    cases hf : p.functions.find? (·.name == name) with
    | none => exact .none
    | some f =>
      refine .some ⟨?_, fun hinner => ⟨h f (List.mem_of_find?_eq_some hf), by simp [hinner]⟩⟩
      dsimp only
      split <;> rfl

namespace Machine

variable {p q : Program} {m : Machine} {fuel steps : Nat} {α β : Type}

/-! ## One turn -/

/-- The second configuration is that of the program `q` with returns, with its own count of instructions. -/
structure Config.Returning (p q : Program) (fuel steps : Nat) (c c' : Config) : Prop where
  frame : FramesAlike Function.Returning c.frame c'.frame
  callers : List.Forall₂ (FramesAlike Function.Returning) c.callers c'.callers
  program : c.machine.program = p
  machine : c'.machine = c.machine.under q fuel steps

inductive Turn.Returning (p q : Program) (fuel steps : Nat) : Turn → Turn → Prop
  | goes {c c' : Config} (h : c.Returning p q fuel steps c') : Returning p q fuel steps (.goes c) (.goes c')
  | ends (r : EStateM.Result Fault Machine Unit) : Returning p q fuel steps (.ends r) (.ends (onFinal (under q fuel steps) r))

def Turn.machine : Turn → Machine
  | .goes c => c.machine
  | .ends r => final r

theorem leave_returning {callers callers' : List Frame} (hp : m.program = p) (fuel steps : Nat)
    (h : List.Forall₂ (FramesAlike Function.Returning) callers callers') :
    (leave callers m).Returning p q fuel steps (leave callers' (m.under q fuel steps)) ∧
      (leave callers m).machine.fuel = m.fuel := by
  have hm := matches_popNative (q := q) m fuel steps hp
  have hfuel := (plain_popNative.counts m).1
  unfold leave
  generalize popNative m = r, popNative (m.under q fuel steps) = r' at hm hfuel
  cases hm with
  | error => exact ⟨.ends (.error _ _), hfuel⟩
  | ok _ hkept =>
    cases h with
    | nil => exact ⟨.ends (.ok _ _), hfuel⟩
    | cons hcaller hrest => exact ⟨.goes ⟨hcaller, hrest, hkept.1.trans hp, rfl⟩, hfuel⟩

/-- The fuel that a turn leaves to the program with returns is not more than what it leaves to the other one. -/
theorem turn_returning (h : p.Alike Function.Returning q) {c c' : Config} (hc : c.Returning p q fuel steps c')
    (hpos : 0 < c.machine.fuel) (hpos' : 0 < fuel) :
    ∃ fuel' steps', (turn c).Returning p q fuel' steps' (turn c') ∧ fuel ≤ fuel' + 1 ∧
      fuel' + c.machine.fuel ≤ fuel + (turn c).machine.fuel := by
  obtain ⟨⟨f, _⟩, callers, m⟩ := c
  obtain ⟨⟨_, pc⟩, callers', _⟩ := c'
  obtain ⟨⟨⟨hjumps, hreturns⟩, hpc⟩, hcallers, hp, hm⟩ := hc
  dsimp only at hreturns hpc hcallers hp hm hpos
  subst hreturns hpc hm
  obtain ⟨n, hn⟩ : ∃ n, m.fuel = n + 1 := ⟨m.fuel - 1, by omega⟩
  obtain ⟨k, rfl⟩ : ∃ k, fuel = k + 1 := ⟨fuel - 1, by omega⟩
  have hk : (m.under q (k + 1) steps).fuel = k + 1 := rfl
  unfold turn
  simp only [hn, hk]
  cases hi : f.code[pc]? with
  | none =>
    have hsize : f.code.size ≤ pc := by simpa using hi
    rcases Nat.eq_or_lt_of_le hsize with rfl | hlt
    · -- here is the return that has been added
      have hret : f.returning.code[f.code.size]? = some ⟨{ op := .ret, span := .nowhere }, f.length⟩ := by
        simp [Function.returning_code]
      obtain ⟨hleave, hfuel⟩ := leave_returning (q := q) hp k (steps + 1) hcallers
      simp only [hret]
      exact ⟨k, steps + 1, hleave, Nat.le_refl _, by omega⟩
    · have hnone : f.returning.code[pc]? = none := by
        rw [Function.returning_code, Array.getElem?_eq_none_iff, Array.size_push]
        exact hlt
      obtain ⟨hleave, hfuel⟩ := leave_returning (q := q) hp (k + 1) steps hcallers
      simp only [hnone]
      exact ⟨k + 1, steps, hleave, Nat.le_succ _, by omega⟩
  | some i =>
    have hlt : pc < f.code.size := by
      obtain ⟨hlt, -⟩ := Array.getElem?_eq_some_iff.mp hi
      exact hlt
    have hi' : f.returning.code[pc]? = some i := by
      rw [Function.returning_code, Array.getElem?_push_lt hlt, ← hi, Array.getElem?_eq_getElem hlt]
    have hx := matches_exec i h (a := ⟨f, pc + 1⟩) (c := ⟨f.returning, pc + 1⟩) ⟨⟨hjumps, rfl⟩, rfl⟩
      (m.counting n (m.steps + 1)) k (steps + 1) hp
    have hfuel : _ = n := ((plain_exec ⟨f, pc + 1⟩ i).counts (m.counting n (m.steps + 1))).1
    have hsame : (m.under q (k + 1) steps).counting k ((m.under q (k + 1) steps).steps + 1) =
      (m.counting n (m.steps + 1)).under q k (steps + 1) := rfl
    simp only [hi', hsame]
    suffices hturn : ∀ t t' : Turn, t.Returning p q k (steps + 1) t' ∧ t.machine.fuel = n →
        ∃ fuel' steps', t.Returning p q fuel' steps' t' ∧ k + 1 ≤ fuel' + 1 ∧ fuel' + (n + 1) ≤ k + 1 + t.machine.fuel by
      refine hturn _ _ ?_
      generalize exec ⟨f, pc + 1⟩ i _ = r, exec ⟨f.returning, pc + 1⟩ i _ = r' at hx hfuel
      cases hx with
      | error => exact ⟨.ends (.error _ _), hfuel⟩
      | @ok _ _ m₁ hnext hkept =>
        have hp₁ : m₁.program = p := hkept.1.trans hp
        cases hnext with
        | frame hframe => exact ⟨.goes ⟨hframe, hcallers, hp₁, rfl⟩, hfuel⟩
        | ret =>
          obtain ⟨hleave, hfuel'⟩ := leave_returning (q := q) hp₁ k (steps + 1) hcallers
          exact ⟨hleave, hfuel'.trans hfuel⟩
        | call hg =>
          have hpush := matches_pushNative (q := q) returnMarker m₁ k (steps + 1) hp₁
          have hfuel' := ((plain_pushNative returnMarker).counts m₁).1.trans hfuel
          dsimp only
          generalize pushNative returnMarker m₁ = r, pushNative returnMarker (m₁.under q k (steps + 1)) = r' at hpush hfuel'
          cases hpush with
          | error => exact ⟨.ends (.error _ _), hfuel'⟩
          | ok _ hkept' =>
            exact ⟨.goes ⟨⟨hg, rfl⟩, .cons ⟨⟨hjumps, rfl⟩, rfl⟩ hcallers, hkept'.1.trans hp₁, rfl⟩, hfuel'⟩
    rintro t t' ⟨hturn, ht⟩
    exact ⟨k, steps + 1, hturn, Nat.le_refl _, by omega⟩

/-! ## Whole runs -/

/-- With enough fuel the program with returns comes to the same end. -/
theorem Over.forward (h : p.Alike Function.Returning q) {k : Nat} {c c' : Config} {r : EStateM.Result Fault Machine Unit}
    (hover : Over k c r) (hr : ¬ OutOfFuel r) (hc : c.Returning p q fuel steps c') (hk : k ≤ fuel) :
    ∃ fuel' steps', fuel ≤ fuel' + k ∧ finish c' = onFinal (under q fuel' steps') r := by
  induction hover generalizing c' fuel steps with
  | @last c r hturn =>
    have hpos : 0 < c.machine.fuel := Nat.pos_of_ne_zero fun hzero => by
      unfold turn at hturn
      rw [hzero] at hturn
      cases hturn
      exact hr ⟨_, _, rfl⟩
    obtain ⟨fuel', steps', hturn', hle, -⟩ := turn_returning h hc hpos hk
    rw [hturn] at hturn'
    rw [finish_eq]
    generalize turn c' = t' at hturn'
    cases hturn'
    exact ⟨fuel', steps', hle, rfl⟩
  | @goes k c c₁ r hturn hrest ih =>
    have hfrom := turn_from c
    rw [hturn] at hfrom
    obtain ⟨fuel', steps', hturn', hle, -⟩ := turn_returning h hc hfrom.1 (Nat.zero_lt_of_lt hk)
    rw [hturn] at hturn'
    rw [finish_eq]
    generalize turn c' = t' at hturn'
    cases hturn' with
    | goes hc₁ =>
      obtain ⟨fuel'', steps'', hle', hfinish⟩ := ih hr hc₁ (by omega)
      exact ⟨fuel'', steps'', by omega, hfinish⟩

/-- The program without returns needs no more fuel. -/
theorem Over.backward (h : p.Alike Function.Returning q) {k : Nat} {c c' : Config} {r : EStateM.Result Fault Machine Unit}
    (hover : Over k c' r) (hr : ¬ OutOfFuel r) (hc : c.Returning p q fuel steps c') (hle : fuel ≤ c.machine.fuel) :
    ∃ fuel' steps', fuel' ≤ (final (finish c)).fuel ∧ r = onFinal (under q fuel' steps') (finish c) := by
  have hfuel {c c' : Config} {fuel steps : Nat} (hc : c.Returning p q fuel steps c') : c'.machine.fuel = fuel := by
    rw [hc.machine]
    rfl
  induction hover generalizing c fuel steps with
  | @last c' r hturn =>
    have hpos : 0 < fuel := Nat.pos_of_ne_zero fun hzero => by
      unfold turn at hturn
      rw [hfuel hc, hzero] at hturn
      cases hturn
      exact hr ⟨_, _, rfl⟩
    obtain ⟨fuel', steps', hturn', -, hle'⟩ := turn_returning h hc (by omega) hpos
    rw [hturn] at hturn'
    rw [finish_eq]
    generalize turn c = t at hturn' hle'
    cases hturn' with
    | ends r => exact ⟨fuel', steps', by simp only [Turn.machine] at hle' ⊢; omega, rfl⟩
  | @goes k c' c₁' r hturn hrest ih =>
    have hfrom := turn_from c'
    rw [hturn] at hfrom
    have hpos : 0 < fuel := hfuel hc ▸ hfrom.1
    obtain ⟨fuel', steps', hturn', -, hle'⟩ := turn_returning h hc (by omega) hpos
    rw [hturn] at hturn'
    rw [finish_eq]
    generalize turn c = t at hturn' hle'
    cases hturn' with
    | goes hc₁ => exact ih hr hc₁ (by simp only [Turn.machine] at hle'; omega)

/-- With enough fuel `y` does with `q` what `x` does with `p`, and the other way round. -/
structure Follows (p q : Program) (x y : Exec α) : Prop where
  forward {m : Machine} (hp : m.program = p) (h : ¬ OutOfFuel (x m)) : ∃ k, ∀ fuel steps, k ≤ fuel →
    ∃ fuel' steps', fuel ≤ fuel' + k ∧ y (m.under q fuel steps) = onFinal (under q fuel' steps') (x m)
  backward {m : Machine} {fuel steps : Nat} (hp : m.program = p) (hle : fuel ≤ m.fuel)
    (h : ¬ OutOfFuel (y (m.under q fuel steps))) :
    ∃ fuel' steps', fuel' ≤ (final (x m)).fuel ∧ y (m.under q fuel steps) = onFinal (under q fuel' steps') (x m)
  kept {m : Machine} (hp : m.program = p) : (final (x m)).program = p

namespace Follows

variable {x y : Exec α} {f g : α → Exec β}

theorem of_matches (h : Matches p q (· = ·) x x) (hx : Plain x) : Follows p q x x := by
  have hsame {m : Machine} (hp : m.program = p) (fuel steps : Nat) :
      x (m.under q fuel steps) = onFinal (under q fuel steps) (x m) := by
    have hm := h m fuel steps hp
    generalize x m = r, x (m.under q fuel steps) = r' at hm
    cases hm with
    | ok heq => rw [heq]; rfl
    | error => rfl
  refine ⟨fun hp _ => ⟨0, fun fuel steps _ => ⟨fuel, steps, Nat.le_refl _, hsame hp fuel steps⟩⟩,
    fun {m fuel steps} hp hle _ => ⟨fuel, steps, ?_, hsame hp fuel steps⟩, fun {m} hp => (hx.kept m).1.trans hp⟩
  rw [(hx.counts m).1]
  exact hle

theorem modify {g : Machine → Machine} (hg : ∀ m fuel steps, g (m.under q fuel steps) = (g m).under q fuel steps ∧
    (g m).program = m.program ∧ (g m).fuel = m.fuel) : Follows p q (modify g) (modify g) where
  forward _ _ := ⟨0, fun fuel steps _ => ⟨fuel, steps, Nat.le_refl _, congrArg (EStateM.Result.ok ()) (hg _ fuel steps).1⟩⟩
  backward {m fuel steps} _ hle _ :=
    ⟨fuel, steps, (hg m fuel steps).2.2 ▸ hle, congrArg (EStateM.Result.ok ()) (hg m fuel steps).1⟩
  kept {m} hp := (hg m 0 0).2.1.trans hp

theorem bind (hx : Follows p q x y) (hf : ∀ a, Follows p q (f a) (g a)) : Follows p q (x >>= f) (y >>= g) := by
  refine ⟨fun {m} hp h => ?_, fun {m fuel steps} hp hle h => ?_, fun {m} hp => ?_⟩
  all_goals simp only [Bind.bind, EStateM.bind] at *
  · cases hm : x m with
    | error e m' =>
      rw [hm] at h
      have hout : ¬ OutOfFuel (x m) := by
        rw [hm]
        rintro ⟨k, m'', he⟩
        cases he
        exact h ⟨k, m', rfl⟩
      obtain ⟨k, hk⟩ := hx.forward hp hout
      refine ⟨k, fun fuel steps hle => ?_⟩
      obtain ⟨fuel', steps', hle', hy⟩ := hk fuel steps hle
      exact ⟨fuel', steps', hle', by rw [hy, hm]; rfl⟩
    | ok a m' =>
      rw [hm] at h
      obtain ⟨k, hk⟩ := hx.forward hp (hm ▸ not_outOfFuel_ok a m')
      have hp' := hx.kept hp
      rw [hm] at hp'
      obtain ⟨k', hk'⟩ := (hf a).forward hp' h
      refine ⟨k + k', fun fuel steps hle => ?_⟩
      obtain ⟨fuel', steps', hle', hy⟩ := hk fuel steps (by omega)
      obtain ⟨fuel'', steps'', hle'', hg⟩ := hk' fuel' steps' (by omega)
      exact ⟨fuel'', steps'', by omega, by rw [hy, hm]; exact hg⟩
  · have hfirst : ¬ OutOfFuel (y (m.under q fuel steps)) := by
      rintro ⟨k, m', hy⟩
      rw [hy] at h
      exact h ⟨k, m', rfl⟩
    obtain ⟨fuel', steps', hle', hy⟩ := hx.backward hp hle hfirst
    rw [hy] at h ⊢
    have hp' := hx.kept hp
    cases hm : x m with
    | error e m' =>
      rw [hm] at hle'
      exact ⟨fuel', steps', hle', rfl⟩
    | ok a m' =>
      rw [hm] at h hp' hle'
      exact (hf a).backward hp' hle' h
  · have hp' := hx.kept hp
    cases hm : x m <;> rw [hm] at hp'
    · exact (hf _).kept hp'
    · exact hp'

theorem get {f g : Machine → Exec β}
    (hg : ∀ (m : Machine) (fuel steps : Nat), g (m.under q fuel steps) = g (m.under q 0 0))
    (h : ∀ m, m.program = p → Follows p q (f m) (g (m.under q 0 0))) :
    Follows p q (MonadState.get >>= f) (MonadState.get >>= g) := by
  have hget (m : Machine) (fuel steps : Nat) : (MonadState.get >>= g : Exec β) (m.under q fuel steps) =
      g (m.under q 0 0) (m.under q fuel steps) := congrFun (hg m fuel steps) _
  refine ⟨fun {m} hp hm => ?_, fun {m fuel steps} hp hle hm => ?_, fun {m} hp => (h m hp).kept hp⟩
  · simp only [hget]
    exact (h m hp).forward hp hm
  · rw [hget] at hm ⊢
    exact (h m hp).backward hp hle hm

end Follows

theorem follows_run (h : p.Alike Function.Returning q) {f : Function} (hf : f.JumpsInside) :
    Follows p q (run f) (run f.returning) := by
  have hstart {m : Machine} (hp : m.program = p) (fuel steps : Nat) :
      Config.Returning p q fuel steps ⟨⟨f, 0⟩, [], m⟩ ⟨⟨f.returning, 0⟩, [], m.under q fuel steps⟩ :=
    ⟨⟨⟨hf, rfl⟩, rfl⟩, .nil, hp, rfl⟩
  have hfinish : Follows p q (fun m => finish ⟨⟨f, 0⟩, [], m⟩) fun m => finish ⟨⟨f.returning, 0⟩, [], m⟩ := by
    refine ⟨fun {m} hp hm => ?_, fun {m fuel steps} hp hle hm => ?_, fun {m} hp => ?_⟩
    · obtain ⟨k, -, hover⟩ := over_finish ⟨⟨f, 0⟩, [], m⟩
      exact ⟨k, fun fuel steps hk => hover.forward h hm (hstart hp fuel steps) hk⟩
    · obtain ⟨k, -, hover⟩ := over_finish ⟨⟨f.returning, 0⟩, [], m.under q fuel steps⟩
      exact hover.backward h hm (hstart hp fuel steps) hle
    · obtain ⟨k, -, hover⟩ := over_finish ⟨⟨f, 0⟩, [], m⟩
      exact hover.counts.2.1.trans hp
  refine .bind (.modify fun _ _ _ => ⟨rfl, rfl, rfl⟩) fun _ => ?_
  exact .bind (.of_matches (matches_pushNative _) (plain_pushNative _)) fun _ => hfinish

/-- A program in which no jump goes out of the code. -/
def Program.JumpsInside (p : Program) : Prop := ∀ f ∈ p.init :: p.functions, f.JumpsInside

theorem follows_call (h : Program.JumpsInside p) (name : String) : Follows p p.returning (call name) (call name) := by
  have halike := Program.returning_alike fun f hf => h f (List.mem_cons_of_mem _ hf)
  have hclear : Follows p p.returning clearStack clearStack := .modify fun _ _ _ => ⟨rfl, rfl, rfl⟩
  refine .get (fun _ _ _ => rfl) fun m hp => ?_
  dsimp only [under]
  split
  on_goal 1 =>
    refine .bind (.modify fun _ _ _ => ⟨rfl, rfl, rfl⟩) fun _ => ?_
    refine .get (fun _ _ _ => rfl) fun m hp => .bind ?_ fun _ => ?_
    · rw [hp]
      exact follows_run halike (h _ List.mem_cons_self)
  -- the globals have their values, now or from before
  all_goals
    refine .get (fun _ _ _ => rfl) fun m hp => ?_
    have hfound := halike.function? name
    dsimp only [under]
    rw [hp]
    generalize p.function? name = found, p.returning.function? name = found' at hfound
    cases hfound with
    | none => exact .of_matches (.throw nofun) (.of_matches fun _ => .throw nofun)
    | @some f f' hf =>
      obtain ⟨hexternal, hf⟩ := hf
      dsimp only
      rw [hexternal]
      split
      · exact .of_matches (.throw nofun) (.of_matches fun _ => .throw nofun)
      next hinner =>
        obtain ⟨hjumps, rfl⟩ := hf (Bool.not_eq_true _ ▸ hinner)
        refine hclear.bind fun _ => (follows_run halike hjumps).bind fun _ => .get (fun _ _ _ => rfl) fun m _ => ?_
        exact hclear.bind fun _ => .of_matches (.pure rfl) (.of_matches fun _ => .pure rfl)

/-! ## Calls one after the other -/

/-- The results are the same but for the program and for the count of instructions: the values or the fault, the
memory, the output and the rest of the machine. -/
def Agrees (q : Program) (r r' : EStateM.Result Fault Machine α) : Prop :=
  ∃ fuel steps, r' = onFinal (under q fuel steps) r

theorem session_forward (h : Program.JumpsInside p) (names : List String) (hp : m.program = p)
    (hout : ∀ r ∈ session names m, ¬ OutOfFuel r) : ∃ k, ∀ fuel steps, k ≤ fuel →
      List.Forall₂ (Agrees p.returning) (session names m) (session names (m.under p.returning fuel steps)) := by
  induction names generalizing m with
  | nil => exact ⟨0, fun _ _ _ => .nil⟩
  | cons name names ih =>
    simp only [session, List.mem_cons, forall_eq_or_imp] at hout
    have hcall := follows_call h name
    obtain ⟨k, hk⟩ := hcall.forward hp hout.1
    obtain ⟨k', hk'⟩ := ih (hcall.kept hp) hout.2
    refine ⟨k + k', fun fuel steps hle => ?_⟩
    obtain ⟨fuel', steps', hle', heq⟩ := hk fuel steps (by omega)
    rw [session, session, heq, final_onFinal]
    exact .cons ⟨fuel', steps', rfl⟩ (hk' fuel' steps' (by omega))

theorem session_backward (h : Program.JumpsInside p) (names : List String) (hp : m.program = p) (hle : fuel ≤ m.fuel)
    (hout : ∀ r ∈ session names (m.under p.returning fuel steps), ¬ OutOfFuel r) :
    List.Forall₂ (Agrees p.returning) (session names m) (session names (m.under p.returning fuel steps)) := by
  induction names generalizing m fuel steps with
  | nil => exact .nil
  | cons name names ih =>
    simp only [session, List.mem_cons, forall_eq_or_imp] at hout
    have hcall := follows_call h name
    obtain ⟨fuel', steps', hle', heq⟩ := hcall.backward hp hle hout.1
    rw [heq, final_onFinal] at hout
    rw [session, session, heq, final_onFinal]
    exact .cons ⟨fuel', steps', rfl⟩ (ih (hcall.kept hp) hle' hout.2)

/-- Where no jump goes out of the code, falling off its end is a return: calls that do not run out of fuel come out the
same with a return at the end of all code and enough fuel, and those that do not run out with the returns come out the
same without them. -/
theorem falling_off_returns (p : Program) (h : Program.JumpsInside p) (names : List String) (n : Nat) :
    ((∀ r ∈ session names (ofProgram p n), ¬ OutOfFuel r) → ∃ k, ∀ fuel, k ≤ fuel →
        List.Forall₂ (Agrees p.returning) (session names (ofProgram p n)) (session names (ofProgram p.returning fuel))) ∧
      ((∀ r ∈ session names (ofProgram p.returning n), ¬ OutOfFuel r) → ∀ fuel, n ≤ fuel →
        List.Forall₂ (Agrees p.returning) (session names (ofProgram p fuel)) (session names (ofProgram p.returning n))) := by
  have hstart (n fuel : Nat) : ofProgram p.returning fuel = (ofProgram p n).under p.returning fuel 0 := rfl
  constructor
  · intro hout
    obtain ⟨k, hk⟩ := session_forward h names rfl hout
    exact ⟨k, fun fuel hle => hstart n fuel ▸ hk fuel 0 hle⟩
  · intro hout fuel hle
    rw [hstart fuel n] at hout ⊢
    exact session_backward h names rfl hle hout

theorem falling_off_returns_failing : ∃ k, ∀ fuel, k ≤ fuel → List.Forall₂ (Agrees failing.returning)
    (session ["main", "main"] (ofProgram failing 2)) (session ["main", "main"] (ofProgram failing.returning fuel)) := by
  have hinside : Program.JumpsInside failing := by
    intro f hf i t ht
    simp only [failing, starting, List.mem_cons, List.not_mem_nil, or_false] at hf
    rcases hf with rfl | rfl
    · cases i <;> simp [Function.jumpTarget?] at ht
    · simp [Function.jumpTarget?] at ht
  obtain ⟨m, m', -, hsession⟩ := session_failing
  refine (falling_off_returns failing hinside ["main", "main"] 2).1 ?_
  rw [hsession]
  simp [OutOfFuel]

end Machine
end Wordstack
