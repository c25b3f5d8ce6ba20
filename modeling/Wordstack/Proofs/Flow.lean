/-
Quantities that code moves: a depth, a height. A flow says what each command does to the
quantity and where it may stand; a path is code that can be given a quantity at every
position so that all edges agree, those of its jumps included. Since jumps are relative,
paths are put in a row as code is.
-/
import Wordstack.Code

namespace Wordstack

variable {c : Command} {cs : List Command}

/-- Whether execution may go on at the next instruction. -/
def Opcode.fallsThrough : Opcode → Bool
  | .jump | .ret | .brk | .invalid => false
  | _ => true

structure Flow (σ : Type) where
  /-- Where a command may stand. -/
  ok : Command → σ → Prop
  /-- What a command makes of the quantity. -/
  next : Command → σ → σ
  ok_jump : ∀ c a, c.op = .jump → ok c a
  next_jump : ∀ c a, c.op = .jump → next c a = a

namespace Flow

variable {σ : Type} (F : Flow σ)

/-- A step at position `i` of code that is `size` long, where the quantity is `marks` at each position
and `loop` where the loop around starts and ends. -/
def StepFits (loop : Option σ) (marks : Nat → σ) (size i : Nat) : Step → Prop
  | .command c =>
    F.ok c (marks i) ∧ (c.op.fallsThrough = true → marks (i + 1) = F.next c (marks i)) ∧
      (c.op.isJump = true → ∃ (d : Int) (t : Nat), c.operand = .signed d ∧ (t : Int) = i + 1 + d ∧
        t ≤ size ∧ marks t = F.next c (marks i))
  | .pending .. => loop = some (marks i)

/-- A piece of code at position `pc`. -/
def Fits (loop : Option σ) (marks : Nat → σ) (size pc : Nat) (code : Code) : Prop :=
  ∀ i step, code[i]? = some step → F.StepFits loop marks size (pc + i) step

/-- Code that takes the quantity from `s` to `s'`; `seen` are its values on the way. -/
def Path (loop : Option σ) (s : σ) (code : Code) (s' : σ) (seen : σ → Prop) : Prop :=
  ∃ m : Nat → σ, m 0 = s ∧ m code.length = s' ∧ (∀ a, seen a ↔ ∃ i ≤ code.length, m i = a) ∧
    ∀ marks size pc, (∀ i ≤ code.length, marks (pc + i) = m i) → pc + code.length ≤ size →
      F.Fits loop marks size pc code

variable {F} {loop : Option σ} {marks : Nat → σ} {size pc : Nat} {a b : Code}

theorem Fits.append : F.Fits loop marks size pc (a ++ b) ↔
      F.Fits loop marks size pc a ∧ F.Fits loop marks size (pc + a.length) b := by
  constructor
  · intro h
    refine ⟨fun i step hi => h i step ?_, fun i step hi => ?_⟩
    · rw [List.getElem?_append_left (List.getElem?_eq_some_iff.mp hi).1]
      exact hi
    · rw [Nat.add_assoc]
      refine h _ step ?_
      rw [List.getElem?_append_right (by omega)]
      simpa using hi
  · intro ⟨h₁, h₂⟩ i step hi
    by_cases hlt : i < a.length
    · rw [List.getElem?_append_left hlt] at hi
      exact h₁ i step hi
    · rw [List.getElem?_append_right (by omega)] at hi
      have := h₂ _ step hi
      rwa [show pc + a.length + (i - a.length) = pc + i by omega] at this

theorem Fits.single {step : Step} : F.Fits loop marks size pc [step] ↔ F.StepFits loop marks size pc step := by
  constructor
  · intro h
    exact h 0 step rfl
  · intro h i step' hi
    cases i with
    | zero => cases hi; exact h
    | succ i => simp at hi

/-! ## Putting paths together -/

variable {s s₁ s₂ : σ} {seen seen₁ seen₂ : σ → Prop}

theorem Path.nil : F.Path loop s [] s (· = s) :=
  ⟨fun _ => s, rfl, rfl, fun a => ⟨fun h => ⟨0, Nat.le_refl _, h.symm⟩, fun ⟨_, _, h⟩ => h.symm⟩,
    fun _ _ _ _ _ i step hi => by simp at hi⟩

/-- The marks of two pieces in a row, the first of which is `n` long. -/
def glue (n : Nat) (m₁ m₂ : Nat → σ) (i : Nat) : σ := if i < n then m₁ i else m₂ (i - n)

theorem glue_left {n : Nat} {m₁ m₂ : Nat → σ} (h : m₁ n = m₂ 0) {i : Nat} (hi : i ≤ n) : glue n m₁ m₂ i = m₁ i := by
  unfold glue
  split
  · rfl
  · obtain rfl : i = n := by omega
    rw [Nat.sub_self, h]

theorem glue_right (n : Nat) (m₁ m₂ : Nat → σ) (i : Nat) : glue n m₁ m₂ (n + i) = m₂ i := by
  unfold glue
  rw [if_neg (by omega), Nat.add_sub_cancel_left]

theorem seen_glue {n k : Nat} {m₁ m₂ : Nat → σ} (h : m₁ n = m₂ 0)
    (h₁ : ∀ a, seen₁ a ↔ ∃ i ≤ n, m₁ i = a) (h₂ : ∀ a, seen₂ a ↔ ∃ i ≤ k, m₂ i = a) (a : σ) :
    seen₁ a ∨ seen₂ a ↔ ∃ i ≤ n + k, glue n m₁ m₂ i = a := by
  rw [h₁, h₂]
  constructor
  · rintro (⟨i, hi, rfl⟩ | ⟨i, hi, rfl⟩)
    · exact ⟨i, by omega, glue_left h hi⟩
    · exact ⟨n + i, by omega, glue_right n m₁ m₂ i⟩
  · rintro ⟨i, hi, rfl⟩
    by_cases hn : i ≤ n
    · exact .inl ⟨i, hn, (glue_left h hn).symm⟩
    · refine .inr ⟨i - n, by omega, ?_⟩
      rw [← glue_right n m₁ m₂, show n + (i - n) = i by omega]

theorem Path.append (h₁ : F.Path loop s a s₁ seen₁) (h₂ : F.Path loop s₁ b s₂ seen₂) :
    F.Path loop s (a ++ b) s₂ fun x => seen₁ x ∨ seen₂ x := by
  obtain ⟨m₁, hs, he, hseen₁, hf₁⟩ := h₁
  obtain ⟨m₂, hs', he', hseen₂, hf₂⟩ := h₂
  have hm : m₁ a.length = m₂ 0 := by rw [he, hs']
  refine ⟨glue a.length m₁ m₂, ?_, ?_, ?_, fun marks size pc hg hsize => Fits.append.mpr ⟨?_, ?_⟩⟩
  · rw [glue_left hm (Nat.zero_le _), hs]
  · rw [List.length_append, glue_right, he']
  · rw [List.length_append]
    exact seen_glue hm hseen₁ hseen₂
  · rw [List.length_append] at hsize
    refine hf₁ marks size pc (fun i hi => ?_) (by omega)
    rw [hg i (by rw [List.length_append]; omega), glue_left hm hi]
  · rw [List.length_append] at hsize
    refine hf₂ marks size (pc + a.length) (fun i hi => ?_) (by omega)
    rw [Nat.add_assoc, hg _ (by rw [List.length_append]; omega), glue_right]

/-- The marks around a single step. -/
def around (s s' : σ) (i : Nat) : σ := if i = 0 then s else s'

theorem seen_around {s s' : σ} (a : σ) : a = s ∨ a = s' ↔ ∃ i ≤ 1, around s s' i = a := by
  constructor
  · rintro (rfl | rfl)
    · exact ⟨0, by omega, rfl⟩
    · exact ⟨1, by omega, rfl⟩
  · rintro ⟨i, hi, rfl⟩
    unfold around
    split
    · exact .inl rfl
    · exact .inr rfl

/-- A command that does not jump. If nothing follows it, any quantity may stand behind it. -/
theorem Path.command (hok : F.ok c s) (hj : c.op.isJump = false) (hn : c.op.fallsThrough = true → s₁ = F.next c s) :
    F.Path loop s [.command c] s₁ fun x => x = s ∨ x = s₁ := by
  refine ⟨around s s₁, rfl, rfl, seen_around, fun marks size pc hg _ => Fits.single.mpr ?_⟩
  have h0 : marks pc = s := hg 0 (by simp)
  have h1 : marks (pc + 1) = s₁ := hg 1 (by simp)
  refine ⟨by rw [h0]; exact hok, fun hf => by rw [h0, h1]; exact hn hf, fun h => ?_⟩
  rw [hj] at h
  cases h

theorem Path.pending {exit : LoopExit} {span : Span} (hl : loop = some s) :
    F.Path loop s [.pending exit span] s₁ fun x => x = s ∨ x = s₁ := by
  refine ⟨around s s₁, rfl, rfl, seen_around, fun marks size pc hg _ => Fits.single.mpr ?_⟩
  have h0 : marks pc = s := hg 0 (by simp)
  simpa only [StepFits, h0] using hl

/-! ## Jumps -/

/-- A jump that is made or not, over a piece that leaves the quantity as the jump does. -/
theorem Path.skip (hok : F.ok c s) (hd : c.operand = .signed b.length)
    (hn : F.next c s = s₁) (h : F.Path loop s₁ b s₁ seen) : F.Path loop s (.command c :: b) s₁ fun x => x = s ∨ seen x := by
  obtain ⟨m, hs, he, hseen, hf⟩ := h
  refine ⟨glue 1 (around s s₁) m, rfl, ?_, fun x => ?_, fun marks size pc hg hsize => ?_⟩
  · rw [List.length_cons, Nat.add_comm, glue_right, he]
  · have hm : around s s₁ 1 = m 0 := by rw [hs]; rfl
    have := seen_glue hm seen_around hseen x
    rw [List.length_cons, Nat.add_comm, ← this]
    constructor
    · rintro (h | h)
      · exact .inl (.inl h)
      · exact .inr h
    · rintro ((h | rfl) | h)
      · exact .inl h
      · exact .inr ((hseen _).mpr ⟨0, Nat.zero_le _, hs⟩)
      · exact .inr h
  · rw [List.length_cons] at hg hsize
    have h0 : marks pc = s := hg 0 (by omega)
    have hb : ∀ i ≤ b.length, marks (pc + 1 + i) = m i := by
      intro i hi
      rw [Nat.add_assoc, hg _ (by omega), glue_right]
    refine (Fits.append (a := [.command c])).mpr ⟨Fits.single.mpr ⟨?_, fun _ => ?_, fun _ => ?_⟩, ?_⟩
    · rw [h0]
      exact hok
    · rw [h0, hn, ← hs]
      exact hb 0 (Nat.zero_le _)
    · refine ⟨b.length, pc + 1 + b.length, hd, by omega, by omega, ?_⟩
      rw [hb _ (Nat.le_refl _), he, h0, hn]
    · exact hf marks size (pc + 1) hb (by omega)

/-- One of two pieces: a jump behind the first, and one over the second. -/
theorem Path.choose {j : Command} (hok : F.ok c s) (hc : c.operand = .signed (a.length + 1))
    (hn : F.next c s = s₁) (hj : j.op = .jump) (hd : j.operand = .signed b.length)
    (h₁ : F.Path loop s₁ a s₂ seen₁) (h₂ : F.Path loop s₁ b s₂ seen₂) :
    F.Path loop s (.command c :: (a ++ .command j :: b)) s₂ fun x => x = s ∨ seen₁ x ∨ seen₂ x := by
  obtain ⟨m₁, hs, he, hseen₁, hf₁⟩ := h₁
  obtain ⟨m₂, hs', he', hseen₂, hf₂⟩ := h₂
  -- the jump behind the first piece stands at its end, which is not where the second one starts
  let inner := glue (a.length + 1) (fun i => m₁ (min i a.length)) m₂
  have hlen : (Step.command c :: (a ++ .command j :: b)).length = 1 + (a.length + 1 + b.length) := by
    simp only [List.length_cons, List.length_append]
    omega
  have hin₁ : ∀ i ≤ a.length, inner i = m₁ i := by
    intro i hi
    simp only [inner, glue, if_pos (show i < a.length + 1 by omega), Nat.min_eq_left hi]
  have hin₂ : ∀ i, inner (a.length + 1 + i) = m₂ i := fun i => glue_right _ _ _ i
  refine ⟨glue 1 (around s s₁) inner, rfl, ?_, fun x => ?_, fun marks size pc hg hsize => ?_⟩
  · rw [hlen, glue_right, hin₂, he']
  · show x = s ∨ seen₁ x ∨ seen₂ x ↔ _
    rw [hlen, hseen₁, hseen₂]
    constructor
    · rintro (rfl | ⟨i, hi, rfl⟩ | ⟨i, hi, rfl⟩)
      · exact ⟨0, by omega, rfl⟩
      · exact ⟨1 + i, by omega, by rw [glue_right, hin₁ i hi]⟩
      · exact ⟨1 + (a.length + 1 + i), by omega, by rw [glue_right, hin₂]⟩
    · rintro ⟨i, hi, rfl⟩
      by_cases h0 : i = 0
      · subst h0
        exact .inl rfl
      · obtain ⟨k, rfl⟩ : ∃ k, i = 1 + k := ⟨i - 1, by omega⟩
        rw [glue_right]
        by_cases hk : k ≤ a.length
        · exact .inr (.inl ⟨k, hk, (hin₁ k hk).symm⟩)
        · refine .inr (.inr ⟨k - (a.length + 1), by omega, ?_⟩)
          rw [← hin₂, show a.length + 1 + (k - (a.length + 1)) = k by omega]
  · rw [hlen] at hg hsize
    have h0 : marks pc = s := hg 0 (by omega)
    have ha : ∀ i ≤ a.length, marks (pc + 1 + i) = m₁ i := by
      intro i hi
      rw [Nat.add_assoc, hg _ (by omega), glue_right, hin₁ i hi]
    have hb : ∀ i ≤ b.length, marks (pc + 1 + a.length + 1 + i) = m₂ i := by
      intro i hi
      rw [show pc + 1 + a.length + 1 + i = pc + (1 + (a.length + 1 + i)) by omega, hg _ (by omega),
        glue_right, hin₂]
    refine (Fits.append (a := [.command c])).mpr ⟨Fits.single.mpr ⟨?_, fun _ => ?_, fun _ => ?_⟩,
      Fits.append.mpr ⟨hf₁ marks size (pc + 1) ha (by omega),
        (Fits.append (a := [.command j])).mpr ⟨Fits.single.mpr ⟨?_, fun hf => ?_, fun _ => ?_⟩, ?_⟩⟩⟩
    · rw [h0]
      exact hok
    · rw [h0, hn, ← hs]
      exact ha 0 (Nat.zero_le _)
    · refine ⟨a.length + 1, pc + 1 + a.length + 1, hc, by omega, by omega, ?_⟩
      have := hb 0 (Nat.zero_le _)
      rw [Nat.add_zero] at this
      rw [this, hs', h0, hn]
    · exact F.ok_jump j _ hj
    · rw [hj] at hf
      cases hf
    · refine ⟨b.length, pc + 1 + a.length + 1 + b.length, hd, by simp only [List.length_singleton]; omega,
        by omega, ?_⟩
      rw [hb _ (Nat.le_refl _), he', F.next_jump j _ hj]
      exact he.symm.trans (ha _ (Nat.le_refl _)).symm
    · exact hf₂ marks size _ hb (by simp only [List.length_singleton]; omega)

/-- The open jumps of a loop's body go to the start and to the end of the loop. -/
theorem Fits.settle {total first p : Nat} {body : Code}
    (h : F.Fits (some s) marks size (p + first) body) (h₀ : marks p = s) (h₁ : marks (p + total) = s)
    (hsize : p + total ≤ size) : F.Fits loop marks size (p + first) (Code.settle total first body) := by
  induction body generalizing first with
  | nil => intro i step hi; simp [Code.settle] at hi
  | cons step body ih =>
    obtain ⟨hs, hb⟩ := (Fits.append (a := [step])).mp h
    have hs := Fits.single.mp hs
    cases step with
    | command c => exact (Fits.append (a := [.command c])).mpr ⟨Fits.single.mpr hs, ih hb⟩
    | pending exit span =>
      have hm : s = marks (p + first) := Option.some.inj hs
      refine (Fits.append (a := [.command _])).mpr ⟨Fits.single.mpr ⟨?_, fun hf => ?_, fun _ => ?_⟩, ih hb⟩
      · exact F.ok_jump _ _ rfl
      · cases hf
      · cases exit with
        | leave =>
          refine ⟨_, p + total, rfl, ?_, hsize, ?_⟩
          · simp only [Function.jumpOffset]
            omega
          · rw [F.next_jump _ _ rfl, ← hm, h₁]
        | again =>
          refine ⟨_, p, rfl, ?_, by omega, ?_⟩
          · simp only [Function.jumpOffset]
            omega
          · rw [F.next_jump _ _ rfl, ← hm, h₀]

/-! ## Pieces of code -/

theorem Path.mono (h : F.Path loop s a s₁ seen) (hs : ∀ x, seen x ↔ seen₁ x) : F.Path loop s a s₁ seen₁ := by
  obtain ⟨m, h₀, h₁, hseen, hf⟩ := h
  exact ⟨m, h₀, h₁, fun x => (hs x).symm.trans (hseen x), hf⟩

/-- Where one flow lets a command stand, another one does too, and does the same. -/
theorem Path.imp {G : Flow σ} (h : F.Path loop s a s₁ seen) (hok : ∀ c x, F.ok c x → G.ok c x)
    (hn : ∀ c x, G.next c x = F.next c x) : G.Path loop s a s₁ seen := by
  obtain ⟨m, h₀, h₁, hseen, hf⟩ := h
  refine ⟨m, h₀, h₁, hseen, fun marks size pc hg hsize i step hi => ?_⟩
  have hs := hf marks size pc hg hsize i step hi
  cases step with
  | command c =>
    obtain ⟨h1, h2, h3⟩ := hs
    exact ⟨hok _ _ h1, by simpa only [hn] using h2, by simpa only [hn] using h3⟩
  | pending exit span => exact hs

/-- The same code with another last command, which does to the quantity what the first one did. -/
theorem Path.replaceLast {d : Command}
    (h : F.Path loop s (Code.ofCommands (cs ++ [c])) s₁ seen) (hc : c.op.fallsThrough = true)
    (hd : d.op.isJump = false) (hok : ∀ x, F.ok c x → F.ok d x) (hn : ∀ x, F.next d x = F.next c x) :
    F.Path loop s (Code.ofCommands (cs ++ [d])) s₁ seen := by
  obtain ⟨m, h₀, h₁, hseen, hf⟩ := h
  have hl : (Code.ofCommands (cs ++ [d])).length = (Code.ofCommands (cs ++ [c])).length := by
    simp [Code.ofCommands]
  refine ⟨m, h₀, by rw [hl, h₁], fun x => by rw [hl]; exact hseen x, fun marks size pc hg hsize => ?_⟩
  rw [hl] at hg hsize
  have hall := hf marks size pc hg hsize
  simp only [Code.ofCommands, List.map_append, List.map_cons, List.map_nil] at hall ⊢
  obtain ⟨hcs, hlast⟩ := Fits.append.mp hall
  obtain ⟨h1, h2, -⟩ := Fits.single.mp hlast
  refine Fits.append.mpr ⟨hcs, Fits.single.mpr ⟨hok _ h1, fun _ => ?_, fun hj => ?_⟩⟩
  · rw [h2 hc, hn]
  · rw [hd] at hj
    cases hj

theorem Path.appendCommands {ds : List Command} (h₁ : F.Path loop s (Code.ofCommands cs) s₁ seen₁)
    (h₂ : F.Path loop s₁ (Code.ofCommands ds) s₂ seen₂) :
    F.Path loop s (Code.ofCommands (cs ++ ds)) s₂ fun x => seen₁ x ∨ seen₂ x := by
  have := h₁.append h₂
  simpa only [Code.ofCommands, List.map_append] using this

variable {span : Span} {condition : List Command} {yes no body : Code}

theorem Path.ifThen (hc : F.Path loop s (Code.ofCommands condition) s₁ seen₁)
    (hok : F.ok { op := .jumpIfNot, operand := .signed yes.length, span } s₁)
    (hn : F.next { op := .jumpIfNot, operand := .signed yes.length, span } s₁ = s₂)
    (hy : F.Path loop s₂ yes s₂ seen₂) :
    F.Path loop s (Code.ifThen span condition yes) s₂ fun x => seen₁ x ∨ x = s₁ ∨ seen₂ x := by
  have := hc.append (Path.skip hok rfl hn hy)
  simpa only [Code.ifThen, Code.ofCommands, List.map_append, List.map_cons, List.map_nil,
    List.append_assoc, List.cons_append, List.nil_append] using this

theorem Path.ifElse (hc : F.Path loop s (Code.ofCommands condition) s₁ seen₁)
    (hok : F.ok { op := .jumpIfNot, operand := .signed (yes.length + 1), span } s₁)
    (hn : F.next { op := .jumpIfNot, operand := .signed (yes.length + 1), span } s₁ = s₂)
    {s₃ : σ} {seen₃ : σ → Prop} (hy : F.Path loop s₂ yes s₃ seen₂) (hno : F.Path loop s₂ no s₃ seen₃) :
    F.Path loop s (Code.ifElse span condition yes no) s₃
      fun x => seen₁ x ∨ x = s₁ ∨ seen₂ x ∨ seen₃ x := by
  have := hc.append (Path.choose (j := { op := .jump, operand := .signed no.length, span })
    hok rfl hn rfl rfl hy hno)
  simpa only [Code.ifElse, Code.ofCommands, List.map_append, List.map_cons, List.map_nil,
    List.append_assoc, List.cons_append, List.nil_append] using this

theorem length_settle (total first : Nat) (body : Code) : (Code.settle total first body).length = body.length := by
  induction body generalizing first with
  | nil => rfl
  | cons step body ih => cases step <;> simp [Code.settle, ih]

/-- A loop: what holds where it starts holds where its body ends and where it is left. -/
theorem Path.ofLoop (hc : F.Path loop s (Code.ofCommands condition) s₁ seen₁)
    (hok : F.ok { op := .jumpIfNot, operand := .signed (body.length + 1), span } s₁)
    (hn : F.next { op := .jumpIfNot, operand := .signed (body.length + 1), span } s₁ = s)
    (hb : F.Path (some s) s body s seen₂) :
    F.Path loop s (Code.loop span condition body) s fun x => seen₁ x ∨ seen₂ x := by
  obtain ⟨m₁, hs, he, hseen₁, hf₁⟩ := hc
  obtain ⟨m₂, hs', he', hseen₂, hf₂⟩ := hb
  have hcl : (Code.ofCommands condition).length = condition.length := by simp [Code.ofCommands]
  rw [hcl] at he hseen₁ hf₁
  -- both jumps stand at the end of the piece before them
  let rest := glue (body.length + 1) (fun i => m₂ (min i body.length)) fun _ => s
  let m := glue (condition.length + 1) (fun i => m₁ (min i condition.length)) rest
  have hm₁ : ∀ i ≤ condition.length, m i = m₁ i := by
    intro i hi
    simp only [m, glue, if_pos (show i < condition.length + 1 by omega), Nat.min_eq_left hi]
  have hm₂ : ∀ i ≤ body.length, m (condition.length + 1 + i) = m₂ i := by
    intro i hi
    rw [show m (condition.length + 1 + i) = rest i from glue_right _ _ _ i]
    simp only [rest, glue, if_pos (show i < body.length + 1 by omega), Nat.min_eq_left hi]
  have hm₃ : m (condition.length + 1 + body.length + 1) = s := by
    rw [show condition.length + 1 + body.length + 1 = condition.length + 1 + (body.length + 1 + 0) by omega,
      show m (condition.length + 1 + (body.length + 1 + 0)) = rest (body.length + 1 + 0) from
        glue_right _ _ _ _]
    exact glue_right _ _ _ 0
  have hlen : (Code.loop span condition body).length = condition.length + 1 + body.length + 1 := by
    simp only [Code.loop, Code.ofCommands, List.length_append, List.length_map, length_settle,
      List.length_cons, List.length_nil]
  refine ⟨m, by rw [hm₁ 0 (Nat.zero_le _), hs], by rw [hlen, hm₃], fun x => ?_,
    fun marks size pc hg hsize => ?_⟩
  · show seen₁ x ∨ seen₂ x ↔ _
    rw [hlen, hseen₁, hseen₂]
    constructor
    · rintro (⟨i, hi, rfl⟩ | ⟨i, hi, rfl⟩)
      · exact ⟨i, by omega, hm₁ i hi⟩
      · exact ⟨condition.length + 1 + i, by omega, hm₂ i hi⟩
    · rintro ⟨i, hi, rfl⟩
      by_cases h1 : i ≤ condition.length
      · exact .inl ⟨i, h1, (hm₁ i h1).symm⟩
      by_cases h2 : i ≤ condition.length + 1 + body.length
      · refine .inr ⟨i - (condition.length + 1), by omega, ?_⟩
        rw [← hm₂ _ (by omega), show condition.length + 1 + (i - (condition.length + 1)) = i by omega]
      · refine .inl ⟨0, Nat.zero_le _, ?_⟩
        rw [hs, show i = condition.length + 1 + body.length + 1 by omega, hm₃]
  · rw [hlen] at hg hsize
    have g₁ : ∀ i ≤ condition.length, marks (pc + i) = m₁ i := by
      intro i hi
      rw [hg i (by omega), hm₁ i hi]
    have g₂ : ∀ i ≤ body.length, marks (pc + (condition.length + 1) + i) = m₂ i := by
      intro i hi
      rw [Nat.add_assoc, hg _ (by omega), hm₂ i hi]
    have g₃ : marks (pc + (condition.length + 1 + body.length + 1)) = s := by
      rw [hg _ (Nat.le_refl _), hm₃]
    have g₀ : marks pc = s := by
      have := g₁ 0 (Nat.zero_le _)
      rwa [hs] at this
    have hbody : F.Fits loop marks size (pc + (condition.length + 1))
        (Code.settle (condition.length + 1 + body.length + 1) (condition.length + 1) body) :=
      (hf₂ marks size _ g₂ (by omega)).settle g₀ g₃ (by omega)
    simp only [Code.loop, Code.ofCommands, List.map_append, List.map_cons, List.map_nil]
    refine Fits.append.mpr ⟨Fits.append.mpr ⟨Fits.append.mpr
      ⟨hf₁ marks size pc g₁ (by omega), Fits.single.mpr ⟨?_, fun _ => ?_, fun _ => ?_⟩⟩, ?_⟩,
      Fits.single.mpr ⟨?_, fun hf => ?_, fun _ => ?_⟩⟩
    all_goals simp only [List.length_append, List.length_map, List.length_singleton, length_settle]
    · rw [g₁ _ (Nat.le_refl _), he]
      exact hok
    · rw [g₁ _ (Nat.le_refl _), he, hn]
      have := g₂ 0 (Nat.zero_le _)
      rwa [hs', Nat.add_zero] at this
    · refine ⟨_, pc + (condition.length + 1 + body.length + 1), rfl, by omega, by omega, ?_⟩
      rw [g₃, g₁ _ (Nat.le_refl _), he, hn]
    · exact hbody
    · exact F.ok_jump _ _ rfl
    · cases hf
    · refine ⟨_, pc, rfl, by omega, by omega, ?_⟩
      rw [F.next_jump _ _ rfl, g₀]
      have := g₂ _ (Nat.le_refl _)
      rw [he', Nat.add_assoc] at this
      exact this.symm

end Flow
end Wordstack
