/-
What the labels in code were written for. Each of them goes back to an atom of the text:
a string literal, whose label is that of its place in the table of texts, or a name that
stands for a function there. In an accepted program nothing is left that must not be
executed, and a call names a function of the program or a builtin.
-/
import Wordstack.Proofs.Assembling
import Wordstack.Proofs.Balance
import Wordstack.Proofs.Recording

namespace Wordstack

open Lower

variable {c : Command} {ctx : GlobalContext} {env : Env} {f : Function} {t : Token}

/-! ## Code that must not be executed -/

/-- What is defined elsewhere has no code here. -/
theorem code_of_external {items : List Stmt} {scope : Scope}
    (hf : f ∈ (Program.ofItems items scope).program.functions) (hext : f.external = true) : f.code = #[] := by
  have hfunction : ∀ globals name s params brace body, Ensures Watch.ignore
      (lowerFunction globals name s params brace body) fun f => f.external = true → f.code = #[] := by
    intro globals name s params brace body
    refine (composes_deep.function globals name s params brace fun t _ env => ensures_level_atom env t).mono ?_
    rintro _ ⟨env, code, -, rfl⟩ hext
    rw [Function.emitAll_external] at hext
    cases hext
  obtain ⟨-, fs, hfs, hmem, -⟩ := of_parts (W := .ignore) trivial trivial .trivial
    (ensures_items fun _ _ _ => ensures_item (fun _ _ _ _ _ _ _ => hfunction ..) fun _ _ _ _ _ _ => rfl)
  exact hfs f (hmem f hf) hext

section

variable {items : List Stmt} (hw : Stmt.WholeAll items) (ha : ScopeErrors.Accepted (Scope.ofItems items).errors)
  (hc : ∀ e ∈ (Program.ofItems items (Scope.ofItems items).scope).errors, e.diagnostic.isWarning = true)
  (hf : f ∈ (Program.ofItems items (Scope.ofItems items).scope).program.init ::
    (Program.ofItems items (Scope.ofItems items).scope).program.functions)
include hw ha hc hf

/-- Where an accepted program has code, the code balances. -/
theorem heightMap_of_getElem? {j : Nat} {i : Instr} (hi : f.code[j]? = some i) : ∃ height setup,
    f.HeightMap (Program.ofItems items (Scope.ofItems items).scope).program.arities height setup := by
  have hmaps := heightMaps_of_accepted hw ha hc
  rcases List.mem_cons.mp hf with rfl | hf
  · exact hmaps.1.imp fun _ h => ⟨_, h⟩
  · by_cases hext : f.external = true
    · rw [code_of_external hf hext] at hi
      cases hi
    · exact (hmaps.2 f hf (by simpa using hext)).imp fun _ h => ⟨_, h⟩

/-- The instructions of an accepted program stand at heights that suit them. -/
theorem heightOK_of_mem {i : Instr} (hi : i ∈ f.code) :
    ∃ h, i.HeightOK (Program.ofItems items (Scope.ofItems items).scope).program.arities f.returns h := by
  obtain ⟨k, hk, rfl⟩ := Array.getElem_of_mem hi
  obtain ⟨height, setup, hmap⟩ := heightMap_of_getElem? hw ha hc hf (Array.getElem?_eq_getElem hk)
  exact ⟨_, hmap.fits k _ (Array.getElem?_eq_getElem hk)⟩

end

/-- Code that must not be executed never comes without a report that stops the compilation: if any
instruction is such code, a stage has reported more than a warning, and a text that compiles has none. -/
theorem invalid_reported (source : String) :
    (∀ f ∈ (SourceUnit.ofSource source).lowered.program.init :: (SourceUnit.ofSource source).lowered.program.functions,
      ∀ i ∈ f.code, i.op = .invalid → ∃ e ∈ (SourceUnit.ofSource source).errors, e.isFatal = true) ∧
    ∀ name c, compile name source = .ok c → ∀ f ∈ c.program.init :: c.program.functions, ∀ i ∈ f.code,
      i.op ≠ .invalid := by
  have hvalid : ∀ name c, compile name source = .ok c → ∀ f ∈ c.program.init :: c.program.functions, ∀ i ∈ f.code,
      i.op ≠ .invalid := by
    intro name c h f hf i hi
    obtain ⟨hprogram, hparse, hscope, hcode⟩ := of_compile h
    rw [hprogram] at hf
    obtain ⟨_, hok⟩ := heightOK_of_mem (whole_of_parse hparse) hscope hcode hf hi
    exact hok.valid
  refine ⟨fun f hf i hi hop => ?_, hvalid⟩
  by_cases hfatal : (SourceUnit.ofSource source).errors.any CompileError.isFatal = true
  · exact List.any_eq_true.mp hfatal
  · obtain ⟨c, hc, hp⟩ := compile_of_errors "" (by simpa using hfatal)
    rw [← hp] at hf
    exact absurd hop (hvalid "" c hc f hf i hi)

/-- A name that stands for nothing. -/
theorem invalid_reported_unknown :
    (∃ f ∈ (SourceUnit.ofSource "f : () = \x7b x; \x7d").lowered.program.functions, ∃ i ∈ f.code, i.op = .invalid) ∧
      ∃ e ∈ (SourceUnit.ofSource "f : () = \x7b x; \x7d").errors, e.isFatal = true := by
  have hany : ((SourceUnit.ofSource "f : () = \x7b x; \x7d").lowered.program.functions.any fun f =>
      f.code.toList.any fun i => i.op = .invalid) = true := by decide +kernel
  obtain ⟨f, hf, hany⟩ := List.any_eq_true.mp hany
  obtain ⟨i, hi, hop⟩ := List.any_eq_true.mp hany
  have hi : i ∈ f.code := Array.mem_toList_iff.mp hi
  have hop : i.op = .invalid := of_decide_eq_true hop
  exact ⟨⟨f, hf, i, hi, hop⟩, (invalid_reported _).1 f (List.mem_cons_of_mem _ hf) i hi hop⟩

/-! ## Labels -/

/-- What the labels of a program are taken from: the atoms of its text, what the global names stand for,
and the texts of the string literals. -/
structure Vocabulary where
  atoms : List Token
  globals : NameTable SymbolInfo
  texts : List String

namespace Vocabulary

/-- The label that an atom has when it is used as a value. -/
inductive Labels (V : Vocabulary) (t : Token) : String → Prop
  | text {s : String} {k : Nat} (hk : t.kind = .string) (hs : t.literal = .text s) (ht : V.texts[k]? = some s) :
    V.Labels t (StringTable.label k)
  | function {s : SymbolInfo} (hk : t.isIdent = true) (hs : V.globals.get? t.text = some s)
    (hf : s.IsFunction) : V.Labels t t.text
  | builtin {b : Builtin} (hk : t.isIdent = true) (hb : Builtin.ofName? t.text = some b)
    (hg : ∀ s, V.globals.get? t.text = some s → ¬s.IsFunction) : V.Labels t t.text

/-- A label is the operand of a call, or stands for the atom that the command was made from. -/
def Covers (V : Vocabulary) (c : Command) : Prop :=
  ∀ l, c.operand = .label l → c.op = .call ∨ c.op = .pushGea ∧ ∃ t ∈ V.atoms, t.span = c.span ∧ V.Labels t l

/-- All commands of a piece of code are covered. -/
def CoversAll (V : Vocabulary) (cs : List Command) : Prop := ∀ c ∈ cs, V.Covers c

variable {V : Vocabulary} {cs ds : List Command}

theorem covers_of_operand (h : ∀ l, c.operand ≠ .label l) : V.Covers c := fun l hl => absurd hl (h l)

theorem CoversAll.nil : V.CoversAll [] := fun _ h => by cases h

theorem CoversAll.append (h₁ : V.CoversAll cs) (h₂ : V.CoversAll ds) : V.CoversAll (cs ++ ds) :=
  List.forall_mem_append.mpr ⟨h₁, h₂⟩

theorem CoversAll.cons {c : Command} (h : ∀ l, c.operand ≠ .label l) (hs : V.CoversAll cs) : V.CoversAll (c :: cs) :=
  List.forall_mem_cons.mpr ⟨covers_of_operand h, hs⟩

theorem CoversAll.single (h : ∀ l, c.operand ≠ .label l) : V.CoversAll [c] := .cons h .nil

/-- A command that was made for an atom. -/
theorem CoversAll.label (ht : t ∈ V.atoms) {l : String} (hl : V.Labels t l) :
    V.CoversAll [{ op := .pushGea, operand := .label l, span := t.span }] := by
  intro c hc l' hop
  obtain rfl := List.mem_singleton.mp hc
  cases hop
  exact .inr ⟨rfl, t, ht, rfl, hl⟩

theorem CoversAll.invalidAt (span : Span) : V.CoversAll (Wordstack.invalidAt span) := .single (by simp)

theorem CoversAll.freeCommands (n : Nat) (span : Span) : V.CoversAll (Wordstack.freeCommands n span) := by
  unfold Wordstack.freeCommands
  split
  · exact .nil
  · exact .single (by simp)

theorem CoversAll.storeLocal (n : Nat) (span : Span) : V.CoversAll (Wordstack.storeLocal n span) :=
  .cons (by simp) (.single (by simp))

/-- The states from which the texts of `V` can still be reached. -/
def watch (V : Vocabulary) : Watch Notes where
  inv _ := True
  clean notes := notes.strings.texts <+: V.texts

theorem ensures_report (e : CodeError) : Ensures V.watch (report e) fun _ => True :=
  ⟨fun _ _ => True.intro, fun _ _ h => ⟨h, True.intro⟩⟩

/-- The label of a text says where it stands among the texts. -/
theorem ensures_intern (s : String) :
    Ensures V.watch (intern s) fun l => ∃ k, l = StringTable.label k ∧ V.texts[k]? = some s := by
  refine ⟨fun _ _ => True.intro, fun notes _ h => ?_⟩
  obtain ⟨hinitial, k, hl, hk⟩ := notes.strings.intern_spec s
  exact ⟨hinitial.trans h, k, hl, hk _ h⟩

/-! ## Names in scope -/

/-- In `env` only global names stand for functions, and a name that is being declared hides none. -/
structure Knows (V : Vocabulary) (env : Env) : Prop where
  globals : env.globals = V.globals
  blocks : ∀ block ∈ env.blocks, ∀ x s, block.get? x = some s → ¬s.IsFunction
  excluded : ∀ x, env.excluded = some x →
    (∃ block ∈ env.blocks, (block.get? x).isSome) ∨ ∀ s, V.globals.get? x = some s → ¬s.IsFunction

namespace Knows

variable {env inner : Env}

theorem lookup?_some (h : V.Knows env) {x : String} {s : SymbolInfo} (hl : env.lookup? x = some s)
    (hf : s.IsFunction) : V.globals.get? x = some s := by
  rcases Env.mem_of_lookup? hl with ⟨i, block, hb, hx⟩ | hx
  · exact absurd hf (h.blocks block (List.mem_of_getElem? hb) x s hx)
  · rwa [← h.globals]

theorem lookup?_none (h : V.Knows env) {x : String} (hl : env.lookup? x = none) :
    ∀ s, V.globals.get? x = some s → ¬s.IsFunction := by
  unfold Env.lookup? Env.meanings at hl
  rw [h.globals] at hl
  split at hl
  next hx =>
    rcases h.excluded x hx with ⟨block, hb, hsome⟩ | hg
    · -- the block has a meaning of its own, so that nothing is left for the globals
      obtain ⟨s, hs⟩ := Option.isSome_iff_exists.mp hsome
      have hne : env.blocks.filterMap (NameTable.get? x) ≠ [] :=
        List.ne_nil_of_mem (List.mem_filterMap.mpr ⟨block, hb, hs⟩)
      intro g hg
      rw [List.tail_append_of_ne_nil hne, hg] at hl
      simp at hl
    · exact hg
  · intro g hg
    rw [hg] at hl
    simp at hl

theorem openBlock (h : V.Knows env) : V.Knows env.openBlock where
  globals := h.globals
  blocks := List.forall_mem_cons.mpr ⟨fun _ _ hx => by (cases hx), h.blocks⟩
  excluded := fun x hx => (h.excluded x hx).imp (fun ⟨b, hb, hs⟩ => ⟨b, List.mem_cons_of_mem _ hb, hs⟩) id

theorem closeBlock (h : V.Knows env) : V.Knows (env.closeBlock inner) := ⟨h.globals, h.blocks, h.excluded⟩

theorem alloc (h : V.Knows env) (n : Nat) : V.Knows (env.alloc n) := ⟨h.globals, h.blocks, h.excluded⟩

theorem inLoop (h : V.Knows env) (d : Option Nat) : V.Knows { env with loopDepth := d } :=
  ⟨h.globals, h.blocks, h.excluded⟩

theorem enter (h : V.Knows env) (name : String) {info : SymbolInfo} (hi : ¬info.IsFunction) :
    V.Knows (env.enter name info) := by
  unfold Env.enter
  split
  · exact h
  next block outer hb =>
    refine ⟨h.globals, List.forall_mem_cons.mpr ⟨fun x s hs => ?_, fun b hm => h.blocks b ?_⟩, fun x hx => ?_⟩
    · rw [NameTable.get?_set] at hs
      split at hs
      · obtain rfl := Option.some.inj hs
        exact hi
      · exact h.blocks block (by simp [hb]) x s hs
    · rw [hb]
      exact List.mem_cons_of_mem _ hm
    · refine (h.excluded x hx).imp (fun ⟨b, hm, hs⟩ => ?_) id
      rw [hb] at hm
      rcases List.mem_cons.mp hm with rfl | hm
      · refine ⟨_, List.mem_cons_self, ?_⟩
        rw [NameTable.get?_set]
        split
        · rfl
        · exact hs
      · exact ⟨b, List.mem_cons_of_mem _ hm, hs⟩

end Knows

/-! ## Expressions -/

theorem ensures_covers_name (env : Env) (hk : t.isIdent = true) (ht : t ∈ V.atoms) :
    Ensures V.watch (lowerName env t) fun cs => V.Knows env → V.CoversAll cs := by
  have hreport : ∀ e, Ensures V.watch (do report e; return invalidAt t.span) fun cs => V.Knows env → V.CoversAll cs :=
    fun e => (ensures_report e).bind fun _ => .pure fun _ _ => .invalidAt _
  unfold lowerName
  split
  next hl =>
    split
    next b hb =>
      have hbname : b.name = t.text := by
        have := List.find?_some hb
        exact eq_of_beq this
      rw [hbname]
      exact .pure fun h => .label ht (.builtin hk hb (h.lookup?_none hl))
    · exact hreport _
  next s hl =>
    split
    · split
      next storage _ =>
        refine .pure fun _ => ?_
        unfold readVariable
        split <;> exact .single (by simp)
      · exact hreport _
    next hkind => exact .pure fun h => .label ht (.function hk (h.lookup?_some hl (.inl hkind)) (.inl hkind))
    next hkind => exact .pure fun h => .label ht (.function hk (h.lookup?_some hl (.inr hkind)) (.inr hkind))
    · exact hreport _
    · exact hreport _
    · exact .pure fun _ => .invalidAt _

theorem ensures_covers_atom (env : Env) (ht : t ∈ V.atoms) :
    Ensures V.watch (lowerAtom env t) fun cs => V.Knows env → V.CoversAll cs := by
  unfold lowerAtom
  split
  next _ _ hk => exact ensures_covers_name env (by simp [Token.isIdent, hk]) ht
  next s hk hs =>
    refine (ensures_intern s).bind fun l => .pure fun hlabel _ => ?_
    obtain ⟨k, rfl, htext⟩ := hlabel
    exact .label ht (.text hk hs htext)
  · exact .pure fun _ => .single (by simp)
  · exact .pure fun _ => .single (by simp)
  · exact .pure fun _ => .invalidAt _

/-- A label is not touched where its command is turned into one that names a place. -/
theorem Covers.toLvalue (h : V.Covers c) {mode : LvalueMode} {op : Opcode} {store : Bool}
    (hop : c.op.toLvalue? mode = some (op, store)) : V.Covers { c with op } := by
  intro l hl
  rcases h l hl with hcall | ⟨hgea, hatom⟩
  · rw [hcall] at hop
    cases hop
  · rw [hgea] at hop
    cases mode <;> cases hop
    exact .inr ⟨rfl, hatom⟩

theorem assembles_covers : Assembles V.watch V.CoversAll where
  report := ensures_report
  nil := .nil
  append := .append
  plain _ _ := .single
  place := fun h hop => by
    obtain ⟨hcs, hc⟩ := List.forall_mem_append.mp h
    exact CoversAll.append hcs fun d hd => List.mem_singleton.mp hd ▸ (hc _ List.mem_cons_self).toLvalue hop
  call := fun h _ => CoversAll.append (List.forall_mem_append.mp h).1 fun d hd _ _ =>
    .inl (List.mem_singleton.mp hd ▸ rfl)
  skip := fun _ _ _ _ hl hr => (hl.append (.cons (by simp) (.cons (by simp) (.single (by simp))))).append hr

/-! ## Declarations -/

/-- An environment within a function, where names that are declared enter a block. -/
structure Within (V : Vocabulary) (env : Env) : Prop extends V.Knows env where
  inside : env.blocks ≠ []

namespace Within

variable {inner : Env} {code : Code}

theorem openBlock (h : V.Within env) : V.Within env.openBlock := ⟨h.toKnows.openBlock, by simp [Env.openBlock]⟩

theorem closeBlock (h : V.Within env) : V.Within (env.closeBlock inner) := ⟨h.toKnows.closeBlock, h.inside⟩

theorem enter (h : V.Within env) (name : String) {info : SymbolInfo} (hi : ¬info.IsFunction) :
    V.Within (env.enter name info) := by
  refine ⟨h.toKnows.enter name hi, fun hnil => h.inside (List.length_eq_zero_iff.mp ?_)⟩
  rw [← (Env.Grows.enter env name info).length, hnil]
  rfl

theorem declared (h : V.Within env) (name : String) (span : Span) (t : Ty) : V.Within (env.declared name span t) :=
  enter ⟨h.alloc _, h.inside⟩ name (by simp [SymbolInfo.IsFunction, localVar])

/-- A name that is being declared in a block does not hide what it stands for around the block. -/
theorem hidden {name : String} {span : Span} {t : Ty} (h : V.Within (env.declared name span t)) :
    V.Within { env.declared name span t with excluded := some name } := by
  refine ⟨⟨h.globals, h.blocks, fun x hx => .inl ?_⟩, h.inside⟩
  cases hx
  have hinside := h.inside
  unfold Env.declared Env.enter at hinside ⊢
  split
  next hnil => simp [hnil] at hinside
  · exact ⟨_, List.mem_cons_self, by simp⟩

end Within

/-! ## Statements -/

/-- The commands of a piece of code that may hold open jumps. -/
def CoversCode (V : Vocabulary) (code : Code) : Prop := ∀ c, .command c ∈ code → V.Covers c

variable {code code' : Code}

theorem CoversAll.ofCommands (h : V.CoversAll cs) : V.CoversCode (.ofCommands cs) := by
  intro c hc
  obtain ⟨c', hc', heq⟩ := List.mem_map.mp hc
  cases heq
  exact h c hc'

theorem CoversCode.append (h₁ : V.CoversCode code) (h₂ : V.CoversCode code') : V.CoversCode (code ++ code') :=
  fun c hc => (List.mem_append.mp hc).elim (h₁ c) (h₂ c)

theorem CoversCode.commands (h : V.CoversCode code) : V.CoversAll code.commands := by
  intro c hc
  obtain ⟨step, hstep, rfl⟩ := List.mem_map.mp hc
  cases step with
  | command c => exact h c hstep
  | pending exit span => exact covers_of_operand (by simp)

/-- The jumps that leave a loop carry no labels of their own. -/
theorem CoversCode.settle (h : V.CoversCode code) (total first : Nat) : V.CoversCode (code.settle total first) := by
  induction code generalizing first with
  | nil => exact h
  | cons step steps ih =>
    have hsteps := ih (fun c hc => h c (List.mem_cons_of_mem _ hc)) (first + 1)
    intro c hc
    cases step with
    | command c' =>
      rcases List.mem_cons.mp hc with heq | hc
      · cases heq
        exact h c List.mem_cons_self
      · exact hsteps c hc
    | pending exit span =>
      rcases List.mem_cons.mp hc with heq | hc
      · cases heq
        exact covers_of_operand (by simp)
      · exact hsteps c hc

theorem CoversCode.ifThen (span : Span) (hc : V.CoversAll cs) (hy : V.CoversCode code) :
    V.CoversCode (.ifThen span cs code) :=
  (hc.append (.single (by simp))).ofCommands.append hy

theorem CoversCode.ifElse (span : Span) (hc : V.CoversAll cs) (hy : V.CoversCode code) (hn : V.CoversCode code') :
    V.CoversCode (.ifElse span cs code code') :=
  (((hc.append (.single (by simp))).ofCommands.append hy).append (CoversAll.single (by simp)).ofCommands).append hn

theorem CoversCode.loop (span : Span) (hc : V.CoversAll cs) (hb : V.CoversCode code) : V.CoversCode (.loop span cs code) :=
  ((hc.append (.single (by simp))).ofCommands.append (hb.settle _ _)).append (CoversAll.single (by simp)).ofCommands

/-- After a statement the names are as they should be, and so is its code. -/
def FollowsCode (V : Vocabulary) (env : Env) (r : Env × Code) : Prop :=
  V.Within env → V.Within r.1 ∧ V.CoversCode r.2

theorem composes_covers : Composes V.watch (fun env cs => V.Within env → V.CoversAll cs) V.FollowsCode where
  assembles _ := assembles_covers.guard _
  simple := fun h hwithin => ⟨hwithin, (h hwithin).ofCommands⟩
  trans := fun h h' hwithin => (h' (h hwithin).1).imp id (h hwithin).2.append
  enter := fun _ hi hwithin => ⟨hwithin.enter _ hi, CoversAll.nil.ofCommands⟩
  declared name span _ hwithin := ⟨hwithin.declared name span _, (CoversAll.single (by simp [allocCommand])).ofCommands⟩
  hidden := fun h hwithin => h hwithin.hidden
  store span _ _ _ := .storeLocal _ span
  leave span h hwithin :=
    ⟨hwithin, (((h hwithin).append (.freeCommands _ _)).append (.cons (by simp) (.single (by simp)))).ofCommands⟩
  exit exit span _ hwithin := by
    refine ⟨hwithin, (CoversAll.freeCommands _ _).ofCommands.append fun c hc => ?_⟩
    cases List.mem_singleton.mp hc
  close span h hwithin :=
    ⟨hwithin.closeBlock, (h hwithin.openBlock).2.append (CoversAll.freeCommands _ _).ofCommands⟩
  ifThen span hc h _ hwithin := ⟨(h hwithin).1, .ifThen span (hc hwithin) (h hwithin).2⟩
  ifElse span hc h _ h' _ hwithin :=
    ⟨(h' (h hwithin).1).1, .ifElse span (hc hwithin) (h hwithin).2 (h' (h hwithin).1).2⟩
  loop span hc h _ hwithin :=
    ⟨hwithin.closeBlock, .loop span (hc hwithin) (h ⟨hwithin.inLoop _, hwithin.inside⟩).2⟩

/-! ## Programs -/

theorem covers_emitAll (hf : f.code = #[]) (h : V.CoversAll cs) : ∀ i ∈ (f.emitAll cs).code, V.Covers i.toCommand := by
  intro i hi
  obtain ⟨k, hk, rfl⟩ := Array.getElem_of_mem hi
  obtain ⟨c, hc, heq⟩ := Function.getElem?_emitAll hf (Array.getElem?_eq_getElem hk)
  rw [heq]
  exact h c (List.mem_of_getElem? hc)

theorem within_ofFunction (name : String) (returns : Nat) : V.Within (Env.ofFunction V.globals name returns) := by
  refine ⟨⟨rfl, fun block hb x s hs => ?_, fun x hx => by cases hx⟩, by simp [Env.ofFunction]⟩
  obtain rfl := List.mem_singleton.mp hb
  cases hs

theorem CoversAll.functionEnd (n : Nat) (span : Span) : V.CoversAll (Wordstack.functionEnd n span) := by
  unfold Wordstack.functionEnd
  split
  · exact .cons (by simp) (.single (by simp))
  · exact .single (by simp)

theorem ensures_covers_item (hg : ctx.env.globals = V.globals) (root : Nat) (item : Stmt) (ha : item.atoms ⊆ V.atoms) :
    Ensures V.watch (lowerItem ctx root item) fun f? => ∀ f ∈ f?, ∀ i ∈ f.code, V.Covers i.toCommand := by
  refine ensures_item ?_ fun _ _ _ _ _ i hi => absurd hi (Array.not_mem_empty i)
  rintro name ty brace body s rfl -
  refine (composes_covers.function _ name s _ brace fun t ht env =>
    (ensures_covers_atom env (ha ht)).mono fun _ h hwithin => h hwithin.toKnows).mono ?_
  rintro _ ⟨env, code, hcode, rfl⟩
  rw [hg] at hcode
  exact covers_emitAll rfl ((CoversAll.cons (by simp) (hcode (within_ofFunction _ _)).2.commands).append (.functionEnd _ _))

/-- A global that is given its first value is no function. -/
theorem knows_initial (hg : ctx.env = { globals := ctx.layout.symbols ctx.scope })
    (hV : V.globals = ctx.layout.symbols ctx.scope) : V.Knows ctx.env ∧ ∀ root name o,
      ctx.layout.offsetFor? ctx.scope root name = some o → V.Knows { ctx.env with excluded := some name.text } := by
  rw [hg]
  refine ⟨⟨hV.symm, fun _ h => by (cases h), fun _ h => by cases h⟩, fun root name o ho =>
    ⟨hV.symm, fun _ h => by (cases h), fun x hx => .inr fun s hs hfun => ?_⟩⟩
  cases hx
  rw [hV, Layout.get?_symbols] at hs
  obtain ⟨e, he, rfl⟩ := Option.map_eq_some_iff.mp hs
  unfold Layout.offsetFor? at ho
  rw [he] at ho
  dsimp only at ho
  split at ho
  next hk => exact hfun.elim (fun h => by cases hk.1.symm.trans h) fun h => by cases hk.1.symm.trans h
  · cases ho

end Vocabulary

theorem Stmt.atoms_subset {s : Stmt} {ss : List Stmt} (h : s ∈ ss) : s.atoms ⊆ Stmt.atomsAll ss := by
  induction ss with
  | nil => cases h
  | cons s' ss ih =>
    rcases List.mem_cons.mp h with rfl | h
    · exact List.subset_append_left _ _
    · exact List.Subset.trans (ih h) (List.subset_append_right _ _)

/-- The vocabulary of the program that a list of items stands for. -/
def Vocabulary.ofItems (items : List Stmt) (scope : Scope) : Vocabulary where
  atoms := Stmt.atomsAll items
  globals := (Layout.ofItems scope items).symbols scope
  texts := (Program.ofItems items scope).program.strings.texts

/-- Whatever is wrong with a text, its labels are those of its calls and of its atoms. -/
theorem covers_ofItems {items : List Stmt} {scope : Scope}
    (hf : f ∈ (Program.ofItems items scope).program.init :: (Program.ofItems items scope).program.functions) {i : Instr}
    (hi : i ∈ f.code) : (Vocabulary.ofItems items scope).Covers i.toCommand := by
  let V := Vocabulary.ofItems items scope
  obtain ⟨hknows, hhiding⟩ := @Vocabulary.knows_initial (.ofItems items scope) V rfl rfl
  have hclean : V.watch.clean (Program.parts (.ofItems items scope) items {}).2 := by
    show _ <+: (Program.ofItems items scope).program.strings.texts
    rw [Program.ofItems_eq]
    dsimp only
    simp only [(foldl_insert_parts ..).2.2, List.prefix_rfl]
  obtain ⟨⟨code, hcode, hinit⟩, fs, hfs, hmem, -⟩ := of_parts (W := V.watch) trivial hclean
    (Vocabulary.assembles_covers.initItems 0 _ items fun t ht =>
      ⟨(Vocabulary.ensures_covers_atom _ ht).mono fun _ h => h hknows, fun _ _ _ ho =>
        (Vocabulary.ensures_covers_atom _ ht).mono fun _ h => h (hhiding _ _ _ ho)⟩)
    (ensures_items fun _ item hi => Vocabulary.ensures_covers_item rfl _ item (Stmt.atoms_subset (List.mem_of_getElem? hi)))
  rcases List.mem_cons.mp hf with rfl | hf
  · rw [hinit] at hi
    exact Vocabulary.covers_emitAll rfl (.append (.cons (by simp) hcode) (.single (by simp))) i hi
  · exact hfs f (hmem f hf) i hi

end Wordstack
